import EntityGraph.Proofs.Offers
import Mathlib.Data.Set.Finite.List
import Mathlib.Logic.Relation

/-!
# Finalizing and cycles

An entity embeds another when one of its fields that take arguments holds objects of the other
inside its documents (`Registry.Embeds`). Where every relation leads to a registered entity,
finalizing succeeds exactly when no entity embeds itself, directly or through others
(`Registry.Acyclic`).

The passes carry the invariant that no cycle can be reached from an entity that has its shapes
(`Registry.Passing.grounded`): all entities that it embeds had theirs before. So a success leaves no
room for a cycle. A pass that gets no entity further leaves every waiting entity with another one
that it embeds and that waits, and as finitely many wait, some wait in a circle (`exists_cycle`).
Every other pass shortens the queue, so the limit on the number of passes is never reached
(`Registry.passes_eq_of_le`).
-/

namespace EntityGraph

/-- Does the field hold objects inside the documents of its owner? -/
def FieldDef.IsEmbedding (f : FieldDef) : Prop :=
    f.kind = .ok .embeddedObject ∨ f.kind = .ok .embeddedList

/-- Is this the error of definitions that do not fit together? -/
def Fault.IsConfiguration (f : Fault) : Prop := ∃ e, f = .service e ∧ e.kind = .configuration

/-- What is known of an entity apart from its shapes and the marks of its fields. -/
def Descriptor.plain (d : Descriptor) : Descriptor := { d with shapes := none, machineOwned := [] }

/-- **Circles.** If everything in a list leads to something in the list, something leads back to
itself. Otherwise following the relation would come to an end. -/
theorem exists_cycle {α : Type} {R : α → α → Prop} {xs : List α} (hne : xs ≠ [])
    (h : ∀ x ∈ xs, ∃ y ∈ xs, R x y) : ∃ x, Relation.TransGen R x x := by
  by_contra hno
  let S : {x // x ∈ xs} → {x // x ∈ xs} → Prop := fun a b => Relation.TransGen R b.1 a.1
  have : Finite {x // x ∈ xs} := xs.finite_toSet.to_subtype
  have : IsTrans {x // x ∈ xs} S := ⟨fun _ _ _ hab hbc => hbc.trans hab⟩
  have : Std.Irrefl S := ⟨fun a ha => hno ⟨a.1, ha⟩⟩
  have hwf : WellFounded S := Finite.wellFounded_of_trans_of_irrefl S
  have hnone : ∀ a : {x // x ∈ xs}, False := fun a => by
    induction a using hwf.induction with
    | _ a ih =>
      obtain ⟨y, hy, hr⟩ := h a.1 a.2
      exact ih ⟨y, hy⟩ (.single hr)
  obtain ⟨x, hx⟩ := List.exists_mem_of_ne_nil xs hne
  exact hnone ⟨x, hx⟩

/-- What can only be followed for so long does not lead back to itself. -/
theorem not_transGen_of_acc {α : Type} {R : α → α → Prop} {x : α} (h : Acc (fun y x => R x y) x) :
    ¬ Relation.TransGen R x x := by
  have hacc : Acc (Relation.TransGen fun y x => R x y) x := h.transGen
  intro hx
  have hback : Relation.TransGen (fun y x => R x y) x x := Relation.transGen_swap.1 hx
  induction hacc with
  | intro x _ ih => exact ih x hback h hx hback

namespace Registry

/-- **Embedding**: a field of the entity that takes arguments holds objects of the target inside its
documents. -/
def Embeds (r : Registry) (e target : String) : Prop :=
  ∃ d, Record.get? r.descriptors e = some d ∧ ∃ f ∈ d.entity.fields,
    f.TakesArguments d.machine.isSome ∧ f.IsEmbedding ∧ f.target = some target

/-- **No cycles**: no entity embeds itself, directly or through others. -/
def Acyclic (r : Registry) : Prop := ∀ e, ¬ Relation.TransGen r.Embeds e e

/-- Every field of objects leads to a registered entity that has a name. -/
def Linked (r : Registry) : Prop :=
  ∀ e ∈ r.descriptors, ∀ f ∈ e.2.entity.fields, ∀ kind, f.kind = .ok kind → kind.isObject = true →
    ∃ target, f.target = some target ∧ target ≠ "" ∧ r.has target = true

/-- **Finished registries**: all shapes are there and closed, they have the arguments of all fields,
and what these refer to are the finished shapes of other entities. -/
structure Finished (r : Registry) : Prop where
  attached : ∀ name d, Record.get? r.descriptors name = some d → ∃ p, d.shapes = some p ∧
    p.add.isSealed = true ∧ p.update.isSealed = true
  offered : ∀ name d p, Record.get? r.descriptors name = some d → d.shapes = some p →
    ∀ f ∈ d.entity.fields, f.TakesArguments d.machine.isSome →
    ∀ b, Record.get? (p.shape b).fields f.name = f.argument name b
  /-- an embedded field has the shape of its target for its type -/
  embedded : ∀ name d p, Record.get? r.descriptors name = some d → d.shapes = some p →
    ∀ f ∈ d.entity.fields, f.TakesArguments d.machine.isSome → f.IsEmbedding →
    ∃ target t q, f.target = some target ∧
      Record.get? r.descriptors target = some t ∧ t.shapes = some q ∧ ∀ b, ∃ i,
        Record.get? (p.shape b).fields f.name = some i ∧ i.type = .shape (.writing b target) ∧
        r.shape? (.writing b target) = some (q.shape b)
  /-- in the changes to a list of related documents, these are created and updated by the shapes of
  the target -/
  linked : ∀ name d p, Record.get? r.descriptors name = some d → d.shapes = some p →
    ∀ f ∈ d.entity.fields, f.TakesArguments d.machine.isSome → f.Links →
    ∃ target t q, f.target = some target ∧
      Record.get? r.descriptors target = some t ∧ t.shapes = some q ∧
      r.shape? (.add target) = some q.add ∧ r.shape? (.update target) = some q.update ∧
      ∀ b, ∃ i s, Record.get? (p.shape b).fields f.name = some i ∧ i.kind = .delta ∧
        i.type = .shape (.delta b name f.name) ∧ r.shape? (.delta b name f.name) = some s ∧
        (Record.get? s.fields "added").map (·.type) = some (.shape (.add target)) ∧
        (Record.get? s.fields "updated").map (·.type) = some (.shape (.update target))

/-! ## Fields -/

/-- Every field has a kind, and every field of objects leads to a registered entity that has a
name. -/
def Leads (r : Registry) (f : FieldDef) : Prop :=
  ∃ kind, f.kind = .ok kind ∧ (kind.isObject = true → ∃ target t, f.target = some target ∧
    target ≠ "" ∧
    Record.get? r.descriptors target = some t)

variable {r : Registry} {owner : String} {f : FieldDef} {d d' : ShapeDraft}

theorem require_of_get? {target referrer : String} {t : Descriptor} (hname : target ≠ "")
    (ht : Record.get? r.descriptors target = some t) :
    r.require (some target) referrer = .ok t := by
  unfold require
  dsimp only
  rw [ht]
  exact if_neg hname

theorem Leads.exists_target (h : r.Leads f) (hf : f.IsEmbedding) :
    ∃ target t, f.target = some target ∧
    target ≠ "" ∧ Record.get? r.descriptors target = some t := by
  obtain ⟨kind, hk, htarget⟩ := h
  refine htarget ?_
  rcases hf with hf | hf <;> cases hk.symm.trans hf <;> rfl

/-- The entity that a field embeds, or why it cannot be had. -/
theorem embeddedTarget_eq (hr : ∀ name d, Record.get? r.descriptors name = some d → d.name = name)
    {target : String} {t : Descriptor} (htarget : f.target = some target) (hname : target ≠ "")
    (ht : Record.get? r.descriptors target = some t) : ShapeDraft.embeddedTarget r owner f =
      if target = owner then .error (.fault (Reason.embedsItself owner f.name).fault)
      else if t.shapes.isNone then .error (.waitsFor target) else .ok target := by
  unfold ShapeDraft.embeddedTarget
  by_cases howner : target = owner
  · rw [if_pos howner, htarget, howner, if_pos rfl]
    rfl
  · have hne : ¬ f.target = some owner :=
      fun heq => howner (Option.some.inj (htarget.symm.trans heq))
    rw [if_neg howner, if_neg hne, htarget, require_of_get? hname ht]
    change (if t.shapes.isNone = true then Except.error (DraftStop.waitsFor t.name) else
      .ok t.name) = _
    rw [hr target t ht]

theorem addField_of_isEmbedding (hf : f.IsEmbedding) (owner : String) (d : ShapeDraft) : ∃ input,
    ShapeDraft.addField r owner d f = (do
      let target ← ShapeDraft.embeddedTarget r owner f
      pure (d.embed f input target)) := by
  unfold ShapeDraft.addField
  rcases hf with hf | hf <;> rw [hf]
  · exact ⟨.object, rfl⟩
  · exact ⟨.objectList, rfl⟩

/-- A field that embeds nothing is always added. -/
theorem addField_of_not_isEmbedding (hlead : r.Leads f) (hf : ¬ f.IsEmbedding) (owner : String)
    (d : ShapeDraft) :
    ∃ d', ShapeDraft.addField r owner d f = .ok d' := by
  obtain ⟨kind, hk, htarget⟩ := hlead
  unfold FieldDef.IsEmbedding at hf
  unfold ShapeDraft.addField
  rw [hk] at hf ⊢
  cases kind with
  | scalar => exact ⟨_, rfl⟩
  | enumeration => exact ⟨_, rfl⟩
  | scalarList => exact ⟨_, rfl⟩
  | referencedObject => exact ⟨_, rfl⟩
  | embeddedObject => exact absurd (.inl rfl) hf
  | embeddedList => exact absurd (.inr rfl) hf
  | referencedList =>
    obtain ⟨target, t, hname, hne, ht⟩ := htarget rfl
    dsimp only
    rw [hname, require_of_get? hne ht]
    exact ⟨_, rfl⟩

/-- Why a draft stops: an embedded entity has no shapes, or is the owner itself. -/
def StopsFor (r : Registry) (owner : String) (f : FieldDef) : DraftStop → Prop
  | .waitsFor target => f.target = some target ∧
      ∃ t, Record.get? r.descriptors target = some t ∧ t.shapes = none
  | .fault e => f.target = some owner ∧ e.IsConfiguration

/-- **Adding a field** goes through when an embedded entity has its shapes, and stops otherwise. -/
theorem addField_cases (hr : ∀ name d, Record.get? r.descriptors name = some d → d.name = name)
    (hlead : r.Leads f) (owner : String) (d : ShapeDraft) :
    (∃ d', ShapeDraft.addField r owner d f = .ok d' ∧
      (f.IsEmbedding → ∃ target t, f.target = some target ∧
        Record.get? r.descriptors target = some t ∧ t.shapes.isSome = true)) ∨
      ∃ stop, ShapeDraft.addField r owner d f = .error stop ∧ f.IsEmbedding ∧
        r.StopsFor owner f stop := by
  by_cases hf : f.IsEmbedding
  · obtain ⟨target, t, htarget, hne, ht⟩ := hlead.exists_target hf
    obtain ⟨input, hadd⟩ := addField_of_isEmbedding (r := r) hf owner d
    rw [hadd, embeddedTarget_eq hr htarget hne ht]
    by_cases howner : target = owner
    · rw [if_pos howner]
      exact .inr ⟨_, rfl, hf, howner ▸ htarget, _, rfl, rfl⟩
    · rw [if_neg howner]
      rcases hshapes : t.shapes with _ | p
      · exact .inr ⟨_, rfl, hf, htarget, t, ht, hshapes⟩
      · exact .inl ⟨_, rfl, fun _ => ⟨target, t, htarget, ht, by rw [hshapes]; rfl⟩⟩
  · obtain ⟨d', hadd⟩ := addField_of_not_isEmbedding hlead hf owner d
    exact .inl ⟨d', hadd, fun h => absurd h hf⟩

/-- Has the entity that a field embeds its shapes? -/
def Settles (r : Registry) (f : FieldDef) : Prop :=
  ∃ target t, f.target = some target ∧ Record.get? r.descriptors target = some t ∧
    t.shapes.isSome = true

/-- How adding fields ends: all embedded entities have their shapes, or it stops at one of them. -/
def EndsAt (r : Registry) (owner : String) (hasMachine : Bool) (fields : List FieldDef) :
    Option DraftStop → Prop
  | none => ∀ f ∈ fields, f.TakesArguments hasMachine → f.IsEmbedding → r.Settles f
  | some stop => ∃ f ∈ fields, f.TakesArguments hasMachine ∧ f.IsEmbedding ∧ r.StopsFor owner f stop

theorem EndsAt.cons {hasMachine : Bool} {rest : List FieldDef} {stop : Option DraftStop}
    (h : r.EndsAt owner hasMachine rest stop)
    (hf : f.TakesArguments hasMachine → f.IsEmbedding → r.Settles f) :
    r.EndsAt owner hasMachine (f :: rest) stop := by
  cases stop with
  | none =>
    intro g hg
    rcases List.mem_cons.1 hg with rfl | hg
    · exact hf
    · exact h g hg
  | some stop =>
    obtain ⟨g, hg, hwhy⟩ := h
    exact ⟨g, List.mem_cons_of_mem _ hg, hwhy⟩

/-- **Adding the fields** goes through when all embedded entities have their shapes, and stops at
one otherwise. -/
theorem endsAt_addFields (hr : ∀ name d, Record.get? r.descriptors name = some d → d.name = name)
    {fields : List FieldDef} (hleads : ∀ f ∈ fields, r.Leads f) (owner : String) (hasMachine : Bool)
    (d : ShapeDraft) :
    r.EndsAt owner hasMachine fields (ShapeDraft.addFields r owner hasMachine d fields).2 := by
  induction fields generalizing d with
  | nil => exact fun f hf => absurd hf List.not_mem_nil
  | cons f rest ih =>
    have htail := fun d => ih (fun g hg => hleads g (List.mem_cons_of_mem _ hg)) d
    have hfield := addField_cases hr (hleads f (List.mem_cons_self ..)) owner d
    rcases ShapeDraft.addFields_cases r owner hasMachine d f rest with
      ⟨hskip, marked, -, heq⟩ | ⟨ht, ⟨stop, hadd, heq⟩ | ⟨d', hadd, heq⟩⟩ <;> rw [heq]
    · exact (htail _).cons fun ht => absurd ht hskip
    · rcases hfield with ⟨d', hadd', -⟩ | ⟨stop', hadd', he, hwhy⟩
      · cases hadd.symm.trans hadd'
      · cases hadd.symm.trans hadd'
        exact ⟨f, List.mem_cons_self .., ht, he, hwhy⟩
    · rcases hfield with ⟨-, -, hsettles⟩ | ⟨stop', hadd', -⟩
      · exact (htail d').cons fun _ => hsettles
      · cases hadd.symm.trans hadd'

/-! ## Passes -/

/-- Has the entity no shapes? -/
def Unshaped (r : Registry) (name : String) : Prop :=
  ∃ d, Record.get? r.descriptors name = some d ∧ d.shapes = none

/-- **Passes under way** from the registry `r₀`: who has no shapes waits, who has them is done, and
no cycle can be reached from there. -/
structure Passing (r₀ r : Registry) (waiting done : List String) : Prop where
  alike : Alike r₀ r
  named : ∀ name d, Record.get? r.descriptors name = some d → d.name = name
  covered : r.Covered waiting
  done : ∀ name d, Record.get? r.descriptors name = some d → d.shapes.isSome = true → name ∈ done
  grounded : ∀ name d, Record.get? r.descriptors name = some d → d.shapes.isSome = true →
    Acc (fun target e => r₀.Embeds e target) name

/-- All fields of the registry lead somewhere. -/
def AllLead (r : Registry) : Prop :=
  ∀ name d, Record.get? r.descriptors name = some d → ∀ f ∈ d.entity.fields, r.Leads f

variable {r₀ r' : Registry} {waiting done : List String} {name : String}

theorem AllLead.alike (h : r₀.AllLead) (hr : Alike r₀ r) : r.AllLead := by
  intro name d hd f hf
  obtain ⟨d₀, hd₀, hentity, -⟩ := hr.exists_of_get? hd
  obtain ⟨kind, hk, htarget⟩ := h name d₀ hd₀ f (hentity ▸ hf)
  refine ⟨kind, hk, fun hobject => ?_⟩
  obtain ⟨target, t, hname, hne, ht⟩ := htarget hobject
  have hsame := hr target
  rw [ht, Option.map_some] at hsame
  obtain ⟨t', ht', -⟩ := Option.map_eq_some_iff.1 hsame
  exact ⟨target, t', hname, hne, ht'⟩

/-- The entities that an entity embeds are the same ones all the time. -/
theorem embeds_iff_of_alike (hr : Alike r₀ r) {d : Descriptor}
    (hd : Record.get? r.descriptors name = some d) {target : String} : r₀.Embeds name target ↔
      ∃ f ∈ d.entity.fields, f.TakesArguments d.machine.isSome ∧ f.IsEmbedding ∧
        f.target = some target := by
  obtain ⟨d₀, hd₀, hentity, hmachine⟩ := hr.exists_of_get? hd
  rw [← hentity, ← hmachine]
  constructor
  · rintro ⟨d₁, hd₁, hfield⟩
    obtain rfl : d₁ = d₀ := Option.some.inj (hd₁.symm.trans hd₀)
    exact hfield
  · exact fun hfield => ⟨d₀, hd₀, hfield⟩

/-- The entities after a change are those from before. -/
theorem exists_of_get?_change {change : Descriptor → Descriptor} {other : String} {d' : Descriptor}
    (hd' : Record.get? (r.change name change).descriptors other = some d') :
    ∃ d, Record.get? r.descriptors other = some d ∧
      (d' = d ∧ name ≠ other ∨ d' = change d ∧ name = other) := by
  rw [get?_change] at hd'
  split at hd'
  · rename_i ho
    obtain ⟨d, hd, rfl⟩ := Option.map_eq_some_iff.1 hd'
    exact ⟨d, hd, .inr ⟨rfl, ho⟩⟩
  · rename_i ho
    exact ⟨d', hd', .inl ⟨rfl, ho⟩⟩

theorem Alike.change (h : Alike r₀ r) {change : Descriptor → Descriptor}
    (hc : ∀ d, (change d).entity = d.entity ∧ (change d).machine = d.machine) :
    Alike r₀ (r.change name change) := by
  intro other
  rw [← h other, get?_change]
  split
  · rcases Record.get? r.descriptors other with _ | d
    · rfl
    · obtain ⟨hentity, hmachine⟩ := hc d
      simp [hentity, hmachine]
  · rfl

/-- Marking the state field of an entity. -/
theorem Passing.own (h : Passing r₀ r waiting done) (owned : List String) :
    Passing r₀ (r.change name ({ · with machineOwned := owned })) waiting done := by
  have hsame :
    ∀ other d', Record.get? (r.change name ({ · with machineOwned := owned })).descriptors other =
      some d' → ∃ d, Record.get? r.descriptors other = some d ∧ d'.name = d.name ∧
      d'.shapes = d.shapes := by
    intro other d' hd'
    obtain ⟨d, hd, ⟨rfl, -⟩ | ⟨rfl, -⟩⟩ := exists_of_get?_change hd'
    · exact ⟨d', hd, rfl, rfl⟩
    · exact ⟨d, hd, rfl, rfl⟩
  refine ⟨h.alike.change fun _ => ⟨rfl, rfl⟩, fun other d' hd' => ?_, h.covered.change fun _ hs =>
    hs, fun other d' hd' hs => ?_, fun other d' hd' hs => ?_⟩ <;>
    obtain ⟨d, hd, hname, hshapes⟩ := hsame other d' hd'
  · exact hname.trans (h.named other d hd)
  · exact h.done other d hd (hshapes ▸ hs)
  · exact h.grounded other d hd (hshapes ▸ hs)

/-- Giving an entity its shapes, from which no cycle can be reached. -/
theorem Passing.shape {before rest : List String} (h : Passing r₀ r (before ++ name :: rest) done)
    (hacc : Acc (fun target e => r₀.Embeds e target) name) (p : ShapePair) :
    Passing r₀ (r.change name ({ · with shapes := some p })) (before ++ rest) (done ++ [name]) where
  alike := h.alike.change fun _ => ⟨rfl, rfl⟩
  named := fun other d' hd' => by
    obtain ⟨d, hd, ⟨rfl, -⟩ | ⟨rfl, -⟩⟩ := exists_of_get?_change hd'
    · exact h.named other d' hd
    · exact h.named other d hd
  covered := h.covered.shape fun _ => rfl
  done := fun other d' hd' hs => by
    obtain ⟨d, hd, ⟨rfl, -⟩ | ⟨-, rfl⟩⟩ := exists_of_get?_change hd'
    · exact List.mem_append_left _ (h.done other d' hd hs)
    · exact List.mem_append_right _ (List.mem_singleton_self _)
  grounded := fun other d' hd' hs => by
    obtain ⟨d, hd, ⟨rfl, -⟩ | ⟨-, rfl⟩⟩ := exists_of_get?_change hd'
    · exact h.grounded other d' hd hs
    · exact hacc

/-- **One step of a pass**: the entity gets its shapes, or waits for one that it embeds, or embeds
itself. -/
theorem Passing.tryDraft (h₀ : r₀.AllLead) {p : Progress} {rest : List String}
    (h : Passing r₀ r (p.waiting ++ name :: rest) (p.done.map Prod.fst)) :
    (∃ q r', (Registry.tryDraft p name).run.run r = (.ok q, r') ∧
      Passing r₀ r' (q.waiting ++ rest) (q.done.map Prod.fst) ∧ (q.waiting = p.waiting ∨
        q.waiting = p.waiting ++ [name] ∧ (∃ target, r₀.Embeds name target ∧ r.Unshaped target) ∧
          ∀ other, r'.Unshaped other → r.Unshaped other)) ∨
    ∃ e r', (Registry.tryDraft p name).run.run r = (.error e, r') ∧ e.IsConfiguration ∧
      r₀.Embeds name name := by
  rcases run_tryDraft p name r with ⟨hnone, hrun⟩ | ⟨d, draft, owned, hd, -, hcases⟩
  · exact .inl ⟨p, r, hrun, ⟨h.alike, h.named, covered_tryDraft hrun h.covered, h.done, h.grounded⟩,
      .inl rfl⟩
  have hends := endsAt_addFields h.named (fun f hf => h₀.alike h.alike name d hd f hf) name
    d.machine.isSome (ShapeDraft.start name)
  have howned : Passing r₀ (r.change name ({ · with machineOwned := owned })) (p.waiting ++ name ::
    rest)
      (p.done.map Prod.fst) := h.own owned
  obtain ⟨hadd, hrun⟩ | ⟨target, hadd, hrun⟩ | ⟨e, hadd, hrun⟩ := hcases
  · rw [hadd] at hends
    have hacc : Acc (fun target e => r₀.Embeds e target) name :=
        Acc.intro _ fun target hembeds => by
      obtain ⟨f, hf, ht, he, htarget⟩ := (embeds_iff_of_alike h.alike hd).1 hembeds
      obtain ⟨target', t, htarget', hget, hshaped⟩ := hends f hf ht he
      obtain rfl : target = target' := Option.some.inj (htarget.symm.trans htarget')
      exact h.grounded target t hget hshaped
    refine .inl ⟨_, _, hrun, ?_, .inl rfl⟩
    rw [List.map_append]
    exact howned.shape hacc _
  · rw [hadd] at hends
    obtain ⟨f, hf, ht, he, htarget, hunshaped⟩ := hends
    refine .inl ⟨_, _, hrun, ?_,
      .inr ⟨rfl, ⟨target, (embeds_iff_of_alike h.alike hd).2 ⟨f, hf, ht, he, htarget⟩, hunshaped⟩,
      ?_⟩⟩
    · rw [List.append_assoc]
      exact howned
    · rintro other ⟨d', hd', hshapes⟩
      obtain ⟨d₁, hd₁, ⟨rfl, -⟩ | ⟨rfl, -⟩⟩ := exists_of_get?_change hd'
      · exact ⟨d', hd₁, hshapes⟩
      · exact ⟨d₁, hd₁, hshapes⟩
  · rw [hadd] at hends
    obtain ⟨f, hf, ht, he, htarget, hconfiguration⟩ := hends
    exact .inr ⟨e, _, hrun, hconfiguration,
      (embeds_iff_of_alike h.alike hd).2 ⟨f, hf, ht, he, htarget⟩⟩

/-- Each pass makes the queue shorter, or leaves it as long as it was. -/
theorem length_foldlM_le {names : List String} {p q : Progress}
    (h : (names.foldlM Registry.tryDraft p).run.run r = (.ok q, r')) :
    q.waiting.length ≤ p.waiting.length + names.length := by
  induction names generalizing p r with
  | nil =>
    cases h
    exact Nat.le_refl _
  | cons name rest ih =>
    rw [List.foldlM_cons] at h
    obtain ⟨p', r₁, hfirst, h⟩ := Action.run_bind_eq_ok h
    have hstep : p'.waiting.length ≤ p.waiting.length + 1 := by
      rcases run_tryDraft p name r with
        ⟨-, hrun⟩ | ⟨d, draft, owned, -, -, ⟨-, hrun⟩ | ⟨target, -, hrun⟩ | ⟨e, -, hrun⟩⟩
      all_goals
        rw [hrun] at hfirst
        cases hfirst
      · exact Nat.le_succ _
      · exact Nat.le_succ _
      · rw [List.length_append]
        exact Nat.le_refl _
    have := ih h
    rw [List.length_cons]
    omega

/-- **A pass** keeps the queue in order. When it gets no entity further, every entity of the queue
embeds one that has no shapes; and when it fails, some entity embeds itself. -/
theorem Passing.foldlM (h₀ : r₀.AllLead) {names : List String} {p : Progress}
    (h : Passing r₀ r (p.waiting ++ names) (p.done.map Prod.fst)) :
    (∃ q r', (names.foldlM Registry.tryDraft p).run.run r = (.ok q, r') ∧
      Passing r₀ r' q.waiting (q.done.map Prod.fst) ∧
        (q.waiting.length = p.waiting.length + names.length →
        ∀ name ∈ names, ∃ target, r₀.Embeds name target ∧ r.Unshaped target)) ∨
    ∃ e r', (names.foldlM Registry.tryDraft p).run.run r = (.error e, r') ∧ e.IsConfiguration ∧
      ∃ name, r₀.Embeds name name := by
  induction names generalizing p r with
  | nil =>
    rw [List.append_nil] at h
    exact .inl ⟨p, r, rfl, h, fun _ name hname => absurd hname List.not_mem_nil⟩
  | cons name rest ih =>
    rw [List.foldlM_cons]
    rcases h.tryDraft h₀ with ⟨p', r₁, hfirst, h₁, hstep⟩ | ⟨e, r₁, hfirst, he, hname⟩
    · rw [Action.run_bind_ok hfirst]
      rcases ih h₁ with ⟨q, r', hrest, hq, hblocked⟩ | hfails
      · refine .inl ⟨q, r', hrest, hq, fun hlength => ?_⟩
        have hle := length_foldlM_le hrest
        rw [List.length_cons] at hlength
        rcases hstep with hsame | ⟨hwaits, hblocks, hstill⟩
        · rw [hsame] at hle
          omega
        · rw [hwaits, List.length_append, List.length_singleton] at hblocked
          intro other hother
          rcases List.mem_cons.1 hother with rfl | hother
          · exact hblocks
          · obtain ⟨target, hembeds, hunshaped⟩ := hblocked (by omega) other hother
            exact ⟨target, hembeds, hstill target hunshaped⟩
      · exact .inr hfails
    · exact .inr ⟨e, r₁, Action.run_bind_error hfirst, he, name, hname⟩

theorem passes_succ {fuel : Nat} {p : Progress} (hsome : p.waiting ≠ [])
    (hfuel : p.waiting.length ≤ fuel) (r : Registry) :
    (passes (fuel + 1) p).run.run r = (passes fuel p).run.run r := by
  induction fuel generalizing p r with
  | zero => exact absurd (List.length_eq_zero_iff.1 (Nat.le_zero.1 hfuel)) hsome
  | succ fuel ih =>
    rw [passes, passes, Action.run_bind, Action.run_bind]
    rcases hpass : (onePass p).run.run r with ⟨e | q, r'⟩
    · rfl
    · dsimp only
      split
      · rfl
      · rename_i hempty
        split
        · rfl
        · rename_i hlength
          have hle : q.waiting.length ≤ 0 + p.waiting.length := length_foldlM_le hpass
          exact ih (fun hnil => hempty (List.isEmpty_iff.2 hnil)) (by omega) r'

/-- **The limit on the number of passes is never reached**: any larger one gives the same. -/
theorem passes_eq_of_le {fuel : Nat} {p : Progress} (hsome : p.waiting ≠ [])
    (hfuel : p.waiting.length ≤ fuel) (r : Registry) :
    (passes fuel p).run.run r = (passes p.waiting.length p).run.run r := by
  induction fuel, hfuel using Nat.le_induction with
  | base => rfl
  | succ fuel hfuel ih => rw [passes_succ hsome hfuel, ih]

/-- **The passes** end with an empty queue, or with a cycle. -/
theorem Passing.passes (h₀ : r₀.AllLead) {fuel : Nat} {p : Progress} (hsome : p.waiting ≠ [])
    (hfuel : p.waiting.length ≤ fuel) (h : Passing r₀ r p.waiting (p.done.map Prod.fst)) :
    (∃ q r', (Registry.passes fuel p).run.run r = (.ok q, r') ∧
      Passing r₀ r' [] (q.done.map Prod.fst)) ∨
    ∃ e r', (Registry.passes fuel p).run.run r = (.error e, r') ∧ e.IsConfiguration ∧
      ¬ r₀.Acyclic := by
  induction fuel generalizing p r with
  | zero => exact absurd (List.length_eq_zero_iff.1 (Nat.le_zero.1 hfuel)) hsome
  | succ fuel ih =>
    rw [Registry.passes]
    have hstart : Passing r₀ r ((⟨[], p.done, []⟩ : Progress).waiting ++ p.waiting)
      (p.done.map Prod.fst) := h
    rcases hstart.foldlM h₀ with ⟨q, r', hrun, hq, hblocked⟩ | ⟨e, r', hrun, he, name, hname⟩
    · have hle := length_foldlM_le hrun
      rw [Action.run_bind_ok (show (onePass p).run.run r = _ from hrun)]
      by_cases hempty : q.waiting.isEmpty = true
      · rw [if_pos hempty]
        rw [List.isEmpty_iff.1 hempty] at hq
        exact .inl ⟨q, r', rfl, hq⟩
      rw [if_neg hempty]
      by_cases hlength : q.waiting.length = p.waiting.length
      · rw [if_pos hlength]
        refine .inr ⟨_, r', rfl, ⟨_, rfl, rfl⟩, fun hacyclic => ?_⟩
        obtain ⟨name, hcycle⟩ := exists_cycle hsome fun name hname => by
          obtain ⟨target, hembeds, d, hd, hshapes⟩ := hblocked (by simpa using hlength) name hname
          refine ⟨target, (h.covered target d hd).resolve_left ?_, hembeds⟩
          rw [hshapes]
          exact Bool.false_ne_true
        exact hacyclic name hcycle
      · rw [if_neg hlength]
        have hlt : q.waiting.length ≤ 0 + p.waiting.length := hle
        exact ih (fun hnil => hempty (List.isEmpty_iff.2 hnil)) (by omega) hq
    · exact .inr ⟨e, r', Action.run_bind_error hrun, he, fun hacyclic =>
        hacyclic name (.single hname)⟩

/-! ## What was registered -/

/-- Every field has a kind. -/
def Classified (r : Registry) : Prop :=
  ∀ e ∈ r.descriptors, ∀ f ∈ e.2.entity.fields, ∃ kind, f.kind = .ok kind

/-- **Invariants of finalizing**: what survives other shapes and other marks of one entity. -/
theorem keeps_finalize_of_equip {I : Registry → Prop}
    (hequip : ∀ r name (shapes : Descriptor → Option ShapePair) (owned : Descriptor → List String),
      I r →
      I (r.change name fun d => { d with shapes := shapes d, machineOwned := owned d }))
    (hdone : ∀ r, I r → I { r with finalized := true }) : Keeps I (fun _ => True) finalize :=
  have hrules : DraftRules I fun _ _ => True :=
    { mark := fun r name owned hr => hequip r name (fun d => d.shapes) (fun _ => owned) hr
      draft := fun _ _ _ _ _ _ _ => trivial
      shape := fun r name draft hr _ =>
        hequip r name (fun _ => some ⟨draft.add, draft.update⟩) (fun d => d.machineOwned) hr
      close := fun r name draft hr _ => hequip r name
        (fun _ => some ⟨(draft.withDeltas name).add.close, (draft.withDeltas name).update.close⟩)
        (fun d => d.machineOwned) hr }
  hrules.finalize hdone

/-- **Invariants of finalizing**: what survives a change of one entity's shapes. -/
theorem keeps_finalize_of_change {I : Registry → Prop}
    (hchange : ∀ r name (change : Descriptor → Descriptor), (∀ d, (change d).entity = d.entity) →
      I r →
      I (r.change name change))
    (hdone : ∀ r, I r → I { r with finalized := true }) : Keeps I (fun _ => True) finalize :=
  keeps_finalize_of_equip (fun r name _ _ hr => hchange r name _ (fun _ => rfl) hr) hdone

/-- A change of one entity that leaves alone what `g` sees of it. -/
theorem mapValues_change {β : Type} {g : Descriptor → β} {change : Descriptor → Descriptor}
    (hg : ∀ d, g (change d) = g d) :
    Record.mapValues g (r.change name change).descriptors = Record.mapValues g r.descriptors := by
  unfold Registry.change
  split
  · rename_i d hd
    have hget : Record.get? (Record.mapValues g r.descriptors) name = some (g d) := by
      rw [Record.get?_mapValues, hd]
      rfl
    rw [Record.mapValues_put, hg, Record.put_of_get? hget]
  · rfl

theorem mutations_change (change : Descriptor → Descriptor) :
    (r.change name change).mutations = r.mutations := by
  unfold Registry.change
  split <;> rfl

/-- **The frame of finalizing.** Whether it succeeds or fails, it leaves the custom mutations alone,
and of the entities everything but their shapes and their marks. -/
theorem frame_finalize (r : Registry) : (finalize.run.run r).2.mutations = r.mutations ∧
    Record.mapValues Descriptor.plain (finalize.run.run r).2.descriptors =
      Record.mapValues Descriptor.plain r.descriptors := by
  refine (keeps_finalize_of_equip (I := fun r' => r'.mutations = r.mutations ∧
    Record.mapValues Descriptor.plain r'.descriptors =
    Record.mapValues Descriptor.plain r.descriptors) (fun r' name shapes owned h =>
    ⟨(mutations_change _).trans h.1, ?_⟩) (fun _ h => h) r ⟨rfl, rfl⟩).1
  rw [mapValues_change (g := Descriptor.plain)]
  · exact h.2
  · exact fun _ => rfl

theorem Classified.change (h : r.Classified) {change : Descriptor → Descriptor}
    (hc : ∀ d, (change d).entity = d.entity) : (r.change name change).Classified := by
  unfold Registry.change
  split
  · rename_i d hd
    intro e he
    rcases Record.mem_put he with he | rfl
    · exact h e he
    · change ∀ f ∈ (change d).entity.fields, _
      rw [hc d]
      exact h (name, d) (Record.mem_of_get?_eq_some hd)
  · exact h

theorem classify_of_kinds {fields : List FieldDef} (h : ∀ f ∈ fields, ∃ kind, f.kind = .ok kind) :
    classify fields = .ok () := by
  induction fields with
  | nil => rfl
  | cons f rest ih =>
    obtain ⟨kind, hk⟩ := h f (List.mem_cons_self ..)
    rw [classify, hk]
    exact ih fun g hg => h g (List.mem_cons_of_mem _ hg)

/-- A descriptor of a new name can be added when its fields have kinds. -/
theorem add_of_kinds {d : Descriptor} (hnew : r.has d.name = false)
    (hkinds : ∀ f ∈ d.entity.fields, ∃ kind, f.kind = .ok kind) :
    r.add d =
      .ok { r with descriptors := Record.put r.descriptors d.name d, finalized := false } := by
  unfold Registry.add
  rw [if_neg (by rw [hnew]; exact Bool.false_ne_true), classify_of_kinds hkinds]
  rfl

theorem Classified.add (h : r.Classified) {d : Descriptor} (hr : r.add d = .ok r') :
    r'.Classified := by
  obtain ⟨-, hkinds, rfl⟩ := add_eq_ok hr
  intro e he
  rcases Record.mem_put he with he | rfl
  · exact h e he
  · exact hkinds

/-- Fields are classified when their entity is registered. -/
theorem Built.classified (h : Built r) : r.Classified :=
  h.keeps (I := Classified) (fun _ he => absurd he List.not_mem_nil) (fun hr _ _ hadd =>
    hr.add hadd) (fun _ hr => hr) fun _ hr =>
      (keeps_finalize_of_change (I := Classified) (fun _ _ _ hc h => h.change hc) (fun _ h =>
        h) _ hr).1

/-- In a linked registry all fields lead somewhere. -/
theorem Linked.leads (h : r.Linked) (hc : r.Classified) {e : String × Descriptor}
    (he : e ∈ r.descriptors) {f : FieldDef} (hf : f ∈ e.2.entity.fields) : r.Leads f := by
  obtain ⟨kind, hk⟩ := hc e he f hf
  refine ⟨kind, hk, fun hobject => ?_⟩
  obtain ⟨target, htarget, hne, hhas⟩ := h e he f hf kind hk hobject
  obtain ⟨t, ht⟩ := Option.isSome_iff_exists.1 hhas
  exact ⟨target, t, htarget, hne, ht⟩

theorem checkRelations_of_leads {fields : List FieldDef} (h : ∀ f ∈ fields, r.Leads f)
    (owner : String) :
    r.checkRelations owner fields = .ok () := by
  induction fields with
  | nil => rfl
  | cons f rest ih =>
    have hrest := ih fun g hg => h g (List.mem_cons_of_mem _ hg)
    obtain ⟨kind, hk, htarget⟩ := h f (List.mem_cons_self ..)
    rw [checkRelations, hk]
    change (if kind.isObject = true then _ else _) = _
    split
    · rename_i hobject
      obtain ⟨target, t, hname, hne, ht⟩ := htarget hobject
      rw [hname, require_of_get? hne ht]
      exact hrest
    · exact hrest

/-- **The check of relations** lets a linked registry through. -/
theorem checkTargets_of_leads {entries : List (String × Descriptor)}
    (h : ∀ e ∈ entries, ∀ f ∈ e.2.entity.fields, r.Leads f) : r.checkTargets entries = .ok () := by
  induction entries with
  | nil => rfl
  | cons e rest ih =>
    rw [checkTargets, checkRelations_of_leads (h e (List.mem_cons_self ..)) e.1]
    exact ih fun g hg => h g (List.mem_cons_of_mem _ hg)

/-! ## Finished shapes -/

/-- The shapes of an entity come from its draft. -/
theorem shapes_attachDrafts {done : List (String × ShapeDraft)} {d : Descriptor}
    (hd : Record.get? (r.attachDrafts done).descriptors name = some d)
    (hname : name ∈ done.map Prod.fst) :
    ∃ draft, (name, draft) ∈ done ∧
      d.shapes = some ⟨(draft.withDeltas name).add.close,
        (draft.withDeltas name).update.close⟩ := by
  induction done using List.reverseRecOn generalizing d with
  | nil => cases hname
  | append_singleton before e ih =>
    rw [attachDrafts, List.foldl_append] at hd
    obtain ⟨d₁, hd₁, ⟨rfl, hne⟩ | ⟨rfl, rfl⟩⟩ := exists_of_get?_change hd
    · rw [List.map_append, List.mem_append] at hname
      have hbefore := hname.resolve_right fun h => hne (List.mem_singleton.1 h).symm
      obtain ⟨draft, hdraft, hshapes⟩ := ih hd₁ hbefore
      exact ⟨draft, List.mem_append_left _ hdraft, hshapes⟩
    · exact ⟨e.2, List.mem_append_right _ (List.mem_singleton_self _), rfl⟩

/-- What the arguments of all fields refer to is there. -/
theorem finished_of_offered (hlead : r.AllLead)
    (hattached : ∀ name d, Record.get? r.descriptors name = some d → ∃ p, d.shapes = some p ∧
      p.add.isSealed = true ∧ p.update.isSealed = true)
    (hoffered : ∀ name d p, Record.get? r.descriptors name = some d → d.shapes = some p →
      ∀ f ∈ d.entity.fields, f.TakesArguments d.machine.isSome → ∀ b,
        Record.get? (p.shape b).fields f.name = f.argument name b) : r.Finished where
  attached := hattached
  offered := hoffered
  embedded := fun name d p hd hp f hf ht he => by
    obtain ⟨target, t, htarget, -, hget⟩ := (hlead name d hd f hf).exists_target he
    obtain ⟨q, hq, -⟩ := hattached target t hget
    refine ⟨target, t, q, htarget, hget, hq, fun b => ?_⟩
    rw [hoffered name d p hd hp f hf ht b, FieldDef.argument]
    have hshape : r.shape? (.writing b target) = some (q.shape b) := by
      cases b <;> rw [ShapeRef.writing, shape?, hget, Option.bind_some, hq] <;> rfl
    rcases he with he | he <;> rw [he, htarget] <;> exact ⟨_, rfl, rfl, hshape⟩
  linked := fun name d p hd hp f hf ht hlink => by
    obtain ⟨kind, hk, hobject⟩ := hlead name d hd f hf
    obtain rfl : kind = .referencedList := Except.ok.inj (hk.symm.trans hlink)
    obtain ⟨target, t, htarget, -, hget⟩ := hobject rfl
    obtain ⟨q, hq, -⟩ := hattached target t hget
    refine ⟨target, t, q, htarget, hget, hq, by rw [shape?, hget, Option.bind_some, hq]; rfl,
      by rw [shape?, hget, Option.bind_some, hq]; rfl, fun b => ?_⟩
    rw [hoffered name d p hd hp f hf ht b, FieldDef.argument_of_links hlink]
    refine ⟨_, InputShape.delta (deltaLetter b) name f.name (.shape (.add target))
      (.shape (.update target)), rfl, rfl, rfl, ?_, rfl, rfl⟩
    rw [shape?, hd]
    simp only [Option.bind_eq_bind, Option.bind_some, Entity.field?_eq hf, htarget]

/-- **After the passes** the registry is finished by attaching the drafts. -/
theorem Passing.finished (h₀ : r₀.AllLead) {p : Progress}
    (h : Passing r₀ r [] (p.done.map Prod.fst)) (hr : KeptOffering r₀ r)
    (hdone : ∀ e ∈ p.done, Equips r₀ e.1 e.2) : (r.attachDrafts p.done).Finished := by
  have hkept := (draftRules_offering.attachDrafts hdone hr).1
  have hdraft : ∀ name d, Record.get? (r.attachDrafts p.done).descriptors name = some d → ∃ draft,
      Equips r₀ name draft ∧
        d.shapes = some ⟨(draft.withDeltas name).add.close,
        (draft.withDeltas name).update.close⟩ := by
    intro name d hd
    obtain ⟨d₀, hd₀, -⟩ := hkept.1.exists_of_get? hd
    have hsame := h.alike name
    rw [hd₀, Option.map_some] at hsame
    obtain ⟨d₁, hd₁, -⟩ := Option.map_eq_some_iff.1 hsame
    have hshaped := (h.covered name d₁ hd₁).resolve_right List.not_mem_nil
    obtain ⟨draft, hmem, hshapes⟩ := shapes_attachDrafts hd (h.done name d₁ hd₁ hshaped)
    exact ⟨draft, hdone _ hmem, hshapes⟩
  refine finished_of_offered (h₀.alike hkept.1) (fun name d hd => ?_)
    fun name d q hd hq f hf ht b => ?_
  · obtain ⟨draft, -, hshapes⟩ := hdraft name d hd
    exact ⟨_, hshapes, rfl, rfl⟩
  · obtain ⟨draft, hequips, hshapes⟩ := hdraft name d hd
    obtain rfl := Option.some.inj (hshapes.symm.trans hq)
    obtain ⟨d₀, hd₀, hentity, hmachine⟩ := hkept.1.exists_of_get? hd
    obtain ⟨hdrawn, hoffers⟩ := hequips d₀ hd₀
    rw [← hentity] at hf
    rw [← hmachine] at ht
    rw [← hoffers.get?_withDeltas hdrawn d₀.entity.names_nodup hf ht b]
    cases b <;> rfl

/-- Where no cycle can be reached from any entity, there is none. -/
theorem acyclic_of_acc
    (h : ∀ name d, Record.get? r.descriptors name = some d →
      Acc (fun target e => r.Embeds e target) name) :
    r.Acyclic := by
  intro e hcycle
  obtain ⟨target, ⟨d, hd, -⟩, -⟩ := Relation.TransGen.head'_iff.1 hcycle
  exact not_transGen_of_acc (h e d hd) hcycle

/-! ## Finalizing -/

/-- Giving shapes to the entities of a registry that has none. -/
theorem run_synthesize (h₀ : r.AllLead) (hshaped : r.Shaped)
    (hbare : ∀ name d, Record.get? r.descriptors name = some d → d.shapes = none) :
    (∃ r', synthesize.run.run r = (.ok (), r') ∧ Alike r r' ∧ r'.Finished ∧ r.Acyclic) ∨
    ∃ e r', synthesize.run.run r = (.error e, r') ∧ e.IsConfiguration ∧ ¬ r.Acyclic := by
  have hnone : ∀ name d, Record.get? r.descriptors name = some d → ¬ d.shapes.isSome = true := by
    intro name d hd
    rw [hbare name d hd]
    exact Bool.false_ne_true
  have hempty : r.unshaped = [] → ∀ name d, ¬ Record.get? r.descriptors name = some d := by
    intro hnil name d hd
    have hcovered := (r.covered_unshaped name d hd).resolve_left (hnone name d hd)
    rw [hnil] at hcovered
    cases hcovered
  unfold synthesize
  rw [Action.run_bind_ok (Action.run_get r)]
  dsimp only
  by_cases hnil : r.unshaped.isEmpty = true
  · rw [if_pos hnil]
    have hnobody := hempty (List.isEmpty_iff.1 hnil)
    refine .inl ⟨r, rfl, fun _ => rfl,
      finished_of_offered h₀ (fun name d hd => absurd hd (hnobody name d)) fun name d _ hd =>
      absurd hd (hnobody name d), acyclic_of_acc fun name d hd => absurd hd (hnobody name d)⟩
  rw [if_neg hnil]
  have hstart : Passing r r r.unshaped [] := ⟨fun _ => rfl, hshaped.named, r.covered_unshaped,
    fun name d hd hs => absurd hs (hnone name d hd), fun name d hd hs =>
    absurd hs (hnone name d hd)⟩
  have hnobody : ∀ e ∈ (⟨r.unshaped, [], []⟩ : Progress).done, Equips r e.1 e.2 :=
    fun _ he => absurd he List.not_mem_nil
  have hoffering : r.Offering := fun name d p hd hp => by
    rw [hbare name d hd] at hp
    cases hp
  have hkeeps := draftRules_offering.passes r.unshaped.length hnobody r ⟨⟨fun _ => rfl, hshaped⟩,
    hoffering⟩
  have hpasses :=
    hstart.passes (p := ⟨r.unshaped, [], []⟩) h₀ (fun h =>
      hnil (List.isEmpty_iff.2 h)) (Nat.le_refl _)
  rcases hpasses with ⟨q, r', hrun, hq⟩ | ⟨e, r', hrun, he, hcycle⟩
  · rw [hrun] at hkeeps
    have hdone := hkeeps.2 q rfl
    refine .inl ⟨r'.attachDrafts q.done, ?_, (draftRules_offering.attachDrafts hdone hkeeps.1).1.1,
      hq.finished h₀ hkeeps.1 hdone, acyclic_of_acc fun name d hd => ?_⟩
    · rw [Action.run_bind_ok hrun]
      rfl
    · have hsame := hq.alike name
      rw [hd, Option.map_some] at hsame
      obtain ⟨d', hd', -⟩ := Option.map_eq_some_iff.1 hsame
      exact hq.grounded name d' hd' ((hq.covered name d' hd').resolve_right List.not_mem_nil)
  · exact .inr ⟨e, r', Action.run_bind_error hrun, he, hcycle⟩

/-- A finished registry stays finished when it is called finalized. -/
theorem Finished.close (h : r.Finished) : ({ r with finalized := true } : Registry).Finished :=
  ⟨h.attached, h.offered, h.embedded, h.linked⟩

/-- **Finalizing decides whether entities embed each other in a cycle.** Let no entity have shapes
yet, and let every relation lead to a registered entity that has a name. If there is no cycle,
finalizing succeeds and leaves a finished registry of the same entities; if there is one, it fails
with a configuration error. It never fails for the number of passes: with any larger limit they end
in the same way. -/
theorem finalize_decides (hr : r.Built) (hlinked : r.Linked)
    (hbare : ∀ name d, Record.get? r.descriptors name = some d → d.shapes = none) :
    (r.Acyclic → ∃ r', finalize.run.run r = (.ok (), r') ∧ r'.finalized = true ∧ Alike r r' ∧
      r'.Finished) ∧
    (¬ r.Acyclic → ∃ e r', finalize.run.run r = (.error e, r') ∧ e.IsConfiguration) ∧
    ∀ limit, r.unshaped ≠ [] → r.unshaped.length ≤ limit →
      (passes limit ⟨r.unshaped, [], []⟩).run.run r =
        (passes r.unshaped.length ⟨r.unshaped, [], []⟩).run.run r := by
  have hleads : ∀ e ∈ r.descriptors, ∀ f ∈ e.2.entity.fields, r.Leads f := fun e he f hf =>
    hlinked.leads hr.classified he hf
  have h₀ : r.AllLead := fun name d hd => hleads (name, d) (Record.mem_of_get?_eq_some hd)
  refine ⟨?_, ?_, fun limit hsome hlimit =>
    passes_eq_of_le (p := ⟨r.unshaped, [], []⟩) hsome hlimit r⟩
  all_goals
    intro hcycles
    unfold finalize
    rw [Action.run_bind_ok (Action.run_get r)]
    by_cases hfinal : r.finalized = true
  · have hnobody : ∀ name d, ¬ Record.get? r.descriptors name = some d := fun name d hd => by
      have hshaped := (hr.complete hfinal).shaped name d hd
      rw [hbare name d hd] at hshaped
      cases hshaped
    rw [if_pos hfinal]
    exact ⟨r, rfl, hfinal, fun _ =>
      rfl, finished_of_offered h₀ (fun name d hd => absurd hd (hnobody name d)) fun name d _ hd =>
        absurd hd (hnobody name d)⟩
  · rw [if_neg hfinal, checkTargets_of_leads hleads, Action.run_bind_ok (Action.run_lift _ _)]
    rcases run_synthesize h₀ hr.shaped hbare with ⟨r', hrun, halike, hfinished, -⟩ |
      ⟨e, r', -, -, hcycle⟩
    · rw [Action.run_bind_ok hrun]
      exact ⟨_, rfl, rfl, halike, hfinished.close⟩
    · exact absurd hcycles hcycle
  · refine absurd (acyclic_of_acc fun name d hd => ?_) hcycles
    have hshaped := (hr.complete hfinal).shaped name d hd
    rw [hbare name d hd] at hshaped
    cases hshaped
  · rw [if_neg hfinal, checkTargets_of_leads hleads, Action.run_bind_ok (Action.run_lift _ _)]
    rcases run_synthesize h₀ hr.shaped hbare with ⟨r', -, -, -, hacyclic⟩ | ⟨e, r', hrun, he, -⟩
    · exact absurd hacyclic hcycles
    · exact ⟨e, r', Action.run_bind_error hrun, he⟩

end Registry

/-! ## Nested entities -/

/-- An entity that embeds another one, or nothing. -/
def nesting (name : String) (target : Option String) : Entity where
  name := name
  fields := target.toList.map fun t =>
    ⟨"inside", .entity t, false, true, false, false, some ⟨true, "", .null⟩, .null⟩
  description := .null
  names_nodup := by cases target <;> simp

/-- The registry of two such entities, which are only embedded. -/
def nestedPair (outer : String) (held : Option String) (inner : String)
    (heldInside : Option String) : Registry :=
  ⟨[(outer, ⟨nesting outer held, outer, none, none, none, false, none, []⟩),
    (inner, ⟨nesting inner heldInside, inner, none, none, none, false, none, []⟩)], [], false⟩

section Nested

variable {outer inner : String} {held heldInside : Option String}

/-- What is held has a kind. -/
theorem kind_of_mem_nesting {name : String} {target : Option String} {f : FieldDef}
    (hf : f ∈ (nesting name target).fields) :
    f.kind = .ok .embeddedObject ∧ f.target = target ∧ f.TakesArguments false := by
  obtain ⟨t, ht, rfl⟩ := List.mem_map.1 hf
  rw [Option.mem_toList.1 ht]
  exact ⟨rfl, rfl, rfl, fun h => Bool.false_ne_true h.1⟩

theorem nestedPair_built (hne : outer ≠ inner) :
    (nestedPair outer held inner heldInside).Built := by
  have hkinds : ∀ (name : String) (target : Option String), ∀ f ∈ (nesting name target).fields,
      ∃ kind, f.kind = .ok kind := fun _ _ _ hf => ⟨_, (kind_of_mem_nesting hf).1⟩
  refine .embed (.embed .empty (Registry.add_of_kinds rfl (hkinds outer held)))
    ((Registry.add_of_kinds ?_ (hkinds inner heldInside)).trans ?_)
  · simp [Registry.has, Record.has, Record.put, Record.get?, Descriptor.name, Registry.empty, hne]
  · simp [Record.put, Descriptor.name, nesting, Registry.empty, nestedPair, hne]

theorem nestedPair_bare (name : String) (d : Descriptor)
    (hd : Record.get? (nestedPair outer held inner heldInside).descriptors name = some d) :
    d.shapes = none := by
  have hmem := Record.mem_of_get?_eq_some hd
  simp only [nestedPair, List.mem_cons, List.not_mem_nil, or_false, Prod.mk.injEq] at hmem
  rcases hmem with ⟨-, rfl⟩ | ⟨-, rfl⟩ <;> rfl

/-- The pair embeds what it holds, and nothing else. -/
theorem nestedPair_embeds (hne : outer ≠ inner) {e target : String} :
    (nestedPair outer held inner heldInside).Embeds e target ↔
      e = outer ∧ held = some target ∨ e = inner ∧ heldInside = some target := by
  have hholds : ∀ {name : String} {t : Option String},
    (∃ f ∈ (nesting name t).fields, f.TakesArguments false ∧
      f.IsEmbedding ∧ f.target = some target) ↔ t = some target := by
    intro name t
    constructor
    · rintro ⟨f, hf, -, -, htarget⟩
      exact (kind_of_mem_nesting hf).2.1.symm.trans htarget
    · rintro rfl
      exact ⟨_, List.mem_singleton_self _, ⟨rfl, fun h => Bool.false_ne_true h.1⟩, .inl rfl, rfl⟩
  constructor
  · rintro ⟨d, hd, hfield⟩
    have hmem := Record.mem_of_get?_eq_some hd
    simp only [nestedPair, List.mem_cons, List.not_mem_nil, or_false, Prod.mk.injEq] at hmem
    rcases hmem with ⟨rfl, rfl⟩ | ⟨rfl, rfl⟩
    · exact .inl ⟨rfl, hholds.1 hfield⟩
    · exact .inr ⟨rfl, hholds.1 hfield⟩
  · rintro (⟨rfl, ht⟩ | ⟨rfl, ht⟩)
    · exact ⟨_, if_pos rfl, hholds.2 ht⟩
    · exact ⟨_, (if_neg hne).trans (if_pos rfl), hholds.2 ht⟩

/-- Nothing leads back to an entity that holds one which holds nothing. -/
theorem nestedPair_acyclic (hne : outer ≠ inner) :
    (nestedPair outer (some inner) inner none).Acyclic := by
  refine Registry.acyclic_of_acc fun name d _ => ?_
  have hinner :
      Acc (fun target e => (nestedPair outer (some inner) inner none).Embeds e target) inner :=
    Acc.intro _ fun target h => by
      rcases (nestedPair_embeds hne).1 h with ⟨hname, -⟩ | ⟨-, hnone⟩
      · exact absurd hname.symm hne
      · cases hnone
  refine Acc.intro _ fun target h => ?_
  rcases (nestedPair_embeds hne).1 h with ⟨-, htarget⟩ | ⟨-, hnone⟩
  · cases htarget
    exact hinner
  · cases hnone

/-- The targets of the pair. -/
theorem nestedPair_target {e : String × Descriptor}
    (he : e ∈ (nestedPair outer held inner heldInside).descriptors) {f : FieldDef}
    (hf : f ∈ e.2.entity.fields) :
    f.target = held ∨ f.target = heldInside := by
  simp only [nestedPair, List.mem_cons, List.not_mem_nil, or_false] at he
  rcases he with rfl | rfl
  · exact .inl (kind_of_mem_nesting hf).2.1
  · exact .inr (kind_of_mem_nesting hf).2.1

end Nested

/-- A case holds a lens, and can be finalized; a hen and an egg that hold each other cannot. -/
theorem finalize_nestedPair :
    (∃ r', Registry.finalize.run.run (nestedPair "Case" (some "Lens") "Lens" none) = (.ok (), r') ∧
      r'.Finished) ∧
    ∃ e r', Registry.finalize.run.run (nestedPair "Hen" (some "Egg") "Egg" (some "Hen")) =
      (.error e, r') ∧
      e.IsConfiguration := by
  have hcase : "Case" ≠ "Lens" := by decide
  have hhen : "Hen" ≠ "Egg" := by decide
  constructor
  · have hlinked : (nestedPair "Case" (some "Lens") "Lens" none).Linked := by
      intro e he f hf kind hk hobject
      simp only [nestedPair, List.mem_cons, List.not_mem_nil, or_false] at he
      rcases he with rfl | rfl
      · exact ⟨"Lens", (kind_of_mem_nesting hf).2.1, by decide, rfl⟩
      · cases hf
    obtain ⟨r', hrun, -, -, hfinished⟩ :=
      (Registry.finalize_decides (nestedPair_built hcase) hlinked nestedPair_bare).1
        (nestedPair_acyclic hcase)
    exact ⟨r', hrun, hfinished⟩
  · have hlinked : (nestedPair "Hen" (some "Egg") "Egg" (some "Hen")).Linked := by
      intro e he f hf kind hk hobject
      rcases nestedPair_target he hf with htarget | htarget
      · exact ⟨"Egg", htarget, by decide, rfl⟩
      · exact ⟨"Hen", htarget, by decide, rfl⟩
    refine (Registry.finalize_decides (nestedPair_built hhen) hlinked nestedPair_bare).2.1
      fun hacyclic => ?_
    have hegg : (nestedPair "Hen" (some "Egg") "Egg" (some "Hen")).Embeds "Hen" "Egg" :=
      (nestedPair_embeds hhen).2 (.inl ⟨rfl, rfl⟩)
    exact hacyclic "Hen" (.tail (.single hegg) ((nestedPair_embeds hhen).2 (.inr ⟨rfl, rfl⟩)))

/-- **A target without a name**: every relation of the pair leads to a registered entity and there
is no cycle, but finalizing fails. An empty name is taken for a missing one. -/
theorem nameless_target_refused : ∃ r : Registry, r.Built ∧
    (∀ name d, Record.get? r.descriptors name = some d → d.shapes = none) ∧
    (∀ e ∈ r.descriptors, ∀ f ∈ e.2.entity.fields, ∀ kind, f.kind = .ok kind →
      kind.isObject = true →
      ∃ target, f.target = some target ∧ r.has target = true) ∧
    r.Acyclic ∧ ∃ e, (Registry.finalize.run.run r).1 = .error e := by
  have hne : "Case" ≠ "" := by decide
  refine ⟨nestedPair "Case" (some "") "" none, nestedPair_built hne, nestedPair_bare,
    fun e he f hf kind hk hobject => ?_, nestedPair_acyclic hne, ⟨_, rfl⟩⟩
  simp only [nestedPair, List.mem_cons, List.not_mem_nil, or_false] at he
  rcases he with rfl | rfl
  · exact ⟨"", (kind_of_mem_nesting hf).2.1, rfl⟩
  · cases hf

end EntityGraph

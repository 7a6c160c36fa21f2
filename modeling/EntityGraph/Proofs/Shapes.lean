import EntityGraph.Proofs.Action
import EntityGraph.Registry.Finalize
import EntityGraph.Shape.Check
import Mathlib.Data.List.Nodup

/-!
# What shapes accept

Registering entities and finalizing builds the shapes of arguments field by field. However often
finalizing is tried and however it ends, a shape offers arguments only for the fields of its entity
that take arguments, and asks for what the kind of the field calls for (`Registry.Shaped`).
Arguments that a shape accepts are then well-formed all the way down: the children inside the
changes are accepted by the shapes of their own entity (`Registry.Accepts.children`), and no state
is among the arguments of an entity with a state machine (`Registry.Accepts.no_state`).
-/

namespace EntityGraph

/-! ## Offers -/

/-- Does a field take arguments? Read-only fields do not, and neither does the state field of a
state machine. -/
def FieldDef.TakesArguments (hasMachine : Bool) (f : FieldDef) : Prop :=
  f.readOnly = false ∧ ¬ (hasMachine = true ∧ f.name = stateField)

/-- The shapes of an entity are those that its additions and updates go by. -/
def ShapeRef.IsFor (ref : ShapeRef) (name : String) : Prop := ref = .add name ∨ ref = .update name

/-- **What a field asks for**, by its kind. -/
def FieldDef.Asks (owner : String) (f : FieldDef) (i : InputField) : Prop :=
  match f.kind with
  | .ok .scalar => i.kind = .scalar
  | .ok .enumeration => i.kind = .enumeration ∧ ∃ e, i.type = .enumeration e
  | .ok .scalarList => i.kind = .scalarList
  | .ok .referencedObject => i.kind = .id ∧ i.type = .shape .reference
  | .ok .embeddedObject =>
    i.kind = .object ∧ ∃ target ref, f.target = some target ∧ ref.IsFor target ∧ i.type = .shape ref
  | .ok .embeddedList =>
    i.kind = .objectList ∧ ∃ target ref, f.target = some target ∧ ref.IsFor target ∧
      i.type = .shape ref
  | .ok .referencedList => i.kind = .delta ∧ ∃ u, i.type = .shape (.delta u owner f.name)
  | .error _ => False

/-- **An offered argument** belongs to a field that takes arguments, and is what the field asks
for. -/
def Offered (owner : String) (hasMachine : Bool) (fields : List FieldDef)
    (e : String × InputField) :
    Prop :=
  ∃ f ∈ fields, f.name = e.1 ∧ f.TakesArguments hasMachine ∧ f.Asks owner e.2

theorem FieldDef.kind_of_isReferencedList {f : FieldDef} (h : f.isReferencedList = true) :
    f.kind = .ok .referencedList := by
  rw [isReferencedList, kind?, decide_eq_true_iff] at h
  rcases hk : f.kind with e | kind
  · rw [hk] at h
    cases h
  · rw [hk] at h
    cases h
    rfl

/-- Fields of a single member of an enumeration have it for their type. -/
theorem FieldDef.type_of_enumeration {f : FieldDef} (h : f.kind = .ok .enumeration) :
    ∃ e, f.type = .enumeration e := by
  unfold FieldDef.kind at h
  split at h
  · rename_i e he
    exact ⟨e, he⟩
  · split at h <;> cases h
  · split at h
    · cases h
    · repeat' split at h
      all_goals cases h

/-- The entity that a relation leads to is registered under the name that the relation gives. -/
theorem Registry.require_eq_ok {r : Registry} {target : Option String} {referrer : String}
    {d : Descriptor} (h : r.require target referrer = .ok d) :
    ∃ name, target = some name ∧ Record.get? r.descriptors name = some d := by
  rcases target with _ | name
  · cases h
  · refine ⟨name, rfl, ?_⟩
    unfold Registry.require at h
    dsimp only at h
    split at h
    · split at h
      · cases h
      · cases h
        assumption
    · cases h

namespace ShapeDraft

variable {owner : String} {hasMachine : Bool} {fields : List FieldDef} {d : ShapeDraft}

/-- A draft that offers arguments for fields of its entity, now or later. -/
structure Drawn (owner : String) (hasMachine : Bool) (fields : List FieldDef) (d : ShapeDraft) :
    Prop where
  offered : ∀ e, e ∈ d.add.fields ∨ e ∈ d.update.fields → Offered owner hasMachine fields e
  deferred : ∀ f ∈ d.deferred, f ∈ fields ∧ f.TakesArguments hasMachine ∧
    f.kind = .ok .referencedList

theorem drawn_start (name : String) : (start name).Drawn owner hasMachine fields where
  offered := fun _ he => (he.elim List.not_mem_nil List.not_mem_nil).elim
  deferred := fun _ hf => absurd hf List.not_mem_nil

theorem mem_extend {s : InputShape} {o : Option InputField} {e : String × InputField}
    (h : e ∈ (extend s o).fields) : e ∈ s.fields ∨ ∃ f, o = some f ∧ e = (f.name, f) := by
  cases o with
  | none => exact .inl h
  | some f => exact (Record.mem_put h).imp_right fun he => ⟨f, rfl, he⟩

theorem Drawn.put (h : d.Drawn owner hasMachine fields) {add update : Option InputField}
    (ho : ∀ f, add = some f ∨ update = some f → Offered owner hasMachine fields (f.name, f)) :
    (d.put add update).Drawn owner hasMachine fields where
  offered := by
    rintro e (he | he)
    · rcases mem_extend he with he | ⟨f, hf, rfl⟩
      · exact h.offered e (.inl he)
      · exact ho f (.inl hf)
    · rcases mem_extend he with he | ⟨f, hf, rfl⟩
      · exact h.offered e (.inr he)
      · exact ho f (.inr hf)
  deferred := h.deferred

/-- The argument that a field asks for. -/
theorem Drawn.put_asked (h : d.Drawn owner hasMachine fields) {f : FieldDef} (hf : f ∈ fields)
    (ht : f.TakesArguments hasMachine) {add update : Option InputField}
    (hasked : ∀ g, add = some g ∨ update = some g → g.name = f.name ∧ f.Asks owner g) :
    (d.put add update).Drawn owner hasMachine fields :=
  h.put fun g hg => ⟨f, hf, (hasked g hg).1.symm, ht, (hasked g hg).2⟩

theorem Drawn.leaf (h : d.Drawn owner hasMachine fields) {f : FieldDef} (hf : f ∈ fields)
    (ht : f.TakesArguments hasMachine) {input : InputKind}
    (hasks : ∀ nullable, f.Asks owner ⟨f.name, input, leafType f, nullable, f.description⟩) :
    (d.leaf f input).Drawn owner hasMachine fields := by
  refine h.put_asked hf ht ?_
  rintro g (hg | hg)
  · split at hg
    · cases hg
    · cases hg
      exact ⟨rfl, hasks _⟩
  · cases hg
    exact ⟨rfl, hasks _⟩

/-- The entity that a field embeds is the one that it names. -/
theorem target_of_embeddedTarget {r : Registry}
    (hr : ∀ name d, Record.get? r.descriptors name = some d → d.name = name) {name target : String}
    {f : FieldDef} (h : embeddedTarget r name f = .ok target) : f.target = some target := by
  unfold embeddedTarget at h
  by_cases hown : f.target = some name
  · rw [if_pos hown] at h
    cases h
  · rw [if_neg hown] at h
    rcases hd : r.require f.target (name ++ "." ++ f.name) with e | d
    · rw [hd] at h
      cases h
    · rw [hd] at h
      obtain ⟨n, hn, hget⟩ := Registry.require_eq_ok hd
      dsimp only at h
      split at h
      · cases h
      · cases h
        rw [hn, hr n d hget]

/-- Adding the arguments of a field, one kind of field at a time. Related documents are put off
until the shapes of all entities are known. -/
theorem Drawn.addField (h : d.Drawn owner hasMachine fields) {r : Registry}
    (hr : ∀ name d, Record.get? r.descriptors name = some d → d.name = name) {name : String}
    {f : FieldDef} (hf : f ∈ fields) (ht : f.TakesArguments hasMachine) {d' : ShapeDraft}
    (hd : ShapeDraft.addField r name d f = .ok d') : d'.Drawn owner hasMachine fields := by
  unfold ShapeDraft.addField at hd
  rcases hk : f.kind with e | kind
  · rw [hk] at hd
    cases hd
  rw [hk] at hd
  cases kind with
  | scalar =>
    cases hd
    refine h.leaf hf ht fun _ => ?_
    rw [FieldDef.Asks, hk]
  | enumeration =>
    cases hd
    obtain ⟨e, he⟩ := FieldDef.type_of_enumeration hk
    refine h.leaf hf ht fun _ => ?_
    rw [FieldDef.Asks, hk, leafType, he]
    exact ⟨rfl, e, rfl⟩
  | scalarList =>
    cases hd
    refine h.put_asked hf ht ?_
    rintro g (hg | hg) <;> cases hg <;> exact ⟨rfl, by rw [FieldDef.Asks, hk]⟩
  | referencedObject =>
    cases hd
    refine h.put_asked hf ht ?_
    rintro g (hg | hg) <;> cases hg <;> exact ⟨rfl, by rw [FieldDef.Asks, hk]; exact ⟨rfl, rfl⟩⟩
  | embeddedObject =>
    dsimp only at hd
    rcases htarget : embeddedTarget r name f with stop | target
    · rw [htarget] at hd
      cases hd
    · rw [htarget] at hd
      cases hd
      have hname := target_of_embeddedTarget hr htarget
      refine h.put_asked hf ht ?_
      rintro g (hg | hg) <;> cases hg <;> refine ⟨rfl, ?_⟩ <;> rw [FieldDef.Asks, hk]
      · exact ⟨rfl, target, _, hname, .inl rfl, rfl⟩
      · exact ⟨rfl, target, _, hname, .inr rfl, rfl⟩
  | embeddedList =>
    dsimp only at hd
    rcases htarget : embeddedTarget r name f with stop | target
    · rw [htarget] at hd
      cases hd
    · rw [htarget] at hd
      cases hd
      have hname := target_of_embeddedTarget hr htarget
      refine h.put_asked hf ht ?_
      rintro g (hg | hg) <;> cases hg <;> refine ⟨rfl, ?_⟩ <;> rw [FieldDef.Asks, hk]
      · exact ⟨rfl, target, _, hname, .inl rfl, rfl⟩
      · exact ⟨rfl, target, _, hname, .inr rfl, rfl⟩
  | referencedList =>
    dsimp only at hd
    split at hd
    · cases hd
    · cases hd
      refine ⟨h.offered, fun g hg => ?_⟩
      rcases List.mem_append.1 hg with hg | hg
      · exact h.deferred g hg
      · obtain rfl := List.mem_singleton.1 hg
        exact ⟨hf, ht, hk⟩

/-- **Adding the next field**: one that takes no arguments is left aside, though the state field of
a machine is marked. What stops at the arguments of a field ends there, and otherwise they are
added. -/
theorem addFields_cases (r : Registry) (owner : String) (hasMachine : Bool) (d : ShapeDraft)
    (f : FieldDef) (rest : List FieldDef) :
    (¬ f.TakesArguments hasMachine ∧
      ∃ marked, (marked = d.machineOwned ∨ hasMachine = true ∧ marked = [stateField]) ∧
        addFields r owner hasMachine d (f :: rest) =
          addFields r owner hasMachine { d with machineOwned := marked } rest) ∨
    f.TakesArguments hasMachine ∧
      ((∃ stop, ShapeDraft.addField r owner d f = .error stop ∧
        addFields r owner hasMachine d (f :: rest) = (d, some stop)) ∨
      ∃ d', ShapeDraft.addField r owner d f = .ok d' ∧
        addFields r owner hasMachine d (f :: rest) = addFields r owner hasMachine d' rest) := by
  rw [addFields]
  by_cases hreadOnly : f.readOnly = true
  · rw [if_pos hreadOnly]
    exact .inl ⟨fun ht => Bool.false_ne_true (ht.1.symm.trans hreadOnly), _, .inl rfl, rfl⟩
  rw [if_neg hreadOnly]
  by_cases howned : (hasMachine && f.name == stateField) = true
  · rw [if_pos howned]
    rw [Bool.and_eq_true, beq_iff_eq] at howned
    exact .inl ⟨fun ht => ht.2 howned, _, .inr ⟨howned.1, by rw [howned.2]⟩, rfl⟩
  rw [if_neg howned]
  refine .inr ⟨⟨Bool.eq_false_iff.2 hreadOnly, fun hm => howned ?_⟩, ?_⟩
  · rw [hm.1, hm.2]
    rfl
  · rcases hadd : ShapeDraft.addField r owner d f with stop | d'
    · exact .inl ⟨stop, rfl, rfl⟩
    · exact .inr ⟨d', rfl, rfl⟩

/-- Adding fields in order, as far as that goes. -/
theorem Drawn.addFields (h : d.Drawn owner hasMachine fields) {r : Registry}
    (hr : ∀ name d, Record.get? r.descriptors name = some d → d.name = name) (name : String)
    {rest : List FieldDef} (hrest : ∀ f ∈ rest, f ∈ fields) :
    (ShapeDraft.addFields r name hasMachine d rest).1.Drawn owner hasMachine fields := by
  induction rest generalizing d with
  | nil => exact h
  | cons f rest ih =>
    have htail : ∀ g ∈ rest, g ∈ fields := fun g hg => hrest g (List.mem_cons_of_mem _ hg)
    rcases addFields_cases r name hasMachine d f rest with
      ⟨-, marked, -, heq⟩ | ⟨ht, ⟨stop, -, heq⟩ | ⟨d', hadd, heq⟩⟩ <;> rw [heq]
    · exact ih ⟨h.offered, h.deferred⟩ htail
    · exact h
    · exact ih (h.addField hr (hrest f (List.mem_cons_self ..)) ht hadd) htail

/-- Attaching the lists of related documents. -/
theorem Drawn.withDeltas (h : d.Drawn owner hasMachine fields) :
    (d.withDeltas owner).Drawn owner hasMachine fields := by
  have hall : ∀ (deferred : List FieldDef),
      (∀ f ∈ deferred, f ∈ fields ∧ f.TakesArguments hasMachine ∧ f.kind = .ok .referencedList) →
      ∀ acc : ShapeDraft, acc.Drawn owner hasMachine fields →
        (deferred.foldl (fun acc f =>
          acc.put (some ⟨f.name, .delta, .shape (.delta false owner f.name), true, f.description⟩)
            (some ⟨f.name, .delta, .shape (.delta true owner f.name), true, f.description⟩))
          acc).Drawn owner hasMachine fields := by
    intro deferred hdeferred
    induction deferred with
    | nil => exact fun _ hacc => hacc
    | cons f rest ih =>
      intro acc hacc
      obtain ⟨hf, ht, hk⟩ := hdeferred f (List.mem_cons_self ..)
      refine ih (fun g hg => hdeferred g (List.mem_cons_of_mem _ hg)) _ (hacc.put_asked hf ht ?_)
      rintro g (hg | hg) <;> cases hg <;> refine ⟨rfl, ?_⟩ <;> rw [FieldDef.Asks, hk] <;>
        exact ⟨rfl, _, rfl⟩
  exact hall d.deferred h.deferred d h

end ShapeDraft

/-! ## Registries -/

/-- The shapes of an entity offer arguments only as they should. -/
def Descriptor.Fits (d : Descriptor) (p : ShapePair) : Prop :=
  ∀ e, e ∈ p.add.fields ∨ e ∈ p.update.fields →
    Offered d.name d.machine.isSome d.entity.fields e

namespace Registry

/-- **Well-shaped registries**: entities are found under their names, and their shapes fit them. -/
structure Shaped (r : Registry) : Prop where
  named : ∀ name d, Record.get? r.descriptors name = some d → d.name = name
  fits : ∀ name d, Record.get? r.descriptors name = some d → ∀ p, d.shapes = some p → d.Fits p

/-- Two registries of the same entities, with or without their shapes. -/
def Alike (r r' : Registry) : Prop :=
  ∀ name, (Record.get? r'.descriptors name).map (fun d => (d.entity, d.machine.isSome)) =
    (Record.get? r.descriptors name).map fun d => (d.entity, d.machine.isSome)

theorem get?_change (r : Registry) (name : String) (f : Descriptor → Descriptor) (other : String) :
    Record.get? (r.change name f).descriptors other =
      if name = other then (Record.get? r.descriptors other).map f
      else Record.get? r.descriptors other := by
  unfold change
  split
  · rename_i d hd
    rw [Record.get?_put]
    by_cases ho : name = other
    · rw [if_pos ho, if_pos ho, ← ho, hd]
      rfl
    · rw [if_neg ho, if_neg ho]
  · rename_i hd
    by_cases ho : name = other
    · rw [if_pos ho, ← ho, hd]
      rfl
    · rw [if_neg ho]

/-- Changing what the shapes of an entity are, to shapes that fit it. -/
theorem Shaped.change {r r₀ : Registry} (h : r.Shaped) (ha : Alike r₀ r) {name : String}
    {f : Descriptor → Descriptor}
    (hf : ∀ d, Record.get? r.descriptors name = some d → (f d).entity = d.entity ∧
      (f d).machine = d.machine ∧ ∀ p, (f d).shapes = some p → d.shapes = some p ∨ d.Fits p) :
    Alike r₀ (r.change name f) ∧ (r.change name f).Shaped := by
  have hget : ∀ other d', Record.get? (r.change name f).descriptors other = some d' →
      ∃ d, Record.get? r.descriptors other = some d ∧ d'.entity = d.entity ∧
        d'.machine = d.machine ∧ ∀ p, d'.shapes = some p → d.shapes = some p ∨ d.Fits p := by
    intro other d' hd'
    rw [get?_change] at hd'
    split at hd'
    · rename_i ho
      obtain ⟨d, hd, rfl⟩ := Option.map_eq_some_iff.1 hd'
      exact ⟨d, hd, hf d (ho ▸ hd)⟩
    · exact ⟨d', hd', rfl, rfl, fun p hp => .inl hp⟩
  refine ⟨fun other => ?_, ⟨fun other d' hd' => ?_, fun other d' hd' p hp => ?_⟩⟩
  · rw [← ha other, get?_change]
    split
    · rename_i ho
      rcases hd : Record.get? r.descriptors other with _ | d
      · rfl
      · obtain ⟨hentity, hmachine, -⟩ := hf d (ho ▸ hd)
        simp [hentity, hmachine]
    · rfl
  · obtain ⟨d, hd, hentity, -⟩ := hget other d' hd'
    rw [Descriptor.name, hentity]
    exact h.named other d hd
  · obtain ⟨d, hd, hentity, hmachine, hshapes⟩ := hget other d' hd'
    have hfit : d.Fits p := (hshapes p hp).elim (h.fits other d hd p) id
    unfold Descriptor.Fits Descriptor.name
    rw [hentity, hmachine]
    exact hfit

/-! ## Finalizing -/

/-- **What a step of the passes does**: it takes over the marks of the draft, and gives the entity
its shapes, lets it wait, or fails. -/
theorem run_tryDraft (p : Progress) (name : String) (r : Registry) :
    (Record.get? r.descriptors name = none ∧ (tryDraft p name).run.run r = (.ok p, r)) ∨
    ∃ d draft owned, Record.get? r.descriptors name = some d ∧
      owned = (if draft.machineOwned.isEmpty then d.machineOwned else draft.machineOwned) ∧
      ((ShapeDraft.addFields r name d.machine.isSome (ShapeDraft.start name) d.entity.fields =
        (draft, none) ∧
          (tryDraft p name).run.run r = (.ok { p with done := p.done ++ [(name, draft)] },
            (r.change name ({ · with machineOwned := owned })).change name
              ({ · with shapes := some ⟨draft.add, draft.update⟩ }))) ∨
        (∃ target, ShapeDraft.addFields r name d.machine.isSome (ShapeDraft.start name)
          d.entity.fields =
            (draft, some (.waitsFor target)) ∧
          (tryDraft p name).run.run r =
            (.ok
              { p with waiting := p.waiting ++ [name], blockers := p.blockers ++ [(name, target)] },
                r.change name ({ · with machineOwned := owned }))) ∨
        ∃ e, ShapeDraft.addFields r name d.machine.isSome (ShapeDraft.start name) d.entity.fields =
            (draft, some (.fault e)) ∧
          (tryDraft p name).run.run r = (.error e,
            r.change name ({ · with machineOwned := owned }))) := by
  unfold tryDraft
  rw [Action.run_bind_ok (Action.run_get r)]
  dsimp only
  rcases hd : Record.get? r.descriptors name with _ | d
  · exact .inl ⟨rfl, rfl⟩
  · dsimp only
    rcases hadd :
      ShapeDraft.addFields r name d.machine.isSome (ShapeDraft.start name) d.entity.fields with
      ⟨draft, _ | target | e⟩
    · exact .inr ⟨d, draft, _, rfl, rfl, .inl ⟨hadd, rfl⟩⟩
    · exact .inr ⟨d, draft, _, rfl, rfl, .inr (.inl ⟨target, hadd, rfl⟩)⟩
    · exact .inr ⟨d, draft, _, rfl, rfl, .inr (.inr ⟨e, hadd, rfl⟩)⟩

/-- **Invariants of finalizing** that are about shapes: `D` is known of drafts, and `I` survives the
marks of an entity, the shapes of its draft, and these shapes with the lists of related
documents. -/
structure DraftRules (I : Registry → Prop) (D : String → ShapeDraft → Prop) : Prop where
  mark : ∀ r name owned, I r → I (r.change name ({ · with machineOwned := owned }))
  draft : ∀ r name d draft, I r → Record.get? r.descriptors name = some d →
    ShapeDraft.addFields r name d.machine.isSome (ShapeDraft.start name) d.entity.fields =
    (draft, none) → D name draft
  shape : ∀ r name draft, I r → D name draft →
    I (r.change name ({ · with shapes := some ⟨draft.add, draft.update⟩ }))
  close : ∀ r name draft, I r → D name draft →
    I
    (r.change name
    ({ · with
      shapes := some ⟨(draft.withDeltas name).add.close, (draft.withDeltas name).update.close⟩ }))

namespace DraftRules

variable {I : Registry → Prop} {D : String → ShapeDraft → Prop}

theorem tryDraft (h : DraftRules I D) {p : Progress} (hp : ∀ e ∈ p.done, D e.1 e.2)
    (name : String) :
    Keeps I (fun q => ∀ e ∈ q.done, D e.1 e.2) (Registry.tryDraft p name) := by
  intro r hr
  rcases run_tryDraft p name r with
    ⟨-, hrun⟩ | ⟨d, draft, owned, hd, -, ⟨hadd, hrun⟩ | ⟨target, -, hrun⟩ | ⟨e, -, hrun⟩⟩
  all_goals rw [hrun]
  · exact ⟨hr, fun q hq => Except.ok.inj hq ▸ hp⟩
  · have hD := h.draft r name d draft hr hd hadd
    refine ⟨h.shape _ _ _ (h.mark _ _ _ hr) hD, fun q hq e he => ?_⟩
    cases hq
    rcases List.mem_append.1 he with he | he
    · exact hp e he
    · obtain rfl := List.mem_singleton.1 he
      exact hD
  · exact ⟨h.mark _ _ _ hr, fun q hq => Except.ok.inj hq ▸ hp⟩
  · exact ⟨h.mark _ _ _ hr, nofun⟩

theorem passes (h : DraftRules I D) (fuel : Nat) {p : Progress} (hp : ∀ e ∈ p.done, D e.1 e.2) :
    Keeps I (fun q => ∀ e ∈ q.done, D e.1 e.2) (Registry.passes fuel p) := by
  induction fuel generalizing p with
  | zero => exact Keeps.throw _
  | succ fuel ih =>
    have hpass : Keeps I (fun q => ∀ e ∈ q.done, D e.1 e.2) (onePass p) :=
      Keeps.foldlM (fun _ name hq => h.tryDraft hq name) hp
    refine Keeps.bind hpass fun q hq => ?_
    split
    · exact Keeps.pure hq
    · split
      · exact Keeps.throw _
      · exact ih hq

theorem attachDrafts (h : DraftRules I D) {done : List (String × ShapeDraft)}
    (hdone : ∀ e ∈ done, D e.1 e.2) {r : Registry} (hr : I r) : I (r.attachDrafts done) := by
  unfold Registry.attachDrafts
  induction done generalizing r with
  | nil => exact hr
  | cons e rest ih =>
    exact ih (fun f hf => hdone f (List.mem_cons_of_mem _ hf))
      (h.close r e.1 e.2 hr (hdone e (List.mem_cons_self ..)))

theorem synthesize (h : DraftRules I D) : Keeps I (fun _ => True) Registry.synthesize := by
  refine Keeps.bind Keeps.get fun r _ => ?_
  dsimp only
  split
  · exact Keeps.pure trivial
  · exact Keeps.bind (h.passes _ fun _ he => absurd he List.not_mem_nil) fun p hp =>
      Keeps.modify fun t ht => h.attachDrafts hp ht

theorem finalize (h : DraftRules I D) (hdone : ∀ r, I r → I { r with finalized := true }) :
    Keeps I (fun _ => True) Registry.finalize := by
  refine Keeps.bind Keeps.get fun r _ => ?_
  split
  · exact Keeps.pure trivial
  · refine Keeps.bind (Keeps.lift (Q := fun _ => True) fun _ _ => trivial) fun _ _ => ?_
    exact Keeps.bind h.synthesize fun _ _ => Keeps.modify hdone

end DraftRules

section Finalizing

variable {r₀ : Registry}

/-- What finalizing keeps from the registry `r₀` on. -/
def KeptFrom (r₀ r : Registry) : Prop := Alike r₀ r ∧ r.Shaped

/-- A draft for the entity of a name. -/
def DraftFor (r₀ : Registry) (name : String) (draft : ShapeDraft) : Prop :=
  ∀ d, Record.get? r₀.descriptors name = some d →
    draft.Drawn name d.machine.isSome d.entity.fields

/-- An entity of the registry was one from the beginning. -/
theorem Alike.exists_of_get? {r : Registry} (h : Alike r₀ r) {name : String} {d : Descriptor}
    (hd : Record.get? r.descriptors name = some d) :
    ∃ d₀, Record.get? r₀.descriptors name = some d₀ ∧
      d₀.entity = d.entity ∧ d₀.machine.isSome = d.machine.isSome := by
  have heq := h name
  rw [hd, Option.map_some] at heq
  obtain ⟨d₀, hd₀, hpair⟩ := Option.map_eq_some_iff.1 heq.symm
  exact ⟨d₀, hd₀, congrArg Prod.fst hpair, congrArg Prod.snd hpair⟩

theorem DraftFor.fits {name : String} {draft : ShapeDraft} (h : DraftFor r₀ name draft)
    {r : Registry} (hr : KeptFrom r₀ r) {d : Descriptor}
    (hd : Record.get? r.descriptors name = some d) {p : ShapePair}
    (hadd : p.add.fields = draft.add.fields) (hupdate : p.update.fields = draft.update.fields) :
    d.Fits p := by
  obtain ⟨d₀, hd₀, hentity, hmachine⟩ := hr.1.exists_of_get? hd
  intro e he
  rw [hadd, hupdate] at he
  rw [hr.2.named name d hd, ← hentity, ← hmachine]
  exact (h d₀ hd₀).offered e he

theorem DraftFor.withDeltas {name : String} {draft : ShapeDraft} (h : DraftFor r₀ name draft) :
    DraftFor r₀ name (draft.withDeltas name) := fun d hd => (h d hd).withDeltas

/-- A draft is drawn for the entity as it is now, which is the one that it was at the beginning. -/
theorem draftFor_addFields {r : Registry} (hr : KeptFrom r₀ r) {name : String} {d : Descriptor}
    {draft : ShapeDraft} {stop : Option DraftStop} (hd : Record.get? r.descriptors name = some d)
    (h : ShapeDraft.addFields r name d.machine.isSome (ShapeDraft.start name) d.entity.fields =
      (draft, stop)) :
    DraftFor r₀ name draft := by
  intro d₀ hd₀
  obtain ⟨d₁, hd₁, hentity, hmachine⟩ := hr.1.exists_of_get? hd
  obtain rfl : d₁ = d₀ := Option.some.inj (hd₁.symm.trans hd₀)
  have hstart : (ShapeDraft.start name).Drawn name d.machine.isSome d.entity.fields :=
    ShapeDraft.drawn_start name
  have hdrawn := hstart.addFields hr.2.named name fun _ hf => hf
  rw [h] at hdrawn
  rw [hentity, hmachine]
  exact hdrawn

theorem draftRules_kept : DraftRules (KeptFrom r₀) (DraftFor r₀) where
  mark := fun r name owned hr => hr.2.change hr.1 fun _ _ => ⟨rfl, rfl, fun p hp => .inl hp⟩
  draft := fun r name d draft hr hd hadd => draftFor_addFields hr hd hadd
  shape := fun r name draft hr hdraft => hr.2.change hr.1 fun d hd =>
    ⟨rfl, rfl, fun p hp => .inr <| by
    obtain rfl := Option.some.inj hp
    exact hdraft.fits hr hd rfl rfl⟩
  close := fun r name draft hr hdraft => hr.2.change hr.1 fun d hd =>
    ⟨rfl, rfl, fun p hp => .inr <| by
    obtain rfl := Option.some.inj hp
    exact hdraft.withDeltas.fits hr hd rfl rfl⟩

/-- **Finalizing**, however it ends, leaves a well-shaped registry. -/
theorem keeps_finalize : Keeps (KeptFrom r₀) (fun _ => True) finalize :=
  draftRules_kept.finalize fun _ hr => ⟨hr.1, hr.2.named, hr.2.fits⟩

end Finalizing

/-! ## Building registries -/

/-- **Registries as they are built**: from the empty one by registering entities and custom
mutations and by finalizing, whatever comes of it. -/
inductive Built : Registry → Prop where
  | empty : Built .empty
  | connect {r r' : Registry} {entity : Entity} {c : Connection} (h : Built r)
      (hr : r.connect entity c = .ok r') : Built r'
  | embed {r r' : Registry} {entity : Entity} (h : Built r) (hr : r.addEmbedded entity = .ok r') :
      Built r'
  | mutation {r r' : Registry} {m : Mutation} (h : Built r) (hr : r.addMutation m = .ok r') :
    Built r'
  | finalize {r : Registry} (h : Built r) : Built (finalize.run.run r).2

/-- **Invariants of built registries**: what is kept when an entity without shapes or a custom
mutation is registered, and by finalizing. -/
theorem Built.keeps {I : Registry → Prop} (hempty : I .empty)
    (hadd : ∀ {r r' : Registry} {d : Descriptor}, I r → d.shapes = none →
      (d.hasEndpoints = true → d.single.isSome = true ∧ d.list.isSome = true) → r.add d = .ok r' →
        I r')
    (hmutation : ∀ {r : Registry} (m : Mutation), I r →
      I { r with mutations := Record.put r.mutations m.name m })
    (hfinalize : ∀ {r : Registry}, Built r → I r → I (Registry.finalize.run.run r).2) {r : Registry}
      (h : Built r) :
    I r := by
  induction h with
  | empty => exact hempty
  | connect _ hr ih =>
    unfold Registry.connect at hr
    dsimp only at hr
    split at hr
    · cases hr
    · split at hr
      · exact hadd ih rfl (fun _ => ⟨rfl, rfl⟩) hr
      · split at hr
        · exact hadd ih rfl (fun _ => ⟨rfl, rfl⟩) hr
        · cases hr
  | embed _ hr ih => exact hadd ih rfl (fun h => absurd h Bool.false_ne_true) hr
  | mutation _ hr ih =>
    unfold Registry.addMutation at hr
    split at hr
    · cases hr
    · cases hr
      exact hmutation _ ih
  | finalize hbuilt ih => exact hfinalize hbuilt ih

theorem classify_ok {fields : List FieldDef} (h : classify fields = .ok ()) {f : FieldDef}
    (hf : f ∈ fields) :
    ∃ kind, f.kind = .ok kind := by
  induction fields with
  | nil => cases hf
  | cons g rest ih =>
    rw [classify] at h
    obtain ⟨kind, hk, h⟩ := bind_eq_ok h
    rcases List.mem_cons.1 hf with rfl | hf
    · exact ⟨kind, hk⟩
    · exact ih h hf

/-- Adding a descriptor: its name is new, and its fields have kinds. -/
theorem add_eq_ok {r r' : Registry} {d : Descriptor} (h : r.add d = .ok r') :
    r.has d.name = false ∧ (∀ f ∈ d.entity.fields, ∃ kind, f.kind = .ok kind) ∧
      r' = { r with descriptors := Record.put r.descriptors d.name d, finalized := false } := by
  unfold Registry.add at h
  dsimp only at h
  split at h
  · cases h
  · rename_i hnew
    obtain ⟨⟨⟩, hclassify, h⟩ := bind_eq_ok h
    cases h
    exact ⟨Bool.eq_false_iff.2 hnew, fun f hf => classify_ok hclassify hf, rfl⟩

theorem Shaped.add {r r' : Registry} (h : r.Shaped) {d : Descriptor} (hd : d.shapes = none)
    (hr : r.add d = .ok r') : r'.Shaped := by
  obtain ⟨-, -, rfl⟩ := add_eq_ok hr
  refine ⟨fun name e he => ?_, fun name e he p hp => ?_⟩
  · rw [Record.get?_put] at he
    split at he
    · rename_i hname
      cases he
      exact hname
    · exact h.named name e he
  · rw [Record.get?_put] at he
    split at he
    · cases he
      rw [hd] at hp
      cases hp
    · exact h.fits name e he p hp

/-- Built registries are well-shaped. -/
theorem Built.shaped {r : Registry} (h : Built r) : r.Shaped :=
  h.keeps (I := Shaped)
    ⟨fun _ _ h => (Option.some_ne_none _ h.symm).elim, fun _ _ h =>
    (Option.some_ne_none _ h.symm).elim⟩ (fun hr hd _ hadd => hr.add hd hadd) (fun _ hr =>
      ⟨hr.named, hr.fits⟩)
    fun _ hr => (keeps_finalize _ ⟨fun _ => rfl, hr⟩).1.2

end Registry

/-! ## Shapes under references -/

/-- Changes to a list of related documents are items to add, to update and to delete. -/
theorem InputShape.mem_delta {letter owner field : String} {add update : InputType}
    {e : String × InputField} (h : e ∈ (InputShape.delta letter owner field add update).fields) :
    e = ("added", ⟨"added", .objectList, add, true, .null⟩) ∨
      e = ("updated", ⟨"updated", .objectList, update, true, .null⟩) ∨
      e = ("deleted", ⟨"deleted", .scalarList, .named ScalarType.id.name, true, .null⟩) := by
  have hfields : (InputShape.delta letter owner field add update).fields =
      [("added", ⟨"added", .objectList, add, true, .null⟩),
        ("updated", ⟨"updated", .objectList, update, true, .null⟩),
        ("deleted", ⟨"deleted", .scalarList, .named ScalarType.id.name, true, .null⟩)] := rfl
  simpa [hfields] using h

/-- **What is found under a reference**: the shape of identifiers, a shape of an entity, or the
changes to one of its lists of related documents. -/
inductive Registry.Shows (r : Registry) : ShapeRef → InputShape → Prop where
  | reference : Registry.Shows r .reference .reference
  | add {name : String} {d : Descriptor} {p : ShapePair}
    (hd : Record.get? r.descriptors name = some d)
      (hp : d.shapes = some p) : Registry.Shows r (.add name) p.add
  | update {name : String} {d : Descriptor} {p : ShapePair}
    (hd : Record.get? r.descriptors name = some d)
      (hp : d.shapes = some p) : Registry.Shows r (.update name) p.update
  | delta {inUpdate : Bool} {name field target : String} {d : Descriptor} {f : FieldDef}
      (hd : Record.get? r.descriptors name = some d) (hf : d.entity.field? field = some f)
      (htarget : f.target = some target) : Registry.Shows r (.delta inUpdate name field)
        (.delta (deltaLetter inUpdate) name field (.shape (.add target)) (.shape (.update target)))

theorem Registry.shows_of_shape? {r : Registry} {ref : ShapeRef} {s : InputShape}
    (h : r.shape? ref = some s) :
    r.Shows ref s := by
  cases ref with
  | reference =>
    cases h
    exact .reference
  | add name =>
    obtain ⟨p, hp, rfl⟩ := Option.map_eq_some_iff.1 h
    obtain ⟨d, hd, hp⟩ := Option.bind_eq_some_iff.1 hp
    exact .add hd hp
  | update name =>
    obtain ⟨p, hp, rfl⟩ := Option.map_eq_some_iff.1 h
    obtain ⟨d, hd, hp⟩ := Option.bind_eq_some_iff.1 hp
    exact .update hd hp
  | delta inUpdate name field =>
    rw [shape?] at h
    simp only [Option.bind_eq_bind, Option.bind_eq_some_iff, Option.some.injEq] at h
    obtain ⟨d, hd, f, hf, target, htarget, rfl⟩ := h
    exact .delta hd hf htarget

/-! ## Accepted arguments -/

section Checking

variable {table : ShapeTable}

theorem checkFields_cons {path : String} {fs : Document} {name : String} {f : InputField}
    {rest : List (String × InputField)}
    (h : checkFields table path fs ((name, f) :: rest) = .ok ()) :
    (∀ v, Record.get? fs name = some v → v ≠ .null →
      ∃ place, checkValue table f place v = .ok ()) ∧ checkFields table path fs rest = .ok () := by
  rw [checkFields] at h
  split at h
  · rename_i hnone
    refine ⟨fun v hv => absurd (hnone.symm.trans hv) (by simp), ?_⟩
    split at h
    · exact h
    · cases h
  · rename_i hsome
    refine ⟨fun v hv hnull => absurd (Option.some.inj (hv.symm.trans hsome)) hnull, ?_⟩
    split at h
    · exact h
    · cases h
  · rename_i w _ hsome
    obtain ⟨⟨⟩, hfirst, hrest⟩ := bind_eq_ok h
    refine ⟨fun v hv _ => ?_, hrest⟩
    obtain rfl := Option.some.inj (hv.symm.trans hsome)
    exact ⟨_, hfirst⟩

/-- Every declared field that is there was checked. -/
theorem checkFields_ok {path : String} {fs : Document} {fields : List (String × InputField)}
    (h : checkFields table path fs fields = .ok ()) {e : String × InputField} (he : e ∈ fields)
    {v : Value} (hv : Record.get? fs e.1 = some v) (hnull : v ≠ .null) :
    ∃ place, checkValue table e.2 place v = .ok () := by
  induction fields with
  | nil => cases he
  | cons f rest ih =>
    obtain ⟨hfirst, hrest⟩ := checkFields_cons h
    rcases List.mem_cons.1 he with rfl | he
    · exact hfirst v hv hnull
    · exact ih hrest he

/-- Arguments that conform to a shape have no other fields, and the fields that are there were
checked. -/
theorem checkInput_ok {s : InputShape} {path : String} {args : Value}
    (h : checkInput table s path args = .ok ()) : ∃ fs, args = .object fs ∧
      ∀ name v, Record.get? fs name = some v → ∃ f, (name, f) ∈ s.fields ∧
        (v ≠ .null → ∃ place, checkValue table f place v = .ok ()) := by
  rw [checkInput.eq_def] at h
  dsimp only at h
  cases args with
  | object fs =>
    dsimp only at h
    split at h
    · rename_i hknown
      refine ⟨fs, rfl, fun name v hv => ?_⟩
      have hmem : name ∈ Record.keys fs :=
        (Record.mem_keys_iff fs name).2 (by rw [Record.has, hv]; rfl)
      have hhas : s.has name = true := by
        rcases hnot : s.has name with _ | _
        · have hin : name ∈ unknownKeys s fs := List.mem_filter.2 ⟨hmem, by rw [hnot]; rfl⟩
          rw [hknown] at hin
          cases hin
        · rfl
      obtain ⟨f, hf⟩ := Option.isSome_iff_exists.1 hhas
      have hentry := Record.mem_of_get?_eq_some hf
      exact ⟨f, hentry, fun hnull => checkFields_ok h hentry hv hnull⟩
    · cases h
  | _ => cases h

theorem checkItems_ok {type : InputType} {path : String} {index : Nat} {items : List Value}
    (h : checkItems table type path index items = .ok ()) {v : Value} (hv : v ∈ items) :
    ∃ place, checkObject table type place v = .ok () := by
  induction items generalizing index with
  | nil => cases hv
  | cons w rest ih =>
    rw [checkItems] at h
    obtain ⟨⟨⟩, hfirst, hrest⟩ := bind_eq_ok h
    rcases List.mem_cons.1 hv with rfl | hv
    · exact ⟨_, hfirst⟩
    · exact ih hrest hv

theorem checkObject_ok {ref : ShapeRef} {path : String} {v : Value}
    (h : checkObject table (.shape ref) path v = .ok ()) :
    ∃ s, table ref = some s ∧ checkInput table s path v = .ok () := by
  rw [checkObject, InputType.shape?] at h
  split at h
  · rename_i s hs
    exact ⟨s, hs, h⟩
  · cases h

/-- A list of objects that was checked. -/
theorem checkValue_objectList {f : InputField} (hk : f.kind = .objectList) {path : String}
    {v : Value} (h : checkValue table f path v = .ok ()) :
    ∃ items, v = .list items ∧ ∀ w ∈ items, ∃ place, checkObject table f.type place w = .ok () := by
  rw [checkValue.eq_def, hk] at h
  dsimp only at h
  split at h
  · rename_i items
    exact ⟨items, rfl, fun w hw => checkItems_ok h hw⟩
  · cases h

/-- The items of a list among changes that were checked. -/
theorem checkObject_of_listAt? {s : InputShape} {path key : String} {fs : Document}
    {type : InputType} (hkey : ∀ f, (key, f) ∈ s.fields → f.kind = .objectList ∧ f.type = type)
    (h : checkInput table s path (.object fs) = .ok ()) {items : List Value}
    (hitems : Delta.listAt? fs key = some items) {w : Value} (hw : w ∈ items) :
    ∃ place, checkObject table type place w = .ok () := by
  obtain ⟨_, hfs, hfields⟩ := checkInput_ok h
  cases hfs
  have hlist : ∀ v, Record.get? fs key = some v → v ≠ .null → ∃ vs, v = .list vs ∧
      ∀ w ∈ vs, ∃ place, checkObject table type place w = .ok () := by
    intro v hv hnull
    obtain ⟨f, hf, hchecked⟩ := hfields key v hv
    obtain ⟨place, hplace⟩ := hchecked hnull
    obtain ⟨hkind, rfl⟩ := hkey f hf
    exact checkValue_objectList hkind hplace
  unfold Delta.listAt? at hitems
  split at hitems
  · cases hitems
    cases hw
  · rename_i xs hv
    cases hitems
    obtain ⟨vs, hvs, hall⟩ := hlist _ hv (by simp)
    cases hvs
    exact hall w hw
  · rename_i hv
    obtain ⟨vs, hvs, -⟩ := hlist _ hv (by simp)
    cases hvs
  · rename_i hv
    obtain ⟨vs, hvs, -⟩ := hlist _ hv (by simp)
    cases hvs
  · split at hitems
    · cases hitems
    · cases hitems
      cases hw

/-- What is added and updated by changes that were checked. -/
theorem checkObject_of_delta {letter owner field path : String} {add update : InputType} {v : Value}
    (h : checkInput table (InputShape.delta letter owner field add update) path v = .ok ())
    {delta : Delta} (hdelta : Delta.ofValue? v = some delta) :
    (∀ w ∈ delta.added, ∃ place, checkObject table add place w = .ok ()) ∧
      ∀ w ∈ delta.updated, ∃ place, checkObject table update place w = .ok () := by
  obtain ⟨fs, rfl, -⟩ := checkInput_ok h
  simp only [Delta.ofValue?, Option.bind_eq_bind, Option.bind_eq_some_iff,
    Option.some.injEq] at hdelta
  obtain ⟨added, hadded, updated, hupdated, deleted, -, rfl⟩ := hdelta
  constructor
  · refine fun w hw => checkObject_of_listAt? (fun f hf => ?_) h hadded hw
    obtain rfl : f = _ := by simpa using InputShape.mem_delta hf
    exact ⟨rfl, rfl⟩
  · refine fun w hw => checkObject_of_listAt? (fun f hf => ?_) h hupdated hw
    obtain rfl : f = _ := by simpa using InputShape.mem_delta hf
    exact ⟨rfl, rfl⟩

end Checking

/-- The field of a name is the one of that name. -/
theorem Entity.field?_eq {e : Entity} {f : FieldDef} (hf : f ∈ e.fields) :
    e.field? f.name = some f := by
  rcases hfound : e.field? f.name with _ | g
  · have hnone := List.find?_eq_none.1 hfound f hf
    simp at hnone
  · have hg : g.name = f.name := by simpa using List.find?_some hfound
    rw [List.inj_on_of_nodup_map e.names_nodup (List.mem_of_find?_eq_some hfound) hf hg]

/-- **Accepted arguments** conform to the shape that a reference names. -/
def Registry.Accepts (r : Registry) (ref : ShapeRef) (args : Value) : Prop :=
  ∃ s path, r.shape? ref = some s ∧ checkInput r.shape? s path args = .ok ()

namespace Registry.Accepts

variable {r : Registry} {ref : ShapeRef} {args : Value} {d : Descriptor}

/-- What is among accepted arguments was offered and checked. -/
theorem offered (hr : r.Shaped) (hd : Record.get? r.descriptors d.name = some d)
    (href : ref.IsFor d.name) (h : r.Accepts ref args) : ∃ fs, args = .object fs ∧
      ∀ name v, Record.get? fs name = some v → ∃ f,
        Offered d.name d.machine.isSome d.entity.fields (name, f) ∧
          (v ≠ .null → ∃ place, checkValue r.shape? f place v = .ok ()) := by
  obtain ⟨s, path, hs, hcheck⟩ := h
  obtain ⟨fs, rfl, hfields⟩ := checkInput_ok hcheck
  have hoffered : ∀ e ∈ s.fields, Offered d.name d.machine.isSome d.entity.fields e := by
    rcases href with rfl | rfl
    all_goals
      rw [shape?, hd, Option.bind_some] at hs
      obtain ⟨p, hp, rfl⟩ := Option.map_eq_some_iff.1 hs
      intro e he
    · exact hr.fits d.name d hd p hp e (.inl he)
    · exact hr.fits d.name d hd p hp e (.inr he)
  refine ⟨fs, rfl, fun name v hv => ?_⟩
  obtain ⟨f, hf, hchecked⟩ := hfields name v hv
  exact ⟨f, hoffered _ hf, hchecked⟩

/-- No state is among the arguments of an entity with a state machine. -/
theorem no_state (hr : r.Shaped) (hd : Record.get? r.descriptors d.name = some d)
    (href : ref.IsFor d.name) (h : r.Accepts ref args) (hm : d.machine.isSome = true) :
    fieldOf? stateField args = none := by
  obtain ⟨fs, rfl, hfields⟩ := h.offered hr hd href
  rcases hv : fieldOf? stateField (.object fs) with _ | v
  · rfl
  · obtain ⟨f, ⟨g, -, hname, ht, -⟩, -⟩ := hfields stateField v hv
    exact absurd ⟨hm, hname⟩ ht.2

/-- **The children among accepted arguments** are accepted by the shapes of their own entity. -/
theorem children (hr : r.Shaped) (hd : Record.get? r.descriptors d.name = some d)
    (href : ref.IsFor d.name) (h : r.Accepts ref args) {f : FieldDef} (hf : f ∈ d.entity.fields)
    {delta : Delta} (hdelta : deltaOf? f args = some delta) :
    ∃ target, f.target = some target ∧ (∀ v ∈ delta.added, r.Accepts (.add target) v) ∧
      ∀ v ∈ delta.updated, r.Accepts (.update target) v := by
  obtain ⟨fs, rfl, hfields⟩ := h.offered hr hd href
  unfold deltaOf? at hdelta
  split at hdelta
  · rename_i hlist
    obtain ⟨v, hv, hread⟩ := Option.bind_eq_some_iff.1 hdelta
    obtain ⟨hget, hpresent⟩ := Option.filter_eq_some_iff.1 hv
    have hnull : v ≠ .null := by
      rintro rfl
      cases hpresent
    obtain ⟨input, ⟨g, hg, hname, -, hkind⟩, hchecked⟩ := hfields f.name v hget
    obtain rfl := List.inj_on_of_nodup_map d.entity.names_nodup hg hf hname
    rw [FieldDef.Asks, FieldDef.kind_of_isReferencedList (Bool.and_eq_true_iff.1 hlist).1] at hkind
    obtain ⟨hdeltaKind, u, htype⟩ := hkind
    obtain ⟨place, hplace⟩ := hchecked hnull
    rw [checkValue.eq_def, hdeltaKind] at hplace
    dsimp only at hplace
    rw [htype] at hplace
    obtain ⟨s, hs, hinput⟩ := checkObject_ok hplace
    rw [shape?, hd] at hs
    simp only [Option.bind_eq_bind, Option.bind_some, Entity.field?_eq hf,
      Option.bind_eq_some_iff] at hs
    obtain ⟨target, htarget, hs⟩ := hs
    cases hs
    obtain ⟨hadded, hupdated⟩ := checkObject_of_delta hinput hread
    refine ⟨target, htarget, fun w hw => ?_, fun w hw => ?_⟩
    · obtain ⟨place, hplace⟩ := hadded w hw
      obtain ⟨s, hs, hinput⟩ := checkObject_ok hplace
      exact ⟨s, place, hs, hinput⟩
    · obtain ⟨place, hplace⟩ := hupdated w hw
      obtain ⟨s, hs, hinput⟩ := checkObject_ok hplace
      exact ⟨s, place, hs, hinput⟩
  · cases hdelta

end Registry.Accepts

end EntityGraph

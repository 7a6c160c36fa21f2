import EntityGraph.Proofs.FinalShapes
import EntityGraph.Proofs.Listing

/-!
# Registering and finalizing in any order

Entities may be registered in any order, and a registry may be finalized several times on the way,
each time when the relations of what is registered lead to what is registered
(`Registration.Closed`). If the entities can be registered and finalized at once, all of this
succeeds, too, and gives the same shapes (`Registry.schedule_independent`).

Two facts carry the proof. What finalizing gives an entity for its shapes is settled by the entity
(`Registry.Settled.finalize`), so only success is left. And finalizing succeeds where every relation
leads somewhere and no entity embeds itself (`Registry.finalize_succeeds`), also when some entities
have their shapes already: both hold of a part of the entities whose relations lead to that part, if
they hold of all.
-/

namespace EntityGraph

/-- **A registration**: of an entity with a collection of its own, or of one that only lives inside
other documents. -/
inductive Registration where
  | connected (entity : Entity) (c : Connection)
  | embedded (entity : Entity)

namespace Registration

/-- The entity that is registered. -/
def entity : Registration → Entity
  | connected e _ => e
  | embedded e => e

/-- The name under which it is registered. -/
def name (g : Registration) : String := g.entity.name

/-- Do states belong to the entity? -/
def hasMachine : Registration → Bool
  | connected _ c => c.machine.isSome
  | embedded _ => false

/-- **Closed registrations**: every relation leads to an entity that is registered with them. -/
def Closed (gs : List Registration) : Prop :=
  ∀ g ∈ gs, ∀ f ∈ g.entity.fields, ∀ target, f.target = some target → target ∈ gs.map name

theorem Closed.perm {gs gs' : List Registration} (h : Closed gs) (hperm : gs'.Perm gs) :
    Closed gs' :=
  fun g hg f hf target htarget =>
    (hperm.map name).mem_iff.2 (h g (hperm.mem_iff.1 hg) f hf target htarget)

end Registration

namespace Registry

/-- Register an entity. -/
def register (r : Registry) : Registration → Outcome Registry
  | .connected e c => r.connect e c
  | .embedded e => r.addEmbedded e

/-- Register entities in order. -/
def enroll (gs : List Registration) : Action Registry Unit :=
  gs.forM fun g => do
    let r ← get
    let r' ← r.register g
    set r'

/-- **A schedule**: entities are registered batch by batch, and the registry is finalized after
each. -/
def schedule (batches : List (List Registration)) : Action Registry Unit :=
  batches.forM fun gs => do
    enroll gs
    finalize

/-! ## Success of finalizing -/

/-- What was done before, in front of what is done. -/
def Progress.after (before : List (String × ShapeDraft)) (p : Progress) : Progress :=
  { p with done := before ++ p.done }

section Log

variable {before : List (String × ShapeDraft)}

/-- **What is done is only recorded**: no step of the passes looks at it. -/
theorem run_tryDraft_after (p : Progress) (name : String) (r : Registry) :
    (tryDraft (p.after before) name).run.run r =
      (((tryDraft p name).run.run r).1.map (Progress.after before),
        ((tryDraft p name).run.run r).2) := by
  unfold tryDraft
  rw [Action.run_bind_ok (Action.run_get r), Action.run_bind_ok (Action.run_get r)]
  dsimp only
  rcases Record.get? r.descriptors name with _ | d
  · rfl
  · dsimp only
    rcases ShapeDraft.addFields r name d.machine.isSome (ShapeDraft.start name) d.entity.fields with
      ⟨draft, _ | target | e⟩
    · rw [Progress.after, List.append_assoc]
      rfl
    · rfl
    · rfl

theorem run_foldlM_after (names : List String) (p : Progress) (r : Registry) :
    (names.foldlM tryDraft (p.after before)).run.run r =
      (((names.foldlM tryDraft p).run.run r).1.map (Progress.after before),
        ((names.foldlM tryDraft p).run.run r).2) := by
  induction names generalizing p r with
  | nil => rfl
  | cons name rest ih =>
    rw [List.foldlM_cons, List.foldlM_cons, Action.run_bind, Action.run_bind, run_tryDraft_after]
    rcases (tryDraft p name).run.run r with ⟨e | q, r'⟩
    · rfl
    · exact ih q r'

theorem run_passes_after (fuel : Nat) (p : Progress) (r : Registry) :
    (passes fuel (p.after before)).run.run r =
      (((passes fuel p).run.run r).1.map (Progress.after before),
        ((passes fuel p).run.run r).2) := by
  induction fuel generalizing p r with
  | zero => rfl
  | succ fuel ih =>
    have hpass : (onePass (p.after before)).run.run r =
        (((onePass p).run.run r).1.map (Progress.after before), ((onePass p).run.run r).2) :=
      run_foldlM_after p.waiting ⟨[], p.done, []⟩ r
    rw [passes, passes, Action.run_bind, Action.run_bind, hpass]
    rcases (onePass p).run.run r with ⟨e | q, r'⟩
    · rfl
    · change (if q.waiting.isEmpty = true then _ else _ : Action Registry Progress).run.run r' = _
      dsimp only
      split
      · rfl
      · change (if q.waiting.length = p.waiting.length then _ else
          _ : Action Registry Progress).run.run r' = _
        split
        · rfl
        · exact ih q r'

end Log

variable {r R : Registry}

/-- Can one follow for ever what an entity embeds? -/
def Endless (r : Registry) (e : String) : Prop := ¬ Acc (fun target e => r.Embeds e target) e

/-- Going on for ever leads from registered entities to others of the kind. -/
theorem Endless.exists_embeds {e : String} (h : r.Endless e) :
    e ∈ r.descriptors.map Prod.fst ∧ ∃ target, r.Embeds e target ∧ r.Endless target := by
  obtain ⟨target, hembeds, htarget⟩ : ∃ target, r.Embeds e target ∧ r.Endless target := by
    by_contra hno
    refine h (Acc.intro e fun target hembeds => ?_)
    by_contra htarget
    exact hno ⟨target, hembeds, htarget⟩
  obtain ⟨d, hd, -⟩ := id hembeds
  exact ⟨List.mem_map_of_mem (Record.mem_of_get?_eq_some hd), target, hembeds, htarget⟩

/-- **Where there are no cycles**, following what entities embed comes to an end. -/
theorem acc_of_acyclic (h : r.Acyclic) (name : String) :
    Acc (fun target e => r.Embeds e target) name := by
  classical
  by_contra hname
  have hmem : ∀ e, r.Endless e → e ∈ (r.descriptors.map Prod.fst).filter fun e => r.Endless e :=
      fun e he =>
    List.mem_filter.2 ⟨he.exists_embeds.1, decide_eq_true he⟩
  obtain ⟨e, hcycle⟩ := exists_cycle (R := r.Embeds) (List.ne_nil_of_mem (hmem name hname))
      fun e he => by
    obtain ⟨target, hembeds, htarget⟩ :=
      (of_decide_eq_true (List.mem_filter.1 he).2 : r.Endless e).exists_embeds.2
    exact ⟨target, hmem target htarget, hembeds⟩
  exact h e hcycle

/-- The entities of a registry, as if all of them were done. -/
def allDone (r : Registry) : List (String × ShapeDraft) :=
  r.descriptors.map fun e => (e.1, ShapeDraft.start e.1)

/-- Passes may start when no cycle can be reached from an entity with shapes: such an entity counts
as done. -/
theorem passing_unshaped (hnamed : ∀ name d, Record.get? r.descriptors name = some d →
    d.name = name) (hacc : ∀ name d, Record.get? r.descriptors name = some d →
      d.shapes.isSome = true →
      Acc (fun target e => r.Embeds e target) name) :
    Passing r r r.unshaped (((⟨r.unshaped, [], []⟩ : Progress).after r.allDone).done.map Prod.fst)
      := by
  refine ⟨fun _ => rfl, hnamed, r.covered_unshaped, fun name d hd _ => ?_, hacc⟩
  refine List.mem_map.2 ⟨(name, ShapeDraft.start name), List.mem_append_left _ ?_, rfl⟩
  exact List.mem_map.2 ⟨(name, d), Record.mem_of_get?_eq_some hd, rfl⟩

/-- **Finalizing succeeds** where every relation leads somewhere and no entity embeds itself,
whether some entities have shapes already or not. -/
theorem finalize_succeeds (hnamed : ∀ name d, Record.get? r.descriptors name = some d →
    d.name = name) (hleads : r.AllLead) (hentries : ∀ e ∈ r.descriptors, ∀ f ∈ e.2.entity.fields,
      r.Leads f) (hacyclic : r.Acyclic) :
    ∃ r', finalize.run.run r = (.ok (), r') := by
  unfold finalize
  rw [Action.run_bind_ok (Action.run_get r)]
  split
  · exact ⟨r, rfl⟩
  rw [checkTargets_of_leads hentries, Action.run_bind_ok (Action.run_lift _ _)]
  have hsynthesize : ∃ r', synthesize.run.run r = (.ok (), r') := by
    unfold synthesize
    rw [Action.run_bind_ok (Action.run_get r)]
    dsimp only
    by_cases hnil : r.unshaped.isEmpty = true
    · rw [if_pos hnil]
      exact ⟨r, rfl⟩
    rw [if_neg hnil]
    have hstart := passing_unshaped hnamed fun name _ _ _ => acc_of_acyclic hacyclic name
    have hpasses := hstart.passes (p := (⟨r.unshaped, [], []⟩ : Progress).after r.allDone) hleads
      (fun h => hnil (List.isEmpty_iff.2 h)) (Nat.le_refl _)
    rw [show ((⟨r.unshaped, [], []⟩ : Progress).after r.allDone).waiting = r.unshaped from rfl,
      run_passes_after] at hpasses
    rcases hrun : (passes r.unshaped.length ⟨r.unshaped, [], []⟩).run.run r with ⟨e | q, r'⟩
    · rw [hrun] at hpasses
      rcases hpasses with ⟨q, r'', h, -⟩ | ⟨_, _, -, -, hcycle⟩
      · cases h
      · exact absurd hacyclic hcycle
    · rw [Action.run_bind_ok hrun]
      exact ⟨_, rfl⟩
  obtain ⟨r', hrun⟩ := hsynthesize
  rw [Action.run_bind_ok hrun]
  exact ⟨_, rfl⟩

/-! ### Conversely -/

theorem leads_of_checkRelations {owner : String} {fields : List FieldDef}
    (h : r.checkRelations owner fields = .ok ()) {f : FieldDef} (hf : f ∈ fields) : r.Leads f := by
  induction fields with
  | nil => cases hf
  | cons g rest ih =>
    rw [checkRelations] at h
    obtain ⟨kind, hk, h⟩ := bind_eq_ok h
    by_cases hobject : kind.isObject = true
    · rw [if_pos hobject] at h
      obtain ⟨t, ht, h⟩ := bind_eq_ok h
      rcases List.mem_cons.1 hf with rfl | hf
      · obtain ⟨target, htarget, hget⟩ := require_eq_ok ht
        refine ⟨kind, hk, fun _ => ⟨target, t, htarget, fun hempty => ?_, hget⟩⟩
        rw [htarget, require, hget] at ht
        dsimp only at ht
        rw [if_pos hempty] at ht
        cases ht
      · exact ih h hf
    · rw [if_neg hobject] at h
      rcases List.mem_cons.1 hf with rfl | hf
      · exact ⟨kind, hk, fun hkind => absurd hkind hobject⟩
      · exact ih h hf

/-- **What succeeded** on a registry without shapes: every relation leads somewhere and no entity
embeds itself. -/
theorem sound_of_finalize {r' : Registry} (hshaped : r.Shaped) (hopen : r.finalized = false)
    (hbare : ∀ name d, Record.get? r.descriptors name = some d → d.shapes = none)
    (hrun : finalize.run.run r = (.ok (), r')) : r.AllLead ∧ r.Acyclic := by
  unfold finalize at hrun
  rw [Action.run_bind_ok (Action.run_get r),
    if_neg (by rw [hopen]; exact Bool.false_ne_true)] at hrun
  obtain ⟨⟨⟩, htargets, hrun⟩ := Action.run_lift_bind_eq_ok hrun
  obtain ⟨⟨⟩, r₁, hsynthesize, -⟩ := Action.run_bind_eq_ok hrun
  have hleads : r.AllLead := fun name d hd f hf =>
    leads_of_checkRelations (checkTargets_ok htargets (Record.mem_of_get?_eq_some hd)) hf
  refine ⟨hleads, ?_⟩
  rcases run_synthesize hleads hshaped hbare with ⟨_, -, -, -, hacyclic⟩ | ⟨_, _, hfails, -⟩
  · exact hacyclic
  · rw [hsynthesize] at hfails
    cases hfails

/-! ## What is registered -/

/-- **A registry of registrations**: it holds their entities, and no others. -/
structure Holds (r : Registry) (gs : List Registration) : Prop where
  filed : ∀ g ∈ gs, ∃ d, Record.get? r.descriptors g.name = some d ∧ d.entity = g.entity ∧
    d.machine.isSome = g.hasMachine
  entries : ∀ e ∈ r.descriptors, ∃ g ∈ gs, g.name = e.1 ∧ e.2.entity = g.entity

theorem holds_empty : Registry.empty.Holds [] :=
  ⟨fun _ hg => absurd hg List.not_mem_nil, fun _ he => absurd he List.not_mem_nil⟩

variable {gs : List Registration} {r' : Registry}

/-- An entity of the registry was registered. -/
theorem Holds.exists_registration (h : r.Holds gs) {name : String} {d : Descriptor}
    (hd : Record.get? r.descriptors name = some d) :
    ∃ g ∈ gs, g.name = name ∧ d.entity = g.entity ∧ d.machine.isSome = g.hasMachine := by
  obtain ⟨g, hg, hname, -⟩ := h.entries (name, d) (Record.mem_of_get?_eq_some hd)
  obtain ⟨d', hd', hentity, hmachine⟩ := h.filed g hg
  obtain rfl : d' = d := Option.some.inj (hd'.symm.trans (hname ▸ hd))
  exact ⟨g, hg, hname, hentity, hmachine⟩

/-- Finalizing leaves the entities as they are. -/
theorem Holds.finalize (h : r.Holds gs) (hshaped : r.Shaped) :
    (Registry.finalize.run.run r).2.Holds gs where
  filed := fun g hg => by
    obtain ⟨d, hd, hentity, hmachine⟩ := h.filed g hg
    have halike := (keeps_finalize r ⟨fun _ => rfl, hshaped⟩).1.1 g.name
    rw [hd, Option.map_some] at halike
    obtain ⟨d', hd', hpair⟩ := Option.map_eq_some_iff.1 halike
    obtain ⟨hentity', hmachine'⟩ := Prod.mk.inj hpair
    exact ⟨d', hd', hentity'.trans hentity, hmachine'.trans hmachine⟩
  entries := by
    refine (keeps_finalize_of_change (I := fun r => ∀ e ∈ r.descriptors, ∃ g ∈ gs, g.name = e.1 ∧
      e.2.entity = g.entity) (fun r name change hc hr => ?_) (fun _ hr => hr) r h.entries).1
    unfold Registry.change
    split
    · rename_i d hd
      intro e he
      rcases Record.mem_put he with he | rfl
      · exact hr e he
      · obtain ⟨g, hg, hname, hentity⟩ := hr (name, d) (Record.mem_of_get?_eq_some hd)
        exact ⟨g, hg, hname, (hc d).trans hentity⟩
    · exact hr

/-! ### Registering -/

/-- **What is registered** does not depend on the registry: always the same descriptor is added, or
none. -/
theorem register_cases (g : Registration) : (∃ e, ∀ r : Registry, r.register g = .error e) ∨
    ∃ d : Descriptor, d.entity = g.entity ∧ d.machine.isSome = g.hasMachine ∧ d.shapes = none ∧
      ∀ r : Registry, r.register g = r.add d := by
  cases g with
  | embedded e => exact .inr ⟨_, rfl, rfl, rfl, fun _ => rfl⟩
  | connected e c =>
    unfold register connect
    dsimp only
    split
    · exact .inl ⟨_, fun _ => rfl⟩
    · rcases given? c.single with _ | single
      · dsimp only
        rcases Text.lowerFirst? e.name with _ | name
        · exact .inl ⟨_, fun _ => rfl⟩
        · exact .inr ⟨_, rfl, rfl, rfl, fun _ => rfl⟩
      · exact .inr ⟨_, rfl, rfl, rfl, fun _ => rfl⟩

/-- A registration that registries take, unless its name is taken. -/
def Admissible (g : Registration) : Prop :=
  ∃ d : Descriptor, d.entity = g.entity ∧ d.machine.isSome = g.hasMachine ∧ d.shapes = none ∧
    (∀ f ∈ d.entity.fields, ∃ kind, f.kind = .ok kind) ∧ ∀ r : Registry, r.register g = r.add d

/-- **A stage of a schedule**: a built registry of some registrations, with settled shapes. -/
structure Staged (r : Registry) (gs : List Registration) : Prop where
  built : r.Built
  settled : r.Settled
  holds : r.Holds gs

theorem staged_empty : Registry.empty.Staged [] :=
  ⟨.empty, fun _ _ _ hd => (Option.some_ne_none _ hd.symm).elim, holds_empty⟩

theorem Staged.has_iff (h : r.Staged gs) {name : String} :
    r.has name = true ↔ name ∈ gs.map Registration.name := by
  constructor
  · intro hhas
    obtain ⟨d, hd⟩ := Option.isSome_iff_exists.1 hhas
    obtain ⟨g, hg, hname, -⟩ := h.holds.exists_registration hd
    exact List.mem_map.2 ⟨g, hg, hname⟩
  · intro hmem
    obtain ⟨g, hg, rfl⟩ := List.mem_map.1 hmem
    obtain ⟨d, hd, -⟩ := h.holds.filed g hg
    exact Option.isSome_iff_exists.2 ⟨d, hd⟩

/-- **Registering an entity** gives a stage with one more. -/
theorem Staged.register (h : r.Staged gs) {g : Registration} (hrun : r.register g = .ok r') :
    Admissible g ∧ g.name ∉ gs.map Registration.name ∧ r'.Staged (gs ++ [g]) := by
  obtain ⟨e, herror⟩ | ⟨d, hentity, hmachine, hbare, hadd⟩ := register_cases g
  · rw [herror] at hrun
    cases hrun
  have hbuilt : r'.Built := by
    cases g with
    | connected e c => exact .connect h.built hrun
    | embedded e => exact .embed h.built hrun
  rw [hadd] at hrun
  obtain ⟨hnew, hkinds, rfl⟩ := add_eq_ok hrun
  have hname : d.name = g.name := congrArg Entity.name hentity
  rw [hname] at hnew hbuilt ⊢
  refine ⟨⟨d, hentity, hmachine, hbare, hkinds, hadd⟩, fun hmem =>
    ?_, hbuilt, fun name d' p hd' hp => ?_, fun g' hg' => ?_, fun e he => ?_⟩
  · rw [h.has_iff.2 hmem] at hnew
    cases hnew
  · rw [Record.get?_put] at hd'
    split at hd'
    · cases hd'
      rw [hbare] at hp
      cases hp
    · exact h.settled name d' p hd' hp
  · rw [Record.get?_put]
    rcases List.mem_append.1 hg' with hg' | hg'
    · have hne : ¬ g.name = g'.name := fun heq => by
        rw [h.has_iff.2 (List.mem_map.2 ⟨g', hg', heq.symm⟩)] at hnew
        cases hnew
      rw [if_neg hne]
      exact h.holds.filed g' hg'
    · obtain rfl := List.mem_singleton.1 hg'
      exact ⟨d, if_pos rfl, hentity, hmachine⟩
  · rcases Record.mem_put he with he | rfl
    · obtain ⟨g', hg', hsame⟩ := h.holds.entries e he
      exact ⟨g', List.mem_append_left _ hg', hsame⟩
    · exact ⟨g, List.mem_append_right _ (List.mem_singleton_self _), rfl, hentity⟩

theorem Admissible.register {g : Registration} (hg : Admissible g) (h : r.Staged gs)
    (hnew : g.name ∉ gs.map Registration.name) : ∃ r', r.register g = .ok r' := by
  obtain ⟨d, hentity, -, -, hkinds, hadd⟩ := hg
  rw [hadd]
  have hname : d.name = g.name := congrArg Entity.name hentity
  exact ⟨_, add_of_kinds (Bool.eq_false_iff.2 fun hhas => hnew (h.has_iff.1 (hname ▸ hhas))) hkinds⟩

theorem run_enroll_cons (g : Registration) (rest : List Registration) (r : Registry) :
    (enroll (g :: rest)).run.run r = match r.register g with
      | .ok r' => (enroll rest).run.run r'
      | .error e => (.error e, r) := by
  change ((do let r ← get; let r' ← r.register g; set r' : Action Registry Unit) >>= fun _ =>
    enroll rest).run.run r = _
  rw [bind_assoc, Action.run_bind_ok (Action.run_get r)]
  rcases r.register g with e | r' <;> rfl

/-- **Registering several entities**, if it succeeds. -/
theorem Staged.enroll {more : List Registration} (h : r.Staged gs)
    (hnodup : (gs.map Registration.name).Nodup)
    (hrun : (Registry.enroll more).run.run r = (.ok (), r')) :
    (∀ g ∈ more, Admissible g) ∧ ((gs ++ more).map Registration.name).Nodup ∧
      r'.Staged (gs ++ more) := by
  induction more generalizing r gs with
  | nil =>
    cases hrun
    rw [List.append_nil]
    exact ⟨fun _ hg => absurd hg List.not_mem_nil, hnodup, h⟩
  | cons g rest ih =>
    rw [run_enroll_cons] at hrun
    rcases hregister : r.register g with e | r₁ <;> rw [hregister] at hrun
    · cases hrun
    obtain ⟨hg, hnew, h₁⟩ := h.register hregister
    have hnodup₁ : ((gs ++ [g]).map Registration.name).Nodup := by
      rw [List.map_append, List.map_singleton, List.nodup_append]
      refine ⟨hnodup, List.nodup_singleton _, fun a ha b hb hab => hnew ?_⟩
      rw [← List.mem_singleton.1 hb, ← hab]
      exact ha
    obtain ⟨hall, hnodup', h'⟩ := ih h₁ hnodup₁ hrun
    rw [List.append_assoc, List.singleton_append] at hnodup' h'
    exact ⟨List.forall_mem_cons.2 ⟨hg, hall⟩, hnodup', h'⟩

/-- **Registering several entities** that registries take, under different names, succeeds. -/
theorem Staged.exists_enroll {more : List Registration} (h : r.Staged gs)
    (hmore : ∀ g ∈ more, Admissible g) (hnodup : ((gs ++ more).map Registration.name).Nodup) :
    ∃ r', (Registry.enroll more).run.run r = (.ok (), r') := by
  induction more generalizing r gs with
  | nil => exact ⟨r, rfl⟩
  | cons g rest ih =>
    have hnew : g.name ∉ gs.map Registration.name := by
      rw [List.map_append, List.map_cons] at hnodup
      exact fun hmem => (List.nodup_append.1 hnodup).2.2 _ hmem _ (List.mem_cons_self ..) rfl
    obtain ⟨r₁, hregister⟩ := (hmore g (List.mem_cons_self ..)).register h hnew
    obtain ⟨-, -, h₁⟩ := h.register hregister
    obtain ⟨r', hrun⟩ := ih h₁ (fun g' hg' => hmore g' (List.mem_cons_of_mem _ hg')) (by
      rwa [List.append_assoc, List.singleton_append])
    rw [run_enroll_cons, hregister]
    exact ⟨r', hrun⟩

/-- Registering gives no shapes, and does not call the registry finalized. -/
theorem bare_enroll {more : List Registration}
    (hbare : ∀ name d, Record.get? r.descriptors name = some d → d.shapes = none)
    (hopen : r.finalized = false) (hrun : (enroll more).run.run r = (.ok (), r')) :
    (∀ name d, Record.get? r'.descriptors name = some d → d.shapes = none) ∧
      r'.finalized = false := by
  induction more generalizing r with
  | nil =>
    cases hrun
    exact ⟨hbare, hopen⟩
  | cons g rest ih =>
    rw [run_enroll_cons] at hrun
    rcases hregister : r.register g with e | r₁ <;> rw [hregister] at hrun
    · cases hrun
    obtain ⟨e, herror⟩ | ⟨d, -, -, hnone, hadd⟩ := register_cases g
    · rw [herror] at hregister
      cases hregister
    rw [hadd] at hregister
    obtain ⟨-, -, rfl⟩ := add_eq_ok hregister
    refine ih (fun name d' hd' => ?_) rfl hrun
    rw [Record.get?_put] at hd'
    split at hd'
    · cases hd'
      exact hnone
    · exact hbare name d' hd'

/-! ## Schedules -/

/-- **Registries in which finalizing must succeed**: relations lead somewhere, and no entity embeds
itself. -/
structure Sound (R : Registry) (all : List Registration) : Prop where
  holds : R.Holds all
  leads : R.AllLead
  acyclic : R.Acyclic

variable {all : List Registration}

/-- All that is registered is closed. -/
theorem Sound.closed (h : R.Sound all) : Registration.Closed all := by
  intro g hg f hf target htarget
  obtain ⟨d, hd, hentity, -⟩ := h.holds.filed g hg
  obtain ⟨kind, hk, hlead⟩ := h.leads g.name d hd f (hentity ▸ hf)
  obtain ⟨target', t, htarget', -, ht⟩ := hlead (isObject_of_target htarget hk)
  obtain rfl := Option.some.inj (htarget.symm.trans htarget')
  obtain ⟨g', hg', hname, -⟩ := h.holds.exists_registration ht
  exact List.mem_map.2 ⟨g', hg', hname⟩

/-- The fields of a part lead into the part, when it is closed. -/
theorem Sound.leads_part (h : R.Sound all) (hpart : gs ⊆ all) (hclosed : Registration.Closed gs)
    (hr : r.Holds gs) {g : Registration} (hg : g ∈ gs) {f : FieldDef} (hf : f ∈ g.entity.fields) :
    r.Leads f := by
  obtain ⟨d, hd, hentity, -⟩ := h.holds.filed g (hpart hg)
  obtain ⟨kind, hk, hlead⟩ := h.leads g.name d hd f (hentity ▸ hf)
  refine ⟨kind, hk, fun hobject => ?_⟩
  obtain ⟨target, -, htarget, hne, -⟩ := hlead hobject
  obtain ⟨g', hg', hname⟩ := List.mem_map.1 (hclosed g hg f hf target htarget)
  obtain ⟨t, ht, -⟩ := hr.filed g' hg'
  exact ⟨target, t, htarget, hne, hname ▸ ht⟩

/-- A part has no cycles when the whole has none. -/
theorem Sound.acyclic_part (h : R.Sound all) (hpart : gs ⊆ all) (hr : r.Holds gs) : r.Acyclic := by
  have hembeds : ∀ e target, r.Embeds e target → R.Embeds e target := by
    rintro e target ⟨d, hd, f, hf, ht, he, htarget⟩
    obtain ⟨g, hg, rfl, hentity, hmachine⟩ := hr.exists_registration hd
    obtain ⟨D, hD, hentity', hmachine'⟩ := h.holds.filed g (hpart hg)
    refine ⟨D, hD, f, ?_, ?_, he, htarget⟩
    · rwa [hentity', ← hentity]
    · rwa [hmachine', ← hmachine]
  exact fun e hcycle => h.acyclic e (Relation.TransGen.mono hembeds _ _ hcycle)

/-- **Finalizing a part** succeeds, and settles the shapes of all that is registered. -/
theorem Staged.finalize (hR : R.Sound all) (h : r.Staged gs) (hpart : gs ⊆ all)
    (hclosed : Registration.Closed gs) :
    ∃ r', Registry.finalize.run.run r = (.ok (), r') ∧ r'.Staged gs ∧
      ∀ g ∈ gs, ∃ d, Record.get? r'.descriptors g.name = some d ∧
        d.shapes = some (g.entity.writeShapes g.hasMachine) := by
  obtain ⟨r', hrun⟩ := finalize_succeeds h.built.shaped.named
    (fun name d hd f hf => by
      obtain ⟨g, hg, -, hentity, -⟩ := h.holds.exists_registration hd
      exact hR.leads_part hpart hclosed h.holds hg (hentity ▸ hf))
    (fun e he f hf => by
      obtain ⟨g, hg, -, hentity⟩ := h.holds.entries e he
      exact hR.leads_part hpart hclosed h.holds hg (hentity ▸ hf))
    (hR.acyclic_part hpart h.holds)
  have hbuilt : r'.Built := by
    have hfinal := h.built.finalize
    rwa [hrun] at hfinal
  have hholds := h.holds.finalize h.built.shaped
  rw [hrun] at hholds
  have hsettled := h.settled.finalize h.built.shaped.named hrun
  refine ⟨r', hrun, ⟨hbuilt, hsettled, hholds⟩, fun g hg => ?_⟩
  obtain ⟨d, hd, hentity, hmachine⟩ := hholds.filed g hg
  obtain ⟨p, hp⟩ :=
    Option.isSome_iff_exists.1 ((hbuilt.complete (finalized_of_finalize hrun)).shaped g.name d hd)
  refine ⟨d, hd, ?_⟩
  rw [hp, hsettled g.name d p hd hp, hentity, hmachine]

/-- Have all entities their settled shapes? -/
def Equipped (r : Registry) (gs : List Registration) : Prop :=
  ∀ g ∈ gs, ∃ d, Record.get? r.descriptors g.name = some d ∧
    d.shapes = some (g.entity.writeShapes g.hasMachine)

/-- **The rest of a schedule** succeeds, from any stage. -/
theorem Staged.schedule (hR : R.Sound all) (hadmissible : ∀ g ∈ all, Admissible g)
    (hnodup : (all.map Registration.name).Nodup) {batches : List (List Registration)}
    (h : r.Staged gs) (hequipped : r.Equipped gs) (hperm : (gs ++ batches.flatten).Perm all)
    (hclosed : ∀ n ≤ batches.length, Registration.Closed (gs ++ (batches.take n).flatten)) :
    ∃ r', (Registry.schedule batches).run.run r = (.ok (), r') ∧ r'.Staged (gs ++ batches.flatten) ∧
      r'.Equipped (gs ++ batches.flatten) := by
  induction batches generalizing r gs with
  | nil =>
    rw [List.flatten_nil, List.append_nil]
    exact ⟨r, rfl, h, hequipped⟩
  | cons batch rest ih =>
    rw [List.flatten_cons, ← List.append_assoc] at hperm ⊢
    have hpart : gs ++ batch ⊆ all := fun g hg => hperm.mem_iff.1 (List.mem_append_left _ hg)
    have hnodup' : ((gs ++ batch).map Registration.name).Nodup := by
      have hall := (hperm.map Registration.name).nodup_iff.2 hnodup
      rw [List.map_append] at hall
      exact hall.of_append_left
    have hnodup_gs : (gs.map Registration.name).Nodup := by
      rw [List.map_append] at hnodup'
      exact hnodup'.of_append_left
    obtain ⟨r₁, henroll⟩ := h.exists_enroll
      (fun g hg => hadmissible g (hpart (List.mem_append_right _ hg))) hnodup'
    obtain ⟨-, -, h₁⟩ := h.enroll hnodup_gs henroll
    have hbatch : Registration.Closed (gs ++ batch) := by
      have hfirst := hclosed 1 (Nat.le_add_left 1 _)
      rwa [List.take_succ_cons, List.take_zero, List.flatten_singleton] at hfirst
    obtain ⟨r₂, hfinalize, h₂, hequipped₂⟩ := h₁.finalize hR hpart hbatch
    obtain ⟨r', hrest, h', hequipped'⟩ := ih h₂ hequipped₂ hperm fun n hn => by
      have hlater := hclosed (n + 1) (Nat.succ_le_succ hn)
      rwa [List.take_succ_cons, List.flatten_cons, ← List.append_assoc] at hlater
    refine ⟨r', ?_, h', hequipped'⟩
    change ((do Registry.enroll batch; Registry.finalize : Action Registry Unit) >>= fun _ =>
      Registry.schedule rest).run.run r = _
    rw [bind_assoc, Action.run_bind_ok henroll, Action.run_bind_ok hfinalize]
    exact hrest

/-- Registries in which a name stands for the same entity with the same shapes, or for none. -/
def AgreeAt (r r' : Registry) (name : String) : Prop :=
  (Record.get? r.descriptors name = none ∧ Record.get? r'.descriptors name = none) ∨
    ∃ d d', Record.get? r.descriptors name = some d ∧ Record.get? r'.descriptors name = some d' ∧
      d'.entity = d.entity ∧ d'.shapes = d.shapes

theorem shape?_congr (h : ∀ name, AgreeAt r r' name) (ref : ShapeRef) :
    r'.shape? ref = r.shape? ref := by
  cases ref with
  | reference => rfl
  | add e =>
    rcases h e with ⟨hd, hd'⟩ | ⟨d, d', hd, hd', -, hshapes⟩
    · rw [shape?, shape?, hd, hd']
    · rw [shape?, shape?, hd, hd', Option.bind_some, Option.bind_some, hshapes]
  | update e =>
    rcases h e with ⟨hd, hd'⟩ | ⟨d, d', hd, hd', -, hshapes⟩
    · rw [shape?, shape?, hd, hd']
    · rw [shape?, shape?, hd, hd', Option.bind_some, Option.bind_some, hshapes]
  | delta u e f =>
    rcases h e with ⟨hd, hd'⟩ | ⟨d, d', hd, hd', hentity, -⟩
    · rw [shape?, shape?, hd, hd']
    · rw [shape?, shape?, hd, hd']
      simp only [Option.bind_eq_bind, Option.bind_some, hentity]

/-- The shapes of registrations are the same in all registries that have them. -/
theorem Equipped.agreeAt {gs' : List Registration} (h : r.Staged gs) (hr : r.Equipped gs)
    (h' : r'.Staged gs') (hr' : r'.Equipped gs') (hperm : gs'.Perm gs) (name : String) :
    AgreeAt r r' name := by
  rcases hget : Record.get? r.descriptors name with _ | d
  · rcases hget' : Record.get? r'.descriptors name with _ | d'
    · exact .inl ⟨hget, hget'⟩
    · obtain ⟨g, hg, rfl, -⟩ := h'.holds.exists_registration hget'
      obtain ⟨d, hd, -⟩ := h.holds.filed g (hperm.mem_iff.1 hg)
      rw [hget] at hd
      cases hd
  · obtain ⟨g, hg, rfl, hentity, -⟩ := h.holds.exists_registration hget
    obtain ⟨d₁, hd₁, hshapes⟩ := hr g hg
    obtain rfl := Option.some.inj (hget.symm.trans hd₁)
    obtain ⟨d', hd', hshapes'⟩ := hr' g (hperm.mem_iff.2 hg)
    obtain ⟨d₂, hd₂, hentity', -⟩ := h'.holds.filed g (hperm.mem_iff.2 hg)
    obtain rfl := Option.some.inj (hd'.symm.trans hd₂)
    exact .inr ⟨d, d', hget, hd', hentity'.trans hentity.symm, hshapes'.trans hshapes.symm⟩

/-- **Shapes do not depend on the order of registration, nor on when the registry is finalized.**
Let entities be registered and the registry be finalized once. Then every schedule of the same
entities succeeds, if at each time that the registry is finalized the relations of what is
registered lead to what is registered. It gives the same shapes: each is that of its entity, with
the arguments of the fields in order, and the fields that it names are those that are asked for,
lists of related documents last. -/
theorem schedule_independent {batches : List (List Registration)}
    (honce : (schedule [all]).run.run .empty = (.ok (), r)) (hperm : batches.flatten.Perm all)
    (hclosed : ∀ n < batches.length, Registration.Closed (batches.take n).flatten) :
    ∃ r', (schedule batches).run.run .empty = (.ok (), r') ∧ (∀ ref, r'.shape? ref = r.shape? ref) ∧
      ∀ g ∈ all, ∀ b, r'.shape? (.writing b g.name) = some (g.entity.writeShape g.hasMachine b) ∧
        Record.keys (g.entity.writeShape g.hasMachine b).fields =
          ((g.entity.inputs g.hasMachine).filter (·.isAsked b)).map FieldDef.name := by
  have honce' : ((do enroll all; finalize : Action Registry Unit) >>= fun _ =>
    schedule []).run.run .empty =
      (.ok (), r) := honce
  rw [bind_assoc] at honce'
  obtain ⟨⟨⟩, R, henroll, hrest⟩ := Action.run_bind_eq_ok honce'
  obtain ⟨⟨⟩, R', hfinalize, -⟩ := Action.run_bind_eq_ok hrest
  obtain ⟨hadmissible, hnodup, hstaged⟩ := staged_empty.enroll List.nodup_nil henroll
  obtain ⟨hbare, hopen⟩ :=
    bare_enroll (fun _ _ hd => (Option.some_ne_none _ hd.symm).elim) rfl henroll
  rw [List.nil_append] at hnodup hstaged
  obtain ⟨hleads, hacyclic⟩ := sound_of_finalize hstaged.built.shaped hopen hbare hfinalize
  have hR : R.Sound all := ⟨hstaged.holds, hleads, hacyclic⟩
  have hnobody : Registry.empty.Equipped [] := fun _ hg => absurd hg List.not_mem_nil
  have hwhole : ([] ++ [all].flatten).Perm all := by rw [List.flatten_singleton, List.nil_append]
  obtain ⟨r₁, honce₁, hstaged₁, hequipped₁⟩ :=
    staged_empty.schedule hR hadmissible hnodup hnobody hwhole fun n hn => by
      rcases Nat.le_one_iff_eq_zero_or_eq_one.1 hn with rfl | rfl
      · exact fun _ hg => absurd hg List.not_mem_nil
      · rw [List.take_succ_cons, List.take_zero, List.flatten_singleton, List.nil_append]
        exact hR.closed
  obtain rfl : r₁ = r := (Prod.mk.inj (honce₁.symm.trans honce)).2
  obtain ⟨r', hrun, hstaged', hequipped'⟩ :=
      staged_empty.schedule hR hadmissible hnodup hnobody hperm fun n hn => by
    rw [List.nil_append]
    rcases Nat.lt_or_eq_of_le hn with hn | rfl
    · exact hclosed n hn
    · rw [List.take_length]
      exact hR.closed.perm hperm
  rw [List.flatten_singleton, List.nil_append] at hstaged₁ hequipped₁
  rw [List.nil_append] at hstaged' hequipped'
  refine ⟨r', hrun, shape?_congr (Equipped.agreeAt hstaged₁ hequipped₁ hstaged' hequipped' hperm),
    fun g hg b => ⟨?_, Entity.keys_writeShape (r := R) (fun f hf => ?_) _⟩⟩
  · obtain ⟨d, hd, hshapes⟩ := hequipped' g (hperm.mem_iff.2 hg)
    cases b <;> rw [ShapeRef.writing, shape?, hd, Option.bind_some, hshapes] <;> rfl
  · obtain ⟨d, hd, hentity, -⟩ := hR.holds.filed g hg
    exact hR.leads g.name d hd f (hentity ▸ hf)

end Registry

/-! ## Cases and lenses, orders and customers -/

/-- A shop has customers and their orders, and an order has a case that holds a lens. -/
def shop : List Registration :=
  [.embedded (nesting "Case" (some "Lens")), .connected customer ⟨none, none, none, none⟩,
    .connected order ⟨none, none, none, none⟩, .embedded (nesting "Lens" none)]

/-- Lenses come first and are finalized, and the others come later, orders before their
customers. -/
def shopInBatches : List (List Registration) :=
  [[.embedded (nesting "Lens" none)],
    [.connected order ⟨none, none, none, none⟩, .connected customer ⟨none, none, none, none⟩,
      .embedded (nesting "Case" (some "Lens"))]]

/-- The shop can be registered in batches, and creations of customers go by the same shape, with the
orders last. -/
theorem shop_in_batches : ∃ r', (Registry.schedule shopInBatches).run.run .empty = (.ok (), r') ∧
    r'.shape? (.add "Customer") = some (customer.writeShape false false) ∧
    Record.keys (customer.writeShape false false).fields = ["name", "orders"] := by
  obtain ⟨r, honce⟩ : ∃ r, (Registry.schedule [shop]).run.run .empty = (.ok (), r) := ⟨_, by cbv⟩
  have hclosed : ∀ n < shopInBatches.length,
      Registration.Closed (shopInBatches.take n).flatten := by
    rintro (_ | _ | n) hn g hg f hf
    · cases hg
    · obtain rfl := List.mem_singleton.1 hg
      cases hf
    · exact absurd hn (by simp [shopInBatches])
  have hperm : shopInBatches.flatten.Perm shop := List.reverse_perm shop
  obtain ⟨r', hrun, -, hshapes⟩ := Registry.schedule_independent honce hperm hclosed
  obtain ⟨hshape, hkeys⟩ :=
    hshapes (.connected customer ⟨none, none, none, none⟩) (by simp [shop]) false
  exact ⟨r', hrun, hshape, hkeys⟩

end EntityGraph

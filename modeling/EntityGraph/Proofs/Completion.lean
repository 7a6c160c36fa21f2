import EntityGraph.Proofs.Answers
import EntityGraph.Proofs.Shapes

/-!
# Finalized registries

When finalizing succeeds, nothing is left open: every entity has its shapes, every field has a kind,
and every field of objects leads to a registered entity (`Registry.Complete`). The passes carry this
as an invariant, that an entity without shapes is among those that wait (`Registry.Covered`), and
stop when none waits. Registering another entity opens the registry again, so whatever was
registered and finalized in whatever order, a built registry is complete when it is finalized
(`Registry.Built.complete`).

The shapes of a complete registry only refer to shapes that are found (`ShapeTable.Closed`), and
then a check of arguments accepts or refuses, whatever the arguments are (`answers_checkInput`).
-/

namespace EntityGraph

/-- **Complete registries** leave nothing open. -/
structure Registry.Complete (r : Registry) : Prop where
  shaped : ∀ name d, Record.get? r.descriptors name = some d → d.shapes.isSome = true
  kinds : ∀ name d, Record.get? r.descriptors name = some d → ∀ f ∈ d.entity.fields,
    ∃ kind, f.kind = .ok kind ∧ (kind.isObject = true → ∃ target t, f.target = some target ∧
      Record.get? r.descriptors target = some t)

namespace Registry

/-! ## Relations -/

/-- The kinds of fields that have a target are those of objects. -/
theorem isObject_of_target {f : FieldDef} {target : String} (h : f.target = some target)
    {kind : FieldKind} (hk : f.kind = .ok kind) : kind.isObject = true := by
  unfold FieldDef.target at h
  unfold FieldDef.kind at hk
  split at h
  · rename_i name htype
    rw [htype] at hk
    dsimp only at hk
    repeat' split at hk
    all_goals cases hk <;> rfl
  · cases h
  · rename_i v _ htype
    rw [htype] at hk
    dsimp only at hk
    repeat' split at hk
    all_goals cases hk <;> rfl
  · cases h

theorem checkRelations_ok {r : Registry} {owner : String} {fields : List FieldDef}
    (h : r.checkRelations owner fields = .ok ()) {f : FieldDef} (hf : f ∈ fields) :
    ∃ kind, f.kind = .ok kind ∧ (kind.isObject = true → ∃ target t, f.target = some target ∧
      Record.get? r.descriptors target = some t) := by
  induction fields with
  | nil => cases hf
  | cons g rest ih =>
    rw [checkRelations] at h
    obtain ⟨kind, hk, h⟩ := bind_eq_ok h
    have hrest : r.checkRelations owner rest = .ok () := by
      split at h
      · obtain ⟨_, -, h⟩ := bind_eq_ok h
        exact h
      · exact h
    rcases List.mem_cons.1 hf with rfl | hf
    · refine ⟨kind, hk, fun hobject => ?_⟩
      rw [if_pos hobject] at h
      obtain ⟨d, hd, -⟩ := bind_eq_ok h
      obtain ⟨name, hname, hget⟩ := require_eq_ok hd
      exact ⟨name, d, hname, hget⟩
    · exact ih hrest hf

theorem checkTargets_ok {r : Registry} {entries : List (String × Descriptor)}
    (h : r.checkTargets entries = .ok ()) {e : String × Descriptor} (he : e ∈ entries) :
    r.checkRelations e.1 e.2.entity.fields = .ok () := by
  induction entries with
  | nil => cases he
  | cons g rest ih =>
    rw [checkTargets] at h
    obtain ⟨⟨⟩, hfirst, hrest⟩ := bind_eq_ok h
    rcases List.mem_cons.1 he with rfl | he
    · exact hfirst
    · exact ih hrest he

/-! ## Passes -/

/-- **Covered entities**: whoever has no shapes is among the names. -/
def Covered (r : Registry) (names : List String) : Prop :=
  ∀ name d, Record.get? r.descriptors name = some d → d.shapes.isSome = true ∨ name ∈ names

/-- The entities without shapes are covered by themselves. -/
theorem covered_unshaped (r : Registry) : r.Covered r.unshaped := by
  intro name d hd
  rcases hshapes : d.shapes with _ | p
  · refine .inr (List.mem_map.2 ⟨(name, d), List.mem_filter.2 ⟨?_, ?_⟩, rfl⟩)
    · exact Record.mem_of_get?_eq_some hd
    · rw [hshapes]
      rfl
  · exact .inl rfl

/-- Changing an entity without taking its shapes away. -/
theorem Covered.change {r : Registry} {names : List String} (h : r.Covered names) {name : String}
    {f : Descriptor → Descriptor} (hf : ∀ d, d.shapes.isSome = true → (f d).shapes.isSome = true) :
    (r.change name f).Covered names := by
  intro other d' hd'
  rw [get?_change] at hd'
  split at hd'
  · obtain ⟨d, hd, rfl⟩ := Option.map_eq_some_iff.1 hd'
    exact (h other d hd).imp_left (hf d)
  · exact h other d' hd'

/-- Giving an entity its shapes: it need not wait any longer. -/
theorem Covered.shape {r : Registry} {before rest : List String} {name : String}
    (h : r.Covered (before ++ name :: rest)) {f : Descriptor → Descriptor}
    (hf : ∀ d, (f d).shapes.isSome = true) : (r.change name f).Covered (before ++ rest) := by
  intro other d' hd'
  rw [get?_change] at hd'
  split at hd'
  · obtain ⟨d, -, rfl⟩ := Option.map_eq_some_iff.1 hd'
    exact .inl (hf d)
  · rename_i hne
    refine (h other d' hd').imp_right fun hmem => ?_
    rcases List.mem_append.1 hmem with hmem | hmem
    · exact List.mem_append_left _ hmem
    · rcases List.mem_cons.1 hmem with rfl | hmem
      · exact absurd rfl hne
      · exact List.mem_append_right _ hmem

/-- One entity: it gets its shapes or waits. -/
theorem covered_tryDraft {p q : Progress} {name : String} {r r' : Registry}
    (h : (tryDraft p name).run.run r = (.ok q, r')) {rest : List String}
    (hr : r.Covered (p.waiting ++ name :: rest)) : r'.Covered (q.waiting ++ rest) := by
  unfold tryDraft at h
  rw [Action.run_bind_ok (Action.run_get r)] at h
  dsimp only at h
  split at h
  · rename_i hnone
    cases h
    intro other d hd
    refine (hr other d hd).imp_right fun hmem => ?_
    rcases List.mem_append.1 hmem with hmem | hmem
    · exact List.mem_append_left _ hmem
    · rcases List.mem_cons.1 hmem with rfl | hmem
      · rw [hnone] at hd
        cases hd
      · exact List.mem_append_right _ hmem
  · rename_i d hd
    rw [Action.run_bind_ok (Action.run_set _ _)] at h
    generalize ShapeDraft.addFields r name d.machine.isSome (ShapeDraft.start name)
      d.entity.fields = drawn at h
    obtain ⟨draft, stop⟩ := drawn
    dsimp only at h
    rcases stop with _ | target | e
    · rw [Action.run_bind_ok (Action.run_modify _ _)] at h
      cases h
      refine Covered.shape ?_ fun _ => rfl
      exact hr.change fun _ hs => hs
    · cases h
      rw [List.append_assoc, List.singleton_append]
      exact hr.change fun _ hs => hs
    · cases h

/-- One pass. -/
theorem covered_onePass {p q : Progress} {names : List String} {r r' : Registry}
    (h : (names.foldlM tryDraft p).run.run r = (.ok q, r')) (hr : r.Covered (p.waiting ++ names)) :
    r'.Covered q.waiting := by
  induction names generalizing p r with
  | nil =>
    cases h
    rwa [List.append_nil] at hr
  | cons name rest ih =>
    rw [List.foldlM_cons] at h
    obtain ⟨p', r₁, hfirst, h⟩ := Action.run_bind_eq_ok h
    exact ih h (covered_tryDraft hfirst hr)

/-- **Passes end** when no entity waits. -/
theorem covered_passes {fuel : Nat} {p q : Progress} {r r' : Registry}
    (h : (passes fuel p).run.run r = (.ok q, r')) (hr : r.Covered p.waiting) : r'.Covered [] := by
  induction fuel generalizing p r with
  | zero => cases h
  | succ fuel ih =>
    rw [passes] at h
    obtain ⟨p', r₁, hpass, h⟩ := Action.run_bind_eq_ok h
    have hr₁ := covered_onePass hpass hr
    split at h
    · rename_i hempty
      cases h
      rwa [List.isEmpty_iff.1 hempty] at hr₁
    · split at h
      · cases h
      · exact ih h hr₁

theorem covered_attachDrafts {done : List (String × ShapeDraft)} {r : Registry}
    {names : List String} (hr : r.Covered names) : (r.attachDrafts done).Covered names := by
  unfold attachDrafts
  induction done generalizing r with
  | nil => exact hr
  | cons e rest ih => exact ih (hr.change fun _ _ => rfl)

/-- Giving shapes to the entities without leaves none without. -/
theorem covered_synthesize {r r' : Registry} (h : synthesize.run.run r = (.ok (), r')) :
    r'.Covered [] := by
  have hr := r.covered_unshaped
  unfold synthesize at h
  rw [Action.run_bind_ok (Action.run_get r)] at h
  dsimp only at h
  split at h
  · rename_i hempty
    cases h
    rwa [List.isEmpty_iff.1 hempty] at hr
  · obtain ⟨p, r₁, hpasses, h⟩ := Action.run_bind_eq_ok h
    rw [Action.run_modify] at h
    cases h
    exact covered_attachDrafts (covered_passes hpasses hr)

/-! ## Finalizing -/

/-- Until it is done, finalizing does not call the registry finalized. -/
theorem keeps_open_synthesize :
    Keeps (fun r : Registry => r.finalized = false) (fun _ => True) synthesize := by
  have hchange : ∀ (r : Registry) (name : String) (f : Descriptor → Descriptor),
      r.finalized = false → (r.change name f).finalized = false := by
    intro r name f h
    unfold change
    split <;> exact h
  have hrules : DraftRules (fun r => r.finalized = false) fun _ _ => True :=
    { mark := fun r name _ => hchange r name _
      draft := fun _ _ _ _ _ _ _ => trivial
      shape := fun r name _ hr _ => hchange r name _ hr
      close := fun r name _ hr _ => hchange r name _ hr }
  exact hrules.synthesize

/-- **Finalizing** that gets through leaves nothing open. -/
theorem complete_finalize {r : Registry} (hshaped : r.Shaped) (hopen : r.finalized = false)
    (hdone : (finalize.run.run r).2.finalized = true) : (finalize.run.run r).2.Complete := by
  have hkept : Alike r (finalize.run.run r).2 := (keeps_finalize r ⟨fun _ => rfl, hshaped⟩).1.1
  rcases hrun : finalize.run.run r with ⟨result, r'⟩
  rw [hrun] at hdone hkept
  have hrun' := hrun
  unfold finalize at hrun'
  rw [Action.run_bind_ok (Action.run_get r), if_neg (by rw [hopen]; decide)] at hrun'
  rcases htargets : r.checkTargets r.descriptors with e | ⟨⟩
  · rw [htargets] at hrun'
    cases hrun'
    rw [hopen] at hdone
    cases hdone
  rw [htargets, Action.run_bind_ok (Action.run_lift _ _)] at hrun'
  rcases hsynthesize : synthesize.run.run r with ⟨e | ⟨⟩, r₁⟩
  · rw [Action.run_bind_error hsynthesize] at hrun'
    cases hrun'
    have hstill := (keeps_open_synthesize r hopen).1
    rw [hsynthesize, hdone] at hstill
    cases hstill
  rw [Action.run_bind_ok hsynthesize, Action.run_modify] at hrun'
  cases hrun'
  have hcovered := covered_synthesize hsynthesize
  refine ⟨fun name d hd => (hcovered name d hd).resolve_right List.not_mem_nil,
    fun name d hd f hf => ?_⟩
  obtain ⟨d₀, hd₀, hentity, -⟩ := hkept.exists_of_get? hd
  have hchecked := checkTargets_ok htargets (Record.mem_of_get?_eq_some hd₀)
  obtain ⟨kind, hk, htarget⟩ := checkRelations_ok hchecked (hentity ▸ hf)
  refine ⟨kind, hk, fun hobject => ?_⟩
  obtain ⟨target, t, hname, ht⟩ := htarget hobject
  have hsame := hkept target
  rw [ht, Option.map_some] at hsame
  obtain ⟨t', ht', -⟩ := Option.map_eq_some_iff.1 hsame
  exact ⟨target, t', hname, ht'⟩

/-- **Finalized registries are complete**, however they were built. -/
theorem Built.complete {r : Registry} (h : Built r) (hdone : r.finalized = true) : r.Complete := by
  refine h.keeps (I := fun r => r.finalized = true → r.Complete) (fun hdone =>
    ?_) (fun _ _ _ hr hdone => ?_) (fun _ hr hdone => ⟨(hr hdone).shaped, (hr hdone).kinds⟩)
      (fun {r} hbuilt hr hdone => ?_) hdone
  · cases hdone
  · obtain ⟨-, -, rfl⟩ := add_eq_ok hr
    cases hdone
  · rcases hopen : r.finalized with _ | _
    · exact complete_finalize hbuilt.shaped hopen hdone
    · have hsame : (Registry.finalize.run.run r).2 = r := by
        unfold Registry.finalize
        rw [Action.run_bind_ok (Action.run_get r), if_pos hopen]
        rfl
      rw [hsame]
      exact hr hopen

end Registry

/-! ## Checking arguments -/

/-- **Fields that can be checked**: the type goes with the kind, and the shape that it names is
found. -/
def InputField.Checkable (table : ShapeTable) (f : InputField) : Prop :=
  match f.kind with
  | .scalar => True
  | .scalarList => True
  | .enumeration => ∃ e, f.type = .enumeration e
  | _ => ∃ ref s, f.type = .shape ref ∧ table ref = some s

/-- **Closed tables**: the shapes that are found have fields that can be checked. -/
def ShapeTable.Closed (table : ShapeTable) : Prop :=
  ∀ ref s, table ref = some s → ∀ e ∈ s.fields, InputField.Checkable table e.2

section Checking

variable {table : ShapeTable}

mutual

/-- **Checks of arguments** accept or refuse. -/
theorem answers_checkInput (h : ShapeTable.Closed table) {s : InputShape}
    (hs : ∀ e ∈ s.fields, InputField.Checkable table e.2) (path : String) (args : Value) :
    Answers (fun _ => True) (checkInput table s path args) := by
  rw [checkInput.eq_def]
  dsimp only
  cases args with
  | object fs =>
    dsimp only
    split
    · exact answers_checkFields h path fs s.fields hs
    · exact .refuse rfl
  | _ => exact .refuse rfl
termination_by (sizeOf args, 0, 0)

theorem answers_checkFields (h : ShapeTable.Closed table) (path : String) (fs : Document) :
    ∀ fields : List (String × InputField), (∀ e ∈ fields, InputField.Checkable table e.2) →
      Answers (fun _ => True) (checkFields table path fs fields)
  | [], _ => by
    rw [checkFields]
    trivial
  | (name, f) :: rest, hfields => by
    have hrest := answers_checkFields h path fs rest fun e he =>
      hfields e (List.mem_cons_of_mem _ he)
    rw [checkFields]
    split
    · split
      · exact hrest
      · exact .refuse rfl
    · split
      · exact hrest
      · exact .refuse rfl
    · rename_i v _ hv
      have := Record.sizeOf_lt_of_get?_eq_some hv
      refine (answers_checkValue h (hfields (name, f) (List.mem_cons_self ..)) _ v).bind fun _ _ =>
        ?_
      exact hrest
termination_by fields => (sizeOf fs, 2, fields.length)

theorem answers_checkValue (h : ShapeTable.Closed table) {f : InputField}
    (hf : InputField.Checkable table f) (path : String) (v : Value) :
    Answers (fun _ => True) (checkValue table f path v) := by
  rw [checkValue.eq_def]
  unfold InputField.Checkable at hf
  cases hk : f.kind with
  | scalar => trivial
  | enumeration =>
    rw [hk] at hf
    obtain ⟨e, he⟩ := hf
    unfold checkMember
    rw [he]
    dsimp only
    split
    · split
      · trivial
      · exact .refuse rfl
    · exact .refuse rfl
  | scalarList =>
    dsimp only
    split
    · trivial
    · exact .refuse rfl
  | objectList =>
    rw [hk] at hf
    dsimp only
    split
    · rename_i items
      exact answers_checkItems h hf path 0 items
    · exact .refuse rfl
  | id =>
    rw [hk] at hf
    exact answers_checkObject h hf path v
  | object =>
    rw [hk] at hf
    exact answers_checkObject h hf path v
  | delta =>
    rw [hk] at hf
    exact answers_checkObject h hf path v
termination_by (sizeOf v, 2, 0)

theorem answers_checkObject (h : ShapeTable.Closed table) {type : InputType}
    (htype : ∃ ref s, type = .shape ref ∧ table ref = some s) (path : String) (v : Value) :
    Answers (fun _ => True) (checkObject table type path v) := by
  obtain ⟨ref, s, rfl, hs⟩ := htype
  rw [checkObject, InputType.shape?, hs]
  exact answers_checkInput h (h ref s hs) path v
termination_by (sizeOf v, 1, 0)

theorem answers_checkItems (h : ShapeTable.Closed table) {type : InputType}
    (htype : ∃ ref s, type = .shape ref ∧ table ref = some s) (path : String) (index : Nat) :
    ∀ items : List Value, Answers (fun _ => True) (checkItems table type path index items)
  | [] => by
    rw [checkItems]
    trivial
  | v :: rest => by
    rw [checkItems]
    refine (answers_checkObject h htype _ v).bind fun _ _ => ?_
    exact answers_checkItems h htype path (index + 1) rest
termination_by items => (sizeOf items, 0, 0)

end

end Checking

namespace Registry.Complete

variable {r : Registry}

/-- The shapes of a registered entity are found. -/
theorem exists_shape (h : r.Complete) {name : String} {d : Descriptor}
    (hd : Record.get? r.descriptors name = some d) {ref : ShapeRef} (href : ref.IsFor name) :
    ∃ s, r.shape? ref = some s := by
  obtain ⟨p, hp⟩ := Option.isSome_iff_exists.1 (h.shaped name d hd)
  rcases href with rfl | rfl
  · exact ⟨p.add, by rw [shape?, hd, Option.bind_some, hp, Option.map_some]⟩
  · exact ⟨p.update, by rw [shape?, hd, Option.bind_some, hp, Option.map_some]⟩

/-- What is offered for a field of a registered entity can be checked. -/
theorem checkable_of_offered (h : r.Complete) {name : String} {d : Descriptor}
    (hd : Record.get? r.descriptors name = some d) {e : String × InputField} {hasMachine : Bool}
    (he : Offered name hasMachine d.entity.fields e) : InputField.Checkable r.shape? e.2 := by
  obtain ⟨f, hf, -, -, hasks⟩ := he
  obtain ⟨kind, hk, htarget⟩ := h.kinds name d hd f hf
  rw [FieldDef.Asks, hk] at hasks
  unfold InputField.Checkable
  cases kind with
  | scalar => rw [hasks]; trivial
  | enumeration => rw [hasks.1]; exact hasks.2
  | scalarList => rw [hasks]; trivial
  | referencedObject => rw [hasks.1]; exact ⟨_, _, hasks.2, rfl⟩
  | embeddedObject =>
    obtain ⟨hkind, target, ref, hname, href, htype⟩ := hasks
    obtain ⟨target', t, hname', ht⟩ := htarget rfl
    obtain rfl := Option.some.inj (hname.symm.trans hname')
    obtain ⟨s, hs⟩ := h.exists_shape ht href
    rw [hkind]
    exact ⟨ref, s, htype, hs⟩
  | embeddedList =>
    obtain ⟨hkind, target, ref, hname, href, htype⟩ := hasks
    obtain ⟨target', t, hname', ht⟩ := htarget rfl
    obtain rfl := Option.some.inj (hname.symm.trans hname')
    obtain ⟨s, hs⟩ := h.exists_shape ht href
    rw [hkind]
    exact ⟨ref, s, htype, hs⟩
  | referencedList =>
    obtain ⟨hkind, u, htype⟩ := hasks
    obtain ⟨target, t, hname, -⟩ := htarget rfl
    rw [hkind]
    refine ⟨_, InputShape.delta (deltaLetter u) name f.name (.shape (.add target))
      (.shape (.update target)), htype, ?_⟩
    rw [shape?, hd]
    simp only [Option.bind_eq_bind, Option.bind_some, Entity.field?_eq hf, hname]

/-- **The shapes of a complete registry are closed.** -/
theorem closed (h : r.Complete) (hr : r.Shaped) : ShapeTable.Closed r.shape? := by
  have hpair : ∀ name d p, Record.get? r.descriptors name = some d → d.shapes = some p →
      ∀ e, e ∈ p.add.fields ∨ e ∈ p.update.fields → InputField.Checkable r.shape? e.2 := by
    intro name d p hd hp e he
    have hname := hr.named name d hd
    exact h.checkable_of_offered hd (hname ▸ hr.fits name d hd p hp e he)
  intro ref s hs e he
  cases shows_of_shape? hs with
  | reference =>
    rcases List.mem_singleton.1 he with rfl
    trivial
  | add hd hp => exact hpair _ _ _ hd hp e (.inl he)
  | update hd hp => exact hpair _ _ _ hd hp e (.inr he)
  | @delta _ name _ _ d f hd hf htarget =>
    obtain ⟨kind, hk, hleads⟩ := h.kinds name d hd f (List.mem_of_find?_eq_some hf)
    obtain ⟨target', t, hname, ht⟩ := hleads (isObject_of_target htarget hk)
    obtain rfl := Option.some.inj (htarget.symm.trans hname)
    rcases InputShape.mem_delta he with rfl | rfl | rfl
    · obtain ⟨s, hs⟩ := h.exists_shape ht (.inl rfl)
      exact ⟨_, s, rfl, hs⟩
    · obtain ⟨s, hs⟩ := h.exists_shape ht (.inr rfl)
      exact ⟨_, s, rfl, hs⟩
    · trivial

end Registry.Complete

end EntityGraph

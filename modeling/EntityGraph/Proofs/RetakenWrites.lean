import EntityGraph.Proofs.Retakes

/-!
# Writes without user code

In a service without user code, making a document from arguments is a pure computation (`Plain`),
and a write is a sequence of operations of the store. So a write in a retake mirrors the write in
the first take, when the identifiers that only the two takes make are mentioned neither in the
arguments nor by the states of the service.
-/

namespace EntityGraph

variable {τ S α β : Type} {ρ : ObjectId → ObjectId}

/-! ## Plain actions -/

/-- **Plain actions**: in every session the action is one and the same pure computation, which asks
for no other attempt and returns what satisfies `Q`. -/
def Plain (Q : α → Prop) (a : S → Action τ α) : Prop :=
  ∃ o : Outcome α, Yields Q o ∧ ∀ s, a s = liftM o

namespace Plain

variable {Q : α → Prop} {P : β → Prop}

/-- Plainness is a matter of what is done for each session. -/
theorem congr {a b : S → Action τ α} (h : Plain Q b) (hab : ∀ s, a s = b s) : Plain Q a := by
  obtain ⟨o, ho, hb⟩ := h
  exact ⟨o, ho, fun s => (hab s).trans (hb s)⟩

/-- Returning the same value for every session is plain. -/
theorem pure {v : α} (h : Q v) : Plain Q fun _ : S => (Pure.pure v : Action τ α) :=
  ⟨.ok v, h, fun _ => rfl⟩

/-- So is raising a fault that no retry follows. -/
theorem throw {e : Fault} (h : e.isTransient = false) :
    Plain Q fun _ : S => (MonadExcept.throw e : Action τ α) :=
  ⟨.error e, h, fun _ => rfl⟩

/-- **Sequencing** plain actions. -/
theorem bind {a : S → Action τ α} {f : α → S → Action τ β} (h : Plain Q a)
    (hf : ∀ v, Q v → Plain P (f v)) : Plain P fun s => a s >>= fun v => f v s := by
  obtain ⟨o, ho, ha⟩ := h
  cases o with
  | error e =>
    refine ⟨.error e, ho, fun s => ?_⟩
    dsimp only
    rw [ha s]
    rfl
  | ok v =>
    obtain ⟨o, ho, hf⟩ := hf v ho
    refine ⟨o, ho, fun s => ?_⟩
    dsimp only
    rw [ha s, ← hf s]
    rfl

/-- An outcome in front of a plain action. -/
theorem lift_bind {o : Outcome α} {f : α → S → Action τ β} (h : Yields Q o)
    (hf : ∀ v, Q v → Plain P (f v)) : Plain P fun s => liftM o >>= fun v => f v s :=
  bind ⟨o, h, fun _ => rfl⟩ hf

end Plain

/-! ## Making documents -/

namespace Materializer

variable {registry : Registry} {b : Behaviour τ S} {operation : Operation}

/-- Without user code a field has no validators. -/
theorem checkField_none (hb : ∀ n, b.entity n = .none) (s : S) (entity : String) (f : FieldDef)
    (v : Value) : (mk registry b operation s).checkField entity f v = pure () := by
  rw [checkField, hb]
  rfl

/-- Without user code an entity has no validators. -/
theorem checkEntity_none (hb : ∀ n, b.entity n = .none) (s : S) (entity : String) (args : Value)
    (d : Document) : (mk registry b operation s).checkEntity entity args d = pure d := by
  rw [checkEntity, hb]
  rfl

/-- A link to a parent, put into what was made. -/
def linked (link : Option ParentLink) (r : Materialized) : Materialized :=
  match link with
  | some (key, parent) => Materializer.put r key parent
  | none => r

/-- Without user code a document is what its fields make of the arguments, and the link. -/
theorem materialize_eq (hb : ∀ n, b.entity n = .none) (s : S) (entity : Entity)
    (link : Option ParentLink) (args : Value) :
    (mk registry b operation s).materialize entity link args = (do
      let r ← (mk registry b operation s).materializeFields entity.name args entity.fields ⟨[], []⟩
      pure (linked link r)) := by
  rw [materialize]
  refine bind_congr fun r => ?_
  dsimp only
  rw [checkEntity_none hb, pure_bind]
  rcases link with _ | ⟨key, parent⟩ <;> rfl

/-- What was made holds no identifier that the renaming moves. -/
def Fixed (ρ : ObjectId → ObjectId) (r : Materialized) : Prop :=
  Document.rename ρ r.document = r.document

/-- Putting in a value that is fixed. -/
theorem Fixed.put {r : Materialized} (h : Fixed ρ r) {v : Value} (hv : v.rename ρ = v)
    (key : String) : Fixed ρ (Materializer.put r key v) := by
  change Document.rename ρ (Record.put r.document key v) = Record.put r.document key v
  rw [Document.rename_put, hv, h]

mutual

/-- **Making a document** from settled arguments is plain. -/
theorem plain_materialize (hb : ∀ n, b.entity n = .none) (entity : Entity) (args : Value)
    (h : Value.Settled ρ args) :
    Plain (Fixed ρ) fun s => (mk registry b operation s).materialize entity none args := by
  refine .congr (.bind (plain_materializeFields hb entity.name args h entity.fields ⟨[], []⟩ rfl)
    fun r hr => .pure (v := linked none r) hr) fun s => ?_
  exact materialize_eq hb s entity none args
termination_by (sizeOf args, 3, 0)

/-- **Making a document** from settled arguments is plain: it walks the fields in order. -/
theorem plain_materializeFields (hb : ∀ n, b.entity n = .none) (entity : String) (args : Value)
    (h : Value.Settled ρ args) : ∀ (fields : List FieldDef) (r : Materialized), Fixed ρ r →
    Plain (Fixed ρ) fun s => (mk registry b operation s).materializeFields entity args fields r
  | [], r, hr => by
    refine .congr (.pure hr) fun s => ?_
    rw [materializeFields]
  | f :: rest, r, hr => by
    have hfield : Plain (Fixed ρ) fun s : S =>
        (mk registry b operation s).materializeField args f r := by
      unfold materializeField
      split
      · exact .pure hr
      split
      · exact .pure hr
      rename_i v hv
      have := sizeOf_fieldOf?_lt hv
      split
      · refine .pure ?_
        split <;> exact hr
      · exact plain_materializeValue hb f v (h.fieldOf? hv) r hr
    by_cases hobject : args.fields?.isNone = true
    · refine .congr (.throw (e := .illTyped) rfl) fun s => ?_
      rw [materializeFields, if_pos hobject]
      rfl
    · refine .congr (.bind hfield fun r hr =>
        plain_materializeFields hb entity args h rest r hr) fun s => ?_
      rw [materializeFields_cons, if_neg hobject, checkField_none hb]
      exact pure_bind _ _
termination_by fields => (sizeOf args, 2, fields.length)

/-- The argument of a field, by its kind. -/
theorem plain_materializeValue (hb : ∀ n, b.entity n = .none) (f : FieldDef) (v : Value)
    (h : Value.Settled ρ v) (r : Materialized) (hr : Fixed ρ r) :
    Plain (Fixed ρ) fun s => (mk registry b operation s).materializeValue f v r := by
  refine .congr (.lift_bind (yields_kind f) fun kind _ => ?_) fun s => materializeValue.eq_def ..
  cases kind with
  | scalar => exact .lift_bind (yields_coerceScalar f h) fun w hw => .pure (hr.put hw _)
  | enumeration => exact .lift_bind (yields_coerceScalar f h) fun w hw => .pure (hr.put hw _)
  | scalarList =>
    cases v with
    | list items =>
      refine .lift_bind (yields_coerceScalars f (Value.settled_list.1 h)) fun ws hws => .pure ?_
      exact hr.put (by rw [Value.rename_list, hws]) _
    | _ => exact .throw rfl
  | referencedObject =>
    refine .lift_bind (yields_toReference h) fun o ho => .pure (hr.put ?_ _)
    exact Value.rename_id ho
  | embeddedObject =>
    match v, h with
    | .object fs, h =>
      refine .lift_bind (yields_lookup registry _) fun target _ => ?_
      refine .bind (plain_materialize hb target.entity (.object fs) h) fun inner hinner => .pure ?_
      exact hr.put (by rw [Value.rename_object, hinner]) _
    | .list _, _ | .null, _ | .bool _, _ | .int _, _ | .float _, _ | .text _, _ | .id _, _
    | .moment _, _ | .member _ _, _ => exact .throw rfl
  | embeddedList =>
    cases v with
    | list items =>
      refine .lift_bind (yields_lookup registry _) fun target _ => ?_
      refine .bind (plain_materializeItems hb f target.entity items (Value.settled_list.1 h))
        fun ds hds => .pure ?_
      exact hr.put (by rw [Value.rename_list, hds]) _
    | _ => exact .throw rfl
  | referencedList =>
    dsimp only
    split
    · exact .pure hr
    · exact .throw rfl
termination_by (sizeOf v, 4, 0)

/-- The documents of an embedded list, one by one. -/
theorem plain_materializeItems (hb : ∀ n, b.entity n = .none) (f : FieldDef) (entity : Entity) :
    ∀ items : List Value, (∀ v ∈ items, Value.Settled ρ v) →
    Plain (fun ds => ds.map (Value.rename ρ) = ds) fun s =>
      (mk registry b operation s).materializeItems f entity items
  | [], _ => by
    refine .congr (.pure (v := []) rfl) fun s => ?_
    rw [materializeItems]
  | v :: rest, h => by
    cases v with
    | object fs =>
      refine .congr (.bind
        (plain_materialize hb entity (.object fs) (h _ (List.mem_cons_self ..))) fun inner hinner =>
          .bind (plain_materializeItems hb f entity rest fun v hv =>
            h v (List.mem_cons_of_mem _ hv)) fun others hothers =>
              .pure (v := .object inner.document :: others) ?_) fun s => ?_
      · rw [List.map_cons, Value.rename_object, hinner, hothers]
      · rw [materializeItems]
    | _ =>
      refine .congr (.throw (e := (Reason.objectsExpected f.name).fault) rfl) fun s => ?_
      rw [materializeItems.eq_def]
termination_by items => (sizeOf items, 0, 0)

end

end Materializer

/-! ## Writes without hooks -/

namespace Executor

section Unhooked

variable {x : Executor τ S} {ops : Operations τ S} {d : Descriptor} {link : Option ParentLink}
  {s : S}

/-- A new document, in the first state of its entity. -/
def inFirstState (d : Descriptor) (made : Document) : Document :=
  match d.machine with
  | some machine => Record.put made stateField (stateName machine.initial)
  | none => made

/-- The end of a change: what was made is laid over the stored document and written. -/
def revise (x : Executor τ S) (d : Descriptor) (s : S) (rawId : Value) (o : ObjectId)
    (m : Materialized) : Action τ (Option Document) := do
  match ← x.store.findById d.collection (.id o) (some s) with
  | none => throw (Reason.noDocument d.name rawId).fault
  | some current =>
    let changes ← mergeEmbedded current d.entity.fields m.document
    let parts := updateParts (if changes.isEmpty then none else some changes) m.unset
    if parts.isEmpty then pure (some current)
    else x.store.update d.collection (.id o) (.object parts) (some s)

/-- Without user code there are no hooks. -/
theorem hooks_none (hb : ∀ n, x.behaviour.entity n = .none) (d : Descriptor) :
    x.hooks d = .none := by
  rw [hooks, hb]
  rfl

/-- **Saving** without hooks. -/
theorem saveIn_eq (h : x.hooks d = .none) (args : Value) :
    x.saveIn ops d link s args = (do
      let m ← (x.materializer .create s).materialize d.entity link args
      let stored ← x.store.create d.collection (inFirstState d m.document) (some s)
      let id ← documentId stored
      applyDeltas x ops d id s args d.entity.fields
      pure stored) := by
  rw [saveIn, h]
  rfl

/-- **Updating** without hooks. -/
theorem updateIn_eq (h : x.hooks d = .none) (args : Value) :
    x.updateIn ops d link s args = (do
      let rawId ← argument args "id"
      if rawId.isEmpty then throw (Reason.updateNeedsId d.name).fault
      let o ← toReference rawId
      let m ← (x.materializer .update s).materialize d.entity link args
      applyDeltas x ops d (.id o) s args d.entity.fields
      x.revise d s rawId o m) := by
  rw [updateIn, h]
  refine bind_congr fun rawId => ?_
  dsimp only
  by_cases hempty : rawId.isEmpty = true
  · rw [if_pos hempty, if_pos hempty, Action.throw_bind, Action.throw_bind]
  rw [if_neg hempty, if_neg hempty]
  refine bind_congr fun o => bind_congr fun m => bind_congr fun _ => bind_congr fun found => ?_
  cases found with
  | none => rfl
  | some current =>
    refine bind_congr fun changes => ?_
    change (pure changes >>= fun edited => _) = _
    rw [pure_bind]
    dsimp only
    generalize updateParts (if changes.isEmpty then none else some changes) m.unset = parts
    split
    · rfl
    · exact bind_pure _

/-- **Deleting** without hooks. -/
theorem deleteIn_eq (h : x.hooks d = .none) (target : Value) :
    x.deleteIn ops d s target = (do
      let rawId := deletionId target
      if rawId.isEmpty then throw (Reason.deleteNeedsId d.name).fault
      let o ← toReference rawId
      let _ ← (x.materializer .delete s).materialize d.entity none (.object [("id", .id o)])
      match ← x.store.findById d.collection (.id o) (some s) with
      | none => throw (Reason.noDocument d.name rawId).fault
      | some _ => x.store.delete d.collection (.id o) (some s)) := by
  rw [deleteIn, h]
  rfl

end Unhooked

/-- **An executor without hooks that moves the state along `R`**: its validators do, and so does its
store in the session. -/
structure Unhooked (x : Executor τ S) (s : S) (R : τ → τ → Prop) : Prop where
  hooks : ∀ d, x.hooks d = .none
  checked : ∀ operation, (x.materializer operation s).Checked R
  create : ∀ collection d, Moves R (fun _ => True) (x.store.create collection d (some s))
  findById : ∀ collection id, Moves R (fun _ => True) (x.store.findById collection id (some s))
  update : ∀ collection id change,
    Moves R (fun _ => True) (x.store.update collection id change (some s))
  delete : ∀ collection id, Moves R (fun _ => True) (x.store.delete collection id (some s))

namespace Unhooked

variable {x : Executor τ S} {ops : Operations τ S} {s : S} {R : τ → τ → Prop} (h : x.Unhooked s R)
include h

theorem refl (t : τ) : R t t := (h.checked .create).refl t

theorem trans (t t' t'' : τ) : R t t' → R t' t'' → R t t'' := (h.checked .create).trans t t' t''

/-- The end of a change moves as the store does. -/
theorem moves_revise (d : Descriptor) (rawId : Value) (o : ObjectId) (m : Materialized) :
    Moves R (fun _ => True) (x.revise d s rawId o m) := by
  refine Moves.bind h.trans (h.findById _ _) fun found _ => ?_
  cases found with
  | none => exact Moves.throw h.refl _
  | some current =>
    refine Moves.lift_bind h.refl fun changes _ => ?_
    dsimp only
    generalize updateParts (if changes.isEmpty then none else some changes) m.unset = parts
    split
    · exact Moves.pure h.refl trivial
    · exact h.update _ _ _

/-- **Trees of writes** move the state as well. -/
theorem writeRules : WriteRules x ops s R (fun _ _ _ => True) (fun _ _ _ => True) where
  refl := h.refl
  trans := h.trans
  children := fun _ _ _ _ _ _ _ _ _ _ _ => ⟨fun _ _ => trivial, fun _ _ => trivial⟩
  save := by
    intro d link args _ hdeltas
    rw [saveIn_eq (h.hooks d)]
    refine Moves.bind h.trans (Materializer.moves_materialize (h.checked _) _ _ _) fun m _ => ?_
    refine Moves.bind h.trans (h.create _ _) fun stored _ => ?_
    exact Moves.lift_bind h.refl fun id _ => Moves.bind h.trans (hdeltas id) fun _ _ =>
      Moves.pure h.refl trivial
  update := by
    intro d link args _ hdeltas
    rw [updateIn_eq (h.hooks d)]
    refine Moves.lift_bind h.refl fun rawId _ => Moves.guard h.refl fun _ => Moves.lift_bind h.refl
      fun o _ => ?_
    refine Moves.bind h.trans (Materializer.moves_materialize (h.checked _) _ _ _) fun m _ => ?_
    exact Moves.bind h.trans (hdeltas _) fun _ _ => h.moves_revise d rawId o m

/-- A deletion moves as the store does. -/
theorem moves_deleteIn (d : Descriptor) (target : Value) :
    Moves R (fun _ => True) (x.deleteIn ops d s target) := by
  rw [deleteIn_eq (h.hooks d)]
  refine Moves.guard h.refl fun _ => Moves.lift_bind h.refl fun o _ => ?_
  refine Moves.bind h.trans (Materializer.moves_materialize (h.checked _) _ _ _) fun _ _ => ?_
  refine Moves.bind h.trans (h.findById _ _) fun found _ => ?_
  cases found with
  | none => exact Moves.throw h.refl _
  | some _ => exact h.delete _ _

end Unhooked

/-! ## The lists of a write -/

/-- The children that are saved and updated with a document for one of its lists. -/
def applyDelta (x : Executor τ S) (ops : Operations τ S) (d : Descriptor) (parent : Value) (s : S)
    (f : FieldDef) (delta : Delta) : Action τ Unit := do
  if !delta.deleted.isEmpty then throw (Reason.deletionInDelta d.name f.name).fault
  let target ← x.descriptor (f.target.getD "")
  x.saveAll ops target (f.connectionField, parent) s delta.added
  x.updateAll ops target (f.connectionField, parent) s delta.updated

/-- **One step of the walk over the lists.** -/
theorem applyDeltas_cons (x : Executor τ S) (ops : Operations τ S) (d : Descriptor) (parent : Value)
    (s : S) (args : Value) (f : FieldDef) (rest : List FieldDef) :
    x.applyDeltas ops d parent s args (f :: rest) = (do
      match deltaOf? f args with
      | none => pure ()
      | some delta => x.applyDelta ops d parent s f delta
      x.applyDeltas ops d parent s args rest) := by
  rw [applyDeltas.eq_2]
  unfold applyDelta
  split
  · rename_i hdelta
    simp only [hdelta]
  · rename_i hdelta
    simp only [hdelta]
    split <;> simp only [bind_assoc, Action.throw_bind]

/-! ## Writes give no identifier back -/

section Climbing

variable {p : τ → MemoryStore} {x : Executor τ SessionId} {ops : Operations τ SessionId}
  {s : SessionId}

/-- Without user code every step of a write climbs. -/
theorem unhooked_climbs (hstore : x.store.OnMemory p) (hb : ∀ n, x.behaviour.entity n = .none) :
    x.Unhooked s (Ascends p) where
  hooks := hooks_none hb
  checked := fun operation =>
    { refl := Climbs.refl
      trans := Climbs.trans
      field := fun entity f v => by
        rw [materializer, Materializer.checkField_none hb]
        exact Climbs.pure _
      entity := fun entity args d => by
        rw [materializer, Materializer.checkEntity_none hb]
        exact Climbs.pure _ }
  create := fun _ _ => (hstore.create _ _ _).moves (MemoryStore.climbs_create _ _ _)
  findById := fun _ _ => (hstore.findById _ _ _).moves (MemoryStore.climbs_findById _ _ _)
  update := fun _ _ _ => (hstore.update _ _ _ _).moves (MemoryStore.climbs_update _ _ _ _)
  delete := fun _ _ => (hstore.delete _ _ _).moves (MemoryStore.climbs_delete _ _ _)

/-- The changes of the lists of a document climb. -/
theorem climbs_applyDeltas (hstore : x.store.OnMemory p) (hb : ∀ n, x.behaviour.entity n = .none)
    (d : Descriptor) (parent args : Value) (fields : List FieldDef) :
    Climbs p (x.applyDeltas ops d parent s args fields) :=
  (unhooked_climbs hstore hb).writeRules.moves_applyDeltas d parent args fields
    fun _ _ _ _ _ _ _ => ⟨fun _ _ => trivial, fun _ _ => trivial⟩

theorem climbs_saveAll (hstore : x.store.OnMemory p) (hb : ∀ n, x.behaviour.entity n = .none)
    (d : Descriptor) (link : ParentLink) (items : List Value) :
    Climbs p (x.saveAll ops d link s items) :=
  (unhooked_climbs hstore hb).writeRules.moves_saveAll d link items fun _ _ => trivial

theorem climbs_updateAll (hstore : x.store.OnMemory p) (hb : ∀ n, x.behaviour.entity n = .none)
    (d : Descriptor) (link : ParentLink) (items : List Value) :
    Climbs p (x.updateAll ops d link s items) :=
  (unhooked_climbs hstore hb).writeRules.moves_updateAll d link items fun _ _ => trivial

/-- Saving climbs. -/
theorem climbs_saveIn (hstore : x.store.OnMemory p) (hb : ∀ n, x.behaviour.entity n = .none)
    (d : Descriptor) (link : Option ParentLink) (args : Value) :
    Climbs p (x.saveIn ops d link s args) :=
  (unhooked_climbs hstore hb).writeRules.moves_saveIn d link args trivial

/-- Updating climbs. -/
theorem climbs_updateIn (hstore : x.store.OnMemory p) (hb : ∀ n, x.behaviour.entity n = .none)
    (d : Descriptor) (link : Option ParentLink) (args : Value) :
    Climbs p (x.updateIn ops d link s args) :=
  (unhooked_climbs hstore hb).writeRules.moves_updateIn d link args trivial

/-- Deleting climbs. -/
theorem climbs_deleteIn (hstore : x.store.OnMemory p) (hb : ∀ n, x.behaviour.entity n = .none)
    (d : Descriptor) (target : Value) : Climbs p (x.deleteIn ops d s target) :=
  (unhooked_climbs hstore hb).moves_deleteIn d target

/-- State actions climb. -/
theorem climbs_transition (hstore : x.store.OnMemory p) (hb : ∀ n, x.behaviour.entity n = .none)
    (d : Descriptor) (name : String) (action : StateAction) (args : Value) :
    Climbs p (x.transition ops d name action args s) := by
  refine Climbs.lift_bind fun rawId => .guard (.lift_bind fun o => ?_)
  refine .bind ((hstore.findById _ _ _).moves (MemoryStore.climbs_findById _ _ _)) fun found => ?_
  cases found with
  | none => exact .throw _
  | some current =>
    refine Climbs.guard ?_
    cases args with
    | object fs => exact climbs_updateIn hstore hb d none _
    | _ => exact .throw _

end Climbing

end Executor

/-! ## Writes mirror themselves -/

/-- The identifiers that the states of a state machine mention. -/
def StateMachine.mentioned (m : StateMachine) : List ObjectId :=
  (stateName m.initial).mentioned ++ (Record.values m.actions).flatMap fun a =>
    (stateName a.source).mentioned ++ (stateName a.target).mentioned

/-- The identifiers that the states of the entities mention. -/
def Registry.mentioned (r : Registry) : List ObjectId :=
  (Record.values r.descriptors).flatMap fun d => (d.machine.map (·.mentioned)).getD []

/-- A link to the parent after a renaming. -/
def ParentLink.rename (ρ : ObjectId → ObjectId) (link : ParentLink) : ParentLink :=
  (link.1, link.2.rename ρ)

/-- **A service that can be retaken**: it runs on the memory store `p` and has no user code, and its
states mention no identifier that the renaming moves. -/
structure Executor.Retakes (x : Executor τ SessionId) (p : τ → MemoryStore)
    (k : Retake) : Prop where
  store : x.store.OnMemory p
  plain : ∀ n, x.behaviour.entity n = .none
  states : ∀ o ∈ x.registry.mentioned, k.rename o = o

/-- The children among settled arguments are settled. -/
theorem settled_delta {f : FieldDef} {args : Value} {delta : Delta} (h : Value.Settled ρ args)
    (hd : deltaOf? f args = some delta) :
    (∀ v ∈ delta.added, Value.Settled ρ v) ∧ ∀ v ∈ delta.updated, Value.Settled ρ v := by
  have hlist : ∀ {fs : Document} {key : String} {items : List Value},
      Value.Settled ρ (.object fs) → Delta.listAt? fs key = some items →
      ∀ v ∈ items, Value.Settled ρ v := by
    intro fs key items hfs hitems v hv
    have hplaceholder : v ∈ [Value.null] → Value.Settled ρ v := fun hv => by
      obtain rfl := List.mem_singleton.1 hv
      exact Value.settled_null
    unfold Delta.listAt? at hitems
    split at hitems
    · cases hitems
      cases hv
    · rename_i xs hxs
      cases hitems
      exact Value.settled_list.1 (hfs.get? hxs) v hv
    · split at hitems <;> cases hitems
      · cases hv
      · exact hplaceholder hv
    · split at hitems <;> cases hitems
      · cases hv
      · exact hplaceholder hv
    · split at hitems <;> cases hitems
      cases hv
  unfold deltaOf? presentArgument? at hd
  split at hd
  · obtain ⟨v, hv, hdelta⟩ := Option.bind_eq_some_iff.1 hd
    have hsettled := h.fieldOf? (Option.filter_eq_some_iff.1 hv).1
    unfold Delta.ofValue? at hdelta
    split at hdelta
    · simp only [Option.bind_eq_bind, Option.bind_eq_some_iff, Option.some.injEq] at hdelta
      obtain ⟨added, hadded, updated, hupdated, _, _, rfl⟩ := hdelta
      exact ⟨hlist hsettled hadded, hlist hsettled hupdated⟩
    · cases hdelta
  · cases hd

/-- The parts of an update, after a renaming. -/
theorem updateParts_rename (changes : Option Document) (unset : List String) :
    Executor.updateParts (changes.map (Document.rename ρ)) unset =
      Document.rename ρ (Executor.updateParts changes unset) := by
  have hunset : Document.rename ρ (Record.ofEntries (unset.map fun key => (key, Value.text ""))) =
      Record.ofEntries (unset.map fun key => (key, .text "")) := by
    rw [Record.ofEntries, Document.rename_merge, Document.rename_nil]
    congr 1
    refine Record.mapValues_eq_self fun e he => ?_
    obtain ⟨key, -, rfl⟩ := List.mem_map.1 he
    rfl
  unfold Executor.updateParts
  rcases changes with _ | d <;> rcases unset.isEmpty with _ | _ <;>
    simp [Document.rename_nil, Document.rename_cons, hunset]

/-- What an embedded object of the changes becomes. -/
def mergeField (current : Document) (f : FieldDef) (changes : Document) : Outcome Document :=
  if f.kind? = some .embeddedObject then
    match Record.get? changes f.name, Record.get? current f.name with
    | some (.object new), some (.object old) =>
      .ok (Record.put changes f.name (.object (Record.merge old new)))
    | some _, some (.object _) => .error .illTyped
    | _, _ => .ok changes
  else .ok changes

/-- Embedded objects are merged field by field. -/
theorem mergeEmbedded_cons (current : Document) (f : FieldDef) (rest : List FieldDef)
    (changes : Document) : Executor.mergeEmbedded current (f :: rest) changes =
      mergeField current f changes >>= Executor.mergeEmbedded current rest := by
  rw [Executor.mergeEmbedded, mergeField]
  split
  · rcases Record.get? changes f.name with _ | new
    · rfl
    · rcases Record.get? current f.name with _ | old
      · cases new <;> rfl
      · cases new <;> cases old <;> rfl
  · rfl

/-- What a field merges corresponds after a renaming. -/
theorem corresponds_mergeField (current : Document) (f : FieldDef) (changes : Document) :
    Corresponds ρ (fun d d' => d' = Document.rename ρ d) (mergeField current f changes)
      (mergeField (Document.rename ρ current) f (Document.rename ρ changes)) := by
  rw [mergeField, mergeField, Document.get?_rename, Document.get?_rename]
  split
  · rcases Record.get? changes f.name with _ | new
    · exact .ok rfl
    · rcases Record.get? current f.name with _ | old
      · cases new <;> exact .ok rfl
      · cases old with
        | object old =>
          cases new with
          | object new =>
            refine .ok ?_
            rw [Document.rename_put, Value.rename_object, Document.rename_merge]
            simp
          | _ => exact .refused rfl
        | _ => cases new <;> exact .ok rfl
  · exact .ok rfl

/-- Laying changes over what is stored gives the renamed changes. -/
theorem corresponds_mergeEmbedded (current : Document) (fields : List FieldDef)
    (changes : Document) :
    Corresponds ρ (fun d d' => d' = Document.rename ρ d)
      (Executor.mergeEmbedded current fields changes)
      (Executor.mergeEmbedded (Document.rename ρ current) fields (Document.rename ρ changes)) := by
  induction fields generalizing changes with
  | nil => exact .ok rfl
  | cons f rest ih =>
    rw [mergeEmbedded_cons, mergeEmbedded_cons]
    refine (corresponds_mergeField current f changes).bind fun d d' hd => ?_
    subst hd
    exact ih d

namespace Executor

section Mirroring

variable {p : τ → MemoryStore} {k : Retake} {x : Executor τ SessionId}
  {ops : Operations τ SessionId} {i j : SessionId}

/-- The states of a machine mention no identifier that is renamed. -/
theorem Retakes.settled_machine (h : x.Retakes p k) {d : Descriptor}
    (hd : d ∈ Record.values x.registry.descriptors) {machine : StateMachine}
    (hm : d.machine = some machine) : ∀ o ∈ machine.mentioned, k.rename o = o := by
  refine fun o ho => h.states o (List.mem_flatMap.2 ⟨d, hd, ?_⟩)
  rw [hm]
  exact ho

/-- Making a document in both takes. -/
theorem mirrors_materialize_bind (h : x.Retakes p k) {Q : α → β → Prop} (operation : Operation)
    (entity : Entity) (link : Option ParentLink) {args : Value}
    (hargs : Value.Settled k.rename args) {f : Materialized → Action τ α}
    {f' : Materialized → Action τ β}
    (hf : ∀ m m' : Materialized, m'.document = Document.rename k.rename m.document →
      m'.unset = m.unset → Mirrors p k i j Q (f m) (f' m')) :
    Mirrors p k i j Q ((x.materializer operation i).materialize entity link args >>= f)
      ((x.materializer operation j).materialize entity
        (link.map (ParentLink.rename k.rename)) args >>= f') := by
  have hplain : Plain (Materializer.Fixed k.rename) fun s =>
      (x.materializer operation s).materializeFields entity.name args entity.fields ⟨[], []⟩ :=
    Materializer.plain_materializeFields h.plain entity.name args hargs entity.fields _ rfl
  obtain ⟨o, ho, hs⟩ := hplain
  dsimp only [materializer] at hs
  rw [materializer, materializer, Materializer.materialize_eq h.plain,
    Materializer.materialize_eq h.plain, hs i, hs j, bind_assoc, bind_assoc]
  refine .self_bind ho fun r hr => ?_
  rw [pure_bind, pure_bind]
  rcases link with _ | ⟨key, parent⟩
  · exact hf _ _ hr.symm rfl
  · refine hf _ _ ?_ rfl
    change Record.put r.document key (parent.rename k.rename) =
      Document.rename k.rename (Record.put r.document key parent)
    rw [Document.rename_put, hr]

/-- Looking up a document, and whatever mirrors on what was found. -/
theorem mirrors_findById_bind (h : x.Retakes p k) {Q : α → β → Prop} (collection : String)
    {o : ObjectId} (ho : k.rename o = o) {f : Option Document → Action τ α}
    {f' : Option Document → Action τ β}
    (hf : ∀ found, Mirrors p k i j Q (f found) (f' (found.map (Document.rename k.rename)))) :
    Mirrors p k i j Q (x.store.findById collection (.id o) (some i) >>= f)
      (x.store.findById collection (.id o) (some j) >>= f') := by
  refine MemoryStore.mirrors_findById_bind collection (.id o) (h.store.findById _ _ _) ?_ hf
  rw [Value.rename_id ho]
  exact h.store.findById _ _ _

/-- A change in the store mirrors the change of the renamed document. -/
theorem mirrors_update (h : x.Retakes p k) (collection : String) {o : ObjectId}
    (ho : k.rename o = o) (parts : Document) :
    Mirrors p k i j (fun v w => w = v.map (Document.rename k.rename))
      (x.store.update collection (.id o) (.object parts) (some i))
      (x.store.update collection (.id o) (.object (Document.rename k.rename parts)) (some j)) := by
  have hupdate := @MemoryStore.mirrors_update k i j collection (.id o) parts
  rw [Value.rename_id ho] at hupdate
  exact hupdate.of_actsOn (h.store.update _ _ _ _) (h.store.update _ _ _ _)

/-- **The end of a change** in both takes. -/
theorem mirrors_revise (h : x.Retakes p k) (d : Descriptor) (rawId : Value) {o : ObjectId}
    (ho : k.rename o = o) {m m' : Materialized}
    (hdocument : m'.document = Document.rename k.rename m.document) (hunset : m'.unset = m.unset) :
    Mirrors p k i j (fun v w => w = v.map (Document.rename k.rename)) (x.revise d i rawId o m)
      (x.revise d j rawId o m') := by
  unfold revise
  refine mirrors_findById_bind h d.collection ho fun found => ?_
  cases found with
  | none => exact .throw (.same _) rfl
  | some current =>
    rw [Option.map_some]
    dsimp only
    rw [hdocument, hunset]
    refine .lift_bind (corresponds_mergeEmbedded current d.entity.fields m.document)
      fun changes changes' hchanges => ?_
    subst hchanges
    have hparts : updateParts (if (Document.rename k.rename changes).isEmpty then none
        else some (Document.rename k.rename changes)) m.unset =
        Document.rename k.rename
          (updateParts (if changes.isEmpty then none else some changes) m.unset) := by
      rw [← updateParts_rename, Document.rename, Record.mapValues, List.isEmpty_map]
      split <;> rfl
    rw [hparts]
    generalize updateParts (if changes.isEmpty then none else some changes) m.unset = parts
    rw [show (Document.rename k.rename parts).isEmpty = parts.isEmpty from List.isEmpty_map]
    split
    · exact .pure rfl
    · exact mirrors_update h d.collection ho parts

/-- **Saving** mirrors itself when the changes to its children do. -/
theorem mirrors_saveIn_of (h : x.Retakes p k) {d : Descriptor}
    (hd : d ∈ Record.values x.registry.descriptors) (link : Option ParentLink) {args : Value}
    (hargs : Value.Settled k.rename args)
    (hdeltas : ∀ id, Mirrors p k i j (fun _ _ =>
      True) (x.applyDeltas ops d id i args d.entity.fields)
        (x.applyDeltas ops d (id.rename k.rename) j args d.entity.fields)) :
    Mirrors p k i j (fun v w => w = Document.rename k.rename v) (x.saveIn ops d link i args)
      (x.saveIn ops d (link.map (ParentLink.rename k.rename)) j args) := by
  rw [saveIn_eq (hooks_none h.plain _), saveIn_eq (hooks_none h.plain _)]
  refine mirrors_materialize_bind h .create d.entity link hargs fun m m' hdocument _ => ?_
  have hfirst : inFirstState d m'.document =
      Document.rename k.rename (inFirstState d m.document) := by
    unfold inFirstState
    rw [hdocument]
    split
    · rename_i machine hmachine
      have hstate : Value.Settled k.rename (stateName machine.initial) := fun o ho =>
        h.settled_machine hd hmachine o (List.mem_append_left _ ho)
      rw [Document.rename_put, hstate.rename_eq]
    · rfl
  rw [hfirst]
  refine .bind ((MemoryStore.mirrors_create _ _).of_actsOn (h.store.create _ _ _)
    (h.store.create _ _ _)) (fun stored => .lift_bind fun id =>
      .bind (climbs_applyDeltas h.store h.plain d id args _) fun _ => .pure _)
    fun stored stored' hstored => ?_
  subst hstored
  have hid : Corresponds k.rename (fun id id' => id' = id.rename k.rename) (documentId stored)
      (documentId (Document.rename k.rename stored)) := by
    rw [documentId, documentId, Document.get?_rename]
    rcases Record.get? stored "_id" with _ | id
    · exact .refused rfl
    · exact .ok rfl
  refine .lift_bind hid fun id id' hid => ?_
  subst hid
  exact .bind (hdeltas id) (fun _ => .pure _) fun _ _ _ => .pure rfl

/-- **Changing** mirrors itself when the changes to its children do. -/
theorem mirrors_updateIn_of (h : x.Retakes p k) (d : Descriptor) (link : Option ParentLink)
    {args : Value} (hargs : Value.Settled k.rename args)
    (hdeltas : ∀ id, Mirrors p k i j (fun _ _ =>
      True) (x.applyDeltas ops d id i args d.entity.fields)
        (x.applyDeltas ops d (id.rename k.rename) j args d.entity.fields)) :
    Mirrors p k i j (fun v w => w = v.map (Document.rename k.rename)) (x.updateIn ops d link i args)
      (x.updateIn ops d (link.map (ParentLink.rename k.rename)) j args) := by
  rw [updateIn_eq (hooks_none h.plain _), updateIn_eq (hooks_none h.plain _)]
  refine .self_bind (yields_argument hargs "id") fun rawId hraw => ?_
  refine .guard rfl ?_
  refine .self_bind (yields_toReference hraw) fun o ho => ?_
  refine mirrors_materialize_bind h .update d.entity link hargs fun m m' hdocument hunset => ?_
  have hchildren := hdeltas (.id o)
  rw [Value.rename_id ho] at hchildren
  refine .bind hchildren (fun _ => (unhooked_climbs h.store h.plain).moves_revise d rawId o m')
    fun _ _ _ => ?_
  exact mirrors_revise h d rawId ho hdocument hunset

mutual

/-- **Trees of writes mirror themselves.** -/
theorem mirrors_saveIn (h : x.Retakes p k) {d : Descriptor}
    (hd : d ∈ Record.values x.registry.descriptors) (link : Option ParentLink) (args : Value)
    (hargs : Value.Settled k.rename args) :
    Mirrors p k i j (fun v w => w = Document.rename k.rename v) (x.saveIn ops d link i args)
      (x.saveIn ops d (link.map (ParentLink.rename k.rename)) j args) :=
  mirrors_saveIn_of h hd link hargs fun id => mirrors_applyDeltas h d id args hargs d.entity.fields
termination_by (sizeOf args, 2, 0)

/-- **Updating** mirrors itself. -/
theorem mirrors_updateIn (h : x.Retakes p k) (d : Descriptor) (link : Option ParentLink)
    (args : Value) (hargs : Value.Settled k.rename args) :
    Mirrors p k i j (fun v w => w = v.map (Document.rename k.rename)) (x.updateIn ops d link i args)
      (x.updateIn ops d (link.map (ParentLink.rename k.rename)) j args) :=
  mirrors_updateIn_of h d link hargs fun id => mirrors_applyDeltas h d id args hargs d.entity.fields
termination_by (sizeOf args, 2, 0)

/-- The changes of lists mirror themselves, list by list. -/
theorem mirrors_applyDeltas (h : x.Retakes p k) (d : Descriptor) (parent args : Value)
    (hargs : Value.Settled k.rename args) : ∀ fields : List FieldDef,
    Mirrors p k i j (fun _ _ => True) (x.applyDeltas ops d parent i args fields)
      (x.applyDeltas ops d (parent.rename k.rename) j args fields)
  | [] => by
    rw [applyDeltas, applyDeltas]
    exact .pure trivial
  | f :: rest => by
    have hrest := mirrors_applyDeltas h d parent args hargs rest
    rw [applyDeltas, applyDeltas]
    split
    · exact hrest
    · rename_i delta hdelta
      have := sizeOf_deltaOf?_lt hdelta
      obtain ⟨hadded, hupdated⟩ := settled_delta hargs hdelta
      refine .guard rfl ?_
      refine .self_bind (yields_descriptor x _) fun e he => ?_
      refine .bind (mirrors_saveAll h he (f.connectionField, parent) delta.added hadded) (fun _ =>
        .bind (climbs_updateAll h.store h.plain e _ delta.updated) fun _ =>
          climbs_applyDeltas h.store h.plain d _ args rest) fun _ _ _ => ?_
      exact .bind (mirrors_updateAll h e (f.connectionField, parent) delta.updated hupdated)
        (fun _ => climbs_applyDeltas h.store h.plain d _ args rest) fun _ _ _ => hrest
termination_by fields => (sizeOf args, 1, fields.length)

/-- Adding children mirrors itself. -/
theorem mirrors_saveAll (h : x.Retakes p k) {d : Descriptor}
    (hd : d ∈ Record.values x.registry.descriptors) (link : ParentLink) : ∀ items : List Value,
    (∀ v ∈ items, Value.Settled k.rename v) →
    Mirrors p k i j (fun _ _ => True) (x.saveAll ops d link i items)
      (x.saveAll ops d (link.rename k.rename) j items)
  | [], _ => by
    rw [saveAll, saveAll]
    exact .pure trivial
  | v :: rest, hitems => by
    rw [saveAll, saveAll]
    refine .bind (mirrors_saveIn h hd (some link) v (hitems v (List.mem_cons_self ..)))
      (fun _ => climbs_saveAll h.store h.plain d _ rest) fun _ _ _ => ?_
    exact mirrors_saveAll h hd link rest fun w hw => hitems w (List.mem_cons_of_mem _ hw)
termination_by items => (sizeOf items, 0, 0)

/-- Changing children does as well. -/
theorem mirrors_updateAll (h : x.Retakes p k) (d : Descriptor) (link : ParentLink) :
    ∀ items : List Value, (∀ v ∈ items, Value.Settled k.rename v) →
    Mirrors p k i j (fun _ _ => True) (x.updateAll ops d link i items)
      (x.updateAll ops d (link.rename k.rename) j items)
  | [], _ => by
    rw [updateAll, updateAll]
    exact .pure trivial
  | v :: rest, hitems => by
    rw [updateAll, updateAll]
    refine .bind (mirrors_updateIn h d (some link) v (hitems v (List.mem_cons_self ..)))
      (fun _ => climbs_updateAll h.store h.plain d _ rest) fun _ _ _ => ?_
    exact mirrors_updateAll h d link rest fun w hw => hitems w (List.mem_cons_of_mem _ hw)
termination_by items => (sizeOf items, 0, 0)

end

/-- **Removal** mirrors itself. -/
theorem mirrors_deleteIn (h : x.Retakes p k) (d : Descriptor) {target : Value}
    (htarget : Value.Settled k.rename target) :
    Mirrors p k i j (fun v w => w = v.map (Document.rename k.rename)) (x.deleteIn ops d i target)
      (x.deleteIn ops d j target) := by
  rw [deleteIn_eq (hooks_none h.plain _), deleteIn_eq (hooks_none h.plain _)]
  have hraw : Value.Settled k.rename (deletionId target) := by
    cases target with
    | object fs =>
      change Value.Settled k.rename ((Record.get? fs "id").getD .null)
      rcases hv : Record.get? fs "id" with _ | v
      · exact Value.settled_null
      · exact htarget.get? hv
    | _ => exact htarget
  dsimp only
  refine .guard rfl ?_
  refine .self_bind (yields_toReference hraw) fun o ho => ?_
  have hargs : Value.Settled k.rename (.object [("id", .id o)]) := by
    refine Value.settled_object.2 fun e he => ?_
    obtain rfl := List.mem_singleton.1 he
    refine fun o' ho' => ?_
    obtain rfl := List.mem_singleton.1 ho'
    exact ho
  refine mirrors_materialize_bind h .delete d.entity none hargs fun _ _ _ _ => ?_
  refine mirrors_findById_bind h d.collection ho fun found => ?_
  cases found with
  | none => exact .throw (.same _) rfl
  | some current =>
    have hdelete := @MemoryStore.mirrors_delete k i j d.collection (.id o)
    rw [Value.rename_id ho] at hdelete
    exact hdelete.of_actsOn (h.store.delete _ _ _) (h.store.delete _ _ _)

/-- **State actions** mirror themselves. -/
theorem mirrors_transition (h : x.Retakes p k) {d : Descriptor}
    (hd : d ∈ Record.values x.registry.descriptors) {name : String} {action : StateAction}
    (haction : stateAction d name = .ok action) {args : Value}
    (hargs : Value.Settled k.rename args) :
    Mirrors p k i j (fun v w => w = v.map (Document.rename k.rename))
      (x.transition ops d name action args i) (x.transition ops d name action args j) := by
  obtain ⟨machine, hmachine, hget⟩ := get?_of_stateAction haction
  have hstates : ∀ o ∈ (stateName action.source).mentioned ++ (stateName action.target).mentioned,
      k.rename o = o := fun o ho => by
    refine h.settled_machine hd hmachine o
      (List.mem_append_right _ (List.mem_flatMap.2 ⟨action, ?_, ho⟩))
    exact List.mem_map_of_mem (Record.mem_of_get?_eq_some hget)
  have hsource : Value.Settled k.rename (stateName action.source) := fun o ho =>
    hstates o (List.mem_append_left _ ho)
  have htarget : Value.Settled k.rename (stateName action.target) := fun o ho =>
    hstates o (List.mem_append_right _ ho)
  refine .self_bind (yields_argument hargs "id") fun rawId hraw => ?_
  refine .guard rfl ?_
  refine .self_bind (yields_toReference hraw) fun o ho => ?_
  refine mirrors_findById_bind h d.collection ho fun found => ?_
  cases found with
  | none => exact .throw (.same _) rfl
  | some current =>
    rw [Option.map_some]
    dsimp only
    rw [Document.get?_rename]
    have hstate : ((Record.get? current stateField).map (Value.rename k.rename)).getD .null =
        ((Record.get? current stateField).getD .null).rename k.rename := by
      rcases Record.get? current stateField with _ | v <;> rfl
    rw [hstate]
    generalize (Record.get? current stateField).getD .null = state
    have hsame : (state.rename k.rename).eq (stateName action.source) =
        state.eq (stateName action.source) := by
      rw [← Value.eq_rename k.injective state, hsource.rename_eq]
    rw [hsame]
    split
    · exact .throw (.state state) rfl
    cases args with
    | object fs =>
      refine mirrors_updateIn h d none _ (Value.settled_object.2 fun e he => ?_)
      rcases Record.mem_put he with he | rfl
      · exact Value.settled_object.1 hargs e he
      · exact htarget
    | _ => exact .throw (.same _) rfl

end Mirroring

end Executor

end EntityGraph

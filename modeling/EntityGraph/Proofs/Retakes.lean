import EntityGraph.Proofs.Renaming
import EntityGraph.Proofs.Session
import EntityGraph.Proofs.Transition

/-!
# Retakes

An attempt of a transaction that follows others which met conflicts does what the first attempt does
without conflicts, with other identifiers: those that the earlier attempts used up are skipped. The
two runs are compared step by step. They are **in step** (`InStep`) when the private copy of the one
is the renamed private copy of the other, and an action **mirrors** another (`Mirrors`) when from
states in step it leads to states in step with corresponding outcomes, unless it meets a conflict.
Every operation of the store mirrors itself, and so does every tree of writes that runs no user
code.
-/

namespace EntityGraph

variable {τ S α β : Type} {ρ : ObjectId → ObjectId}

/-! ## Computations without conflicts -/

/-- What the computation returns satisfies `Q`, and a failure asks for no other attempt. -/
def Yields (Q : α → Prop) : Outcome α → Prop
  | .ok v => Q v
  | .error e => e.isTransient = false

namespace Yields

variable {Q : α → Prop} {P : β → Prop} {o : Outcome α}

/-- **Sequencing** outcomes that yield what is asked for. -/
theorem bind (h : Yields Q o) {f : α → Outcome β} (hf : ∀ v, Q v → Yields P (f v)) :
    Yields P (o >>= f) := by
  cases o with
  | ok v => exact hf v h
  | error e => exact h

end Yields

/-- A look-up yields a descriptor of the registry. -/
theorem yields_lookup (r : Registry) (name : String) :
    Yields (fun d => d ∈ Record.values r.descriptors) (r.lookup name) := by
  unfold Registry.lookup
  split
  · rename_i d hd
    exact List.mem_map_of_mem (Record.mem_of_get?_eq_some hd)
  · rfl

theorem yields_descriptor (x : Executor τ S) (entity : String) :
    Yields (fun d => d ∈ Record.values x.registry.descriptors) (x.descriptor entity) := by
  refine (yields_lookup x.registry entity).bind fun d hd => ?_
  split
  · exact hd
  · rfl

theorem yields_kind (f : FieldDef) : Yields (fun _ => True) f.kind := by
  unfold FieldDef.kind
  repeat' split
  all_goals first | exact trivial | rfl

theorem yields_argument {args : Value} (h : Value.Settled ρ args) (name : String) :
    Yields (Value.Settled ρ) (Executor.argument args name) := by
  cases args with
  | object fs =>
    change Value.Settled ρ ((Record.get? fs name).getD .null)
    rcases hv : Record.get? fs name with _ | v
    · exact Value.settled_null
    · exact h.get? hv
  | _ => rfl

/-- The identifier that a settled value stands for stays. -/
theorem settled_readId? {v : Value} (h : Value.Settled ρ v) {o : ObjectId}
    (ho : readId? v = some o) :
    ρ o = o := by
  refine h o ?_
  cases v with
  | id p =>
    cases ho
    exact List.mem_singleton_self o
  | text s => exact Option.mem_toList.2 ho
  | _ => cases ho

/-- The identifier that a settled value refers to is not renamed. -/
theorem yields_toReference {v : Value} (h : Value.Settled ρ v) :
    Yields (fun o => ρ o = o) (toReference v) := by
  unfold toReference
  extract_lets inner
  have hinner : Value.Settled ρ inner := by
    cases v with
    | object fs =>
      change Value.Settled ρ ((Record.get? fs "id").getD (.object fs))
      rcases hw : Record.get? fs "id" with _ | w
      · exact h
      · exact h.get? hw
    | _ => exact h
  split
  · rename_i o ho
    exact settled_readId? hinner ho
  · rfl

mutual

/-- Moments hold no identifiers to rename. -/
theorem yields_coerceMoment (type : String) :
    ∀ v : Value, Yields (fun w => w.rename ρ = w) (coerceMoment type v)
  | .list items => by
    rw [coerceMoment]
    refine (yields_coerceMoments type items).bind fun ws hws => ?_
    change (Value.list ws).rename ρ = .list ws
    rw [Value.rename_list, hws]
  | .null => by
    rw [coerceMoment]
    rfl
  | .moment m => by
    rw [coerceMoment]
    rfl
  | .bool b => by
    rw [coerceMoment]
    rfl
  | .int i => by
    rw [coerceMoment, coerceMoment.single]
    split <;> rfl
  | .float x => by
    rw [coerceMoment, coerceMoment.single]
    split <;> rfl
  | .text s => by
    rw [coerceMoment, coerceMoment.single]
    split <;> rfl
  | .id o => by
    rw [coerceMoment]
    rfl
  | .object fs => by
    rw [coerceMoment]
    rfl
  | .member e n => by
    rw [coerceMoment]
    rfl

theorem yields_coerceMoments (type : String) :
    ∀ items : List Value, Yields (fun ws => ws.map (Value.rename ρ) = ws) (coerceMoments type items)
  | [] => rfl
  | v :: rest => by
    rw [coerceMoments]
    refine (yields_coerceMoment type v).bind fun w hw => ?_
    refine (yields_coerceMoments type rest).bind fun ws hws => ?_
    change (w :: ws).map (Value.rename ρ) = w :: ws
    rw [List.map_cons, hw, hws]

end

/-- What is stored for a settled scalar is fixed. -/
theorem yields_coerceScalar (f : FieldDef) {v : Value} (h : Value.Settled ρ v) :
    Yields (fun w => w.rename ρ = w) (coerceScalar f v) := by
  unfold coerceScalar
  split
  · rfl
  · split
    · exact (yields_toReference h).bind fun o ho => Value.rename_id ho
    · split
      · exact yields_coerceMoment _ v
      · exact h.rename_eq

/-- The same for a list of scalars. -/
theorem yields_coerceScalars (f : FieldDef) {items : List Value}
    (h : ∀ v ∈ items, Value.Settled ρ v) :
    Yields (fun ws => ws.map (Value.rename ρ) = ws) (coerceScalars f items) := by
  induction items with
  | nil => rfl
  | cons v rest ih =>
    rw [coerceScalars]
    refine (yields_coerceScalar f (h v (List.mem_cons_self ..))).bind fun w hw => ?_
    refine (ih fun u hu => h u (List.mem_cons_of_mem _ hu)).bind fun ws hws => ?_
    change (w :: ws).map (Value.rename ρ) = w :: ws
    rw [List.map_cons, hw, hws]

/-- Setting along a path raises no transient fault. -/
theorem yields_setSegments (v : Value) :
    ∀ (segments : List String) (d : Document), Yields (fun _ => True) (setSegments segments v d)
  | [], _ => trivial
  | [_], _ => trivial
  | s :: s' :: rest, d => by
    rw [setSegments_cons]
    have hwithin : Yields (fun _ => True) (within? d s) := by
      rw [within?]
      repeat' split
      all_goals first | exact trivial | rfl
    refine hwithin.bind fun inner _ => ?_
    exact (yields_setSegments v (s' :: rest) inner).bind fun _ _ => trivial

theorem yields_mapM {f : α → Outcome β} (h : ∀ v, Yields (fun _ => True) (f v)) (xs : List α) :
    Yields (fun _ => True) (xs.mapM f) := by
  induction xs with
  | nil => exact trivial
  | cons x rest ih =>
    rw [List.mapM_cons]
    exact (h x).bind fun _ _ => ih.bind fun _ _ => trivial

namespace MemoryStore

theorem yields_setPaths (fs d : Document) : Yields (fun _ => True) (setPaths fs d) := by
  induction fs generalizing d with
  | nil => exact trivial
  | cons e rest ih =>
    rw [setPaths]
    exact (yields_setSegments e.2 _ d).bind fun d' _ => ih d'

theorem yields_unsetPaths (v : Value) : Yields (fun _ => True) (unsetPaths v) := by
  cases v with
  | list items =>
    refine yields_mapM (fun w => ?_) items
    cases w <;> first | exact trivial | rfl
  | object fs => exact trivial
  | text s => exact trivial
  | _ => rfl

/-- Neither does an update. -/
theorem yields_applyUpdate (update : Value) (d : Document) :
    Yields (fun _ => True) (applyUpdate update d) := by
  cases update with
  | object parts =>
    unfold applyUpdate
    dsimp only
    split
    · refine (yields_setPaths _ d).bind fun d' _ => ?_
      exact (yields_unsetPaths _).bind fun _ _ => trivial
    · rfl
  | _ => rfl

/-- Nor the check whether a value is held. -/
theorem yields_holdsValue (id : Value) (values : List Value) (path : String) (c : Collection) :
    Yields (fun _ => True) (holdsValue id values path c) := by
  induction c with
  | nil => exact trivial
  | cons e rest ih =>
    rw [holdsValue]
    split
    · rfl
    · split
      · exact ih
      · split
        · exact trivial
        · exact ih

/-- Nor the check of the unique paths. -/
theorem yields_checkUnique (bucket : Collection) (collection : String) (d : Document)
    (paths : List String) : Yields (fun _ => True) (checkUnique bucket collection d paths) := by
  induction paths with
  | nil => exact trivial
  | cons path rest ih =>
    rw [checkUnique]
    dsimp only
    split
    · exact ih
    · split
      · rfl
      · refine (yields_holdsValue _ _ path bucket).bind fun held _ => ?_
        split
        · rfl
        · exact ih

end MemoryStore

/-! ## Corresponding outcomes -/

/-- **Faults after a renaming**: the same, but that the message may show a renamed value. -/
inductive Fault.Renamed (ρ : ObjectId → ObjectId) : Fault → Fault → Prop where
  | same (e : Fault) : Renamed ρ e e
  | duplicate (id : Value) (collection : String) :
      Renamed ρ (Reason.duplicateId id collection).fault
        (Reason.duplicateId (id.rename ρ) collection).fault
  | state (state : Value) :
      Renamed ρ (Reason.illegalState state).fault (Reason.illegalState (state.rename ρ)).fault

/-- A renamed fault is as transient as the fault. -/
theorem Fault.Renamed.isTransient_eq {e f : Fault} (h : e.Renamed ρ f) :
    f.isTransient = e.isTransient := by
  cases h <;> rfl

/-- **Corresponding outcomes**: both computations return, and the values correspond along `Q`, or
both fail for the same reason, which is no conflict. -/
inductive Corresponds (ρ : ObjectId → ObjectId) (Q : α → β → Prop) : Outcome α → Outcome β →
    Prop where
  | ok {v : α} {w : β} (h : Q v w) : Corresponds ρ Q (.ok v) (.ok w)
  | error {e f : Fault} (h : e.Renamed ρ f) (he : e.isTransient = false) :
      Corresponds ρ Q (.error e) (.error f)

namespace Corresponds

variable {α' β' : Type} {Q : α → β → Prop} {Q' : α' → β' → Prop}

/-- A failure that no renaming changes. -/
theorem refused {e : Fault} (he : e.isTransient = false) :
    Corresponds ρ Q (.error e) (.error e) := .error (.same e) he

/-- A computation corresponds to itself. -/
theorem self {P : α → Prop} {o : Outcome α} (h : Yields P o) :
    Corresponds ρ (fun v w => w = v ∧ P v) o o := by
  cases o with
  | ok v => exact .ok ⟨rfl, h⟩
  | error e => exact refused h

/-- A computation corresponds to one that gives the image of what it gives. -/
theorem image {g : α → β} {o : Outcome α} {o' : Outcome β} (ho : o' = o.map g)
    (h : Yields (fun _ => True) o) : Corresponds ρ (fun v w => w = g v) o o' := by
  subst ho
  cases o with
  | ok v => exact .ok rfl
  | error e => exact refused h

/-- **Sequencing** outcomes that correspond. -/
theorem bind {o : Outcome α} {o' : Outcome β} {f : α → Outcome α'} {f' : β → Outcome β'}
    (h : Corresponds ρ Q o o') (hf : ∀ v w, Q v w → Corresponds ρ Q' (f v) (f' w)) :
    Corresponds ρ Q' (o >>= f) (o' >>= f') := by
  cases h with
  | ok h => exact hf _ _ h
  | error h he => exact .error h he

/-- Neither outcome asks for another attempt. -/
theorem not_transient {o : Outcome α} {o' : Outcome β} (h : Corresponds ρ Q o o') :
    (∀ e, o = .error e → e.isTransient = false) ∧ ∀ e, o' = .error e → e.isTransient = false := by
  cases h with
  | ok _ => exact ⟨fun e he => (by cases he), fun e he => (by cases he)⟩
  | error hrenamed he =>
    refine ⟨fun f hf => ?_, fun f hf => ?_⟩
    · cases hf
      exact he
    · cases hf
      rw [hrenamed.isTransient_eq, he]

end Corresponds

/-! ## Runs in step -/

/-- **A retake** of an attempt, on a store that differs from the one of the first take in what
conflicts are injected and in that `offset` more identifiers were made. It may draw numbers up to a
limit, and up to there the renaming takes an identifier of the first take to the one that the retake
makes in its place. -/
structure Retake where
  rename : ObjectId → ObjectId
  injective : Function.Injective rename
  /-- the store on which the retake begins -/
  store : MemoryStore
  offset : Nat
  limit : Nat
  renames : ∀ n, store.lastId < n + offset → n + offset ≤ limit →
    rename (.ofNat n) = .ofNat (n + offset)

/-- Nothing is committed or set up on the way from one store to another. -/
structure MemoryStore.Uncommitted (m m' : MemoryStore) : Prop where
  collections : m'.collections = m.collections
  schemas : m'.schemas = m.schemas
  commits : m'.commits = m.commits

/-- **In step**: session `i` of the first take and session `j` of the retake have done the same so
far. -/
structure InStep (k : Retake) (i j : SessionId) (m m' : MemoryStore) : Prop where
  transaction : ∃ t, m.transaction? (some i) = some t ∧
    m'.transaction? (some j) = some (t.rename k.rename)
  first : k.store.Uncommitted m
  retake : k.store.Uncommitted m'
  calm : m.failures = []
  failures : m'.failures = k.store.failures
  lastId : m'.lastId = m.lastId + k.offset
  started : k.store.lastId ≤ m'.lastId

/-- The operations of the store that conflicts are injected for. -/
def injectable : List String := ["create", "update", "delete", "commit"]

/-- **Struck**: the retake ended with a conflict, and up to there it was in step. -/
def Struck (k : Retake) (i j : SessionId) (r : Outcome α) (m'' : MemoryStore) : Prop :=
  ∃ m m' operation, InStep k i j m m' ∧ operation ∈ injectable ∧ m'.conflicts operation ∧
    r = .error (Reason.writeConflict operation).fault ∧ m'' = m'.spend operation

/-- Between two states no identifier was given back. -/
def Ascends (p : τ → MemoryStore) (t t' : τ) : Prop := (p t).lastId ≤ (p t').lastId

/-- The action gives no identifier back. -/
def Climbs (p : τ → MemoryStore) (a : Action τ α) : Prop := Moves (Ascends p) (fun _ => True) a

/-- **Mirroring**: from states in step, the two actions lead to states in step with corresponding
outcomes, unless the retake meets a conflict or draws numbers beyond its limit. -/
def Mirrors (p : τ → MemoryStore) (k : Retake) (i j : SessionId) (Q : α → β → Prop) (a : Action τ α)
    (a' : Action τ β) : Prop :=
  ∀ t t', InStep k i j (p t) (p t') → (p (a'.run.run t').2).lastId ≤ k.limit →
    Struck k i j (a'.run.run t').1 (p (a'.run.run t').2) ∨
      InStep k i j (p (a.run.run t).2) (p (a'.run.run t').2) ∧
        Corresponds k.rename Q (a.run.run t).1 (a'.run.run t').1

namespace Climbs

variable {p : τ → MemoryStore}

theorem refl (t : τ) : Ascends p t t := Nat.le_refl _

theorem trans (t t' t'' : τ) (h : Ascends p t t') (h' : Ascends p t' t'') : Ascends p t t'' :=
  Nat.le_trans h h'

theorem pure (v : α) : Climbs p (Pure.pure v : Action τ α) := Moves.pure refl trivial

theorem throw (e : Fault) : Climbs p (MonadExcept.throw e : Action τ α) := Moves.throw refl e

/-- **Sequencing** actions that climb. -/
theorem bind {a : Action τ α} {f : α → Action τ β} (ha : Climbs p a) (hf : ∀ v, Climbs p (f v)) :
    Climbs p (a >>= f) :=
  Moves.bind trans ha fun v _ => hf v

theorem lift_bind {o : Outcome α} {f : α → Action τ β} (hf : ∀ v, Climbs p (f v)) :
    Climbs p (liftM o >>= f) :=
  Moves.lift_bind refl fun v _ => hf v

/-- A guard in front of an action that climbs. -/
theorem guard {c : Prop} [Decidable c] {e : Fault} {f : PUnit → Action τ α} (hf : Climbs p (f ⟨⟩)) :
    Climbs p (if c then MonadExcept.throw e >>= f else f ⟨⟩) :=
  Moves.guard refl fun _ => hf

theorem observe {a : Action τ α} (ha : Climbs p a) : Climbs p a.observe :=
  fun t => ⟨(ha t).1, fun _ _ => trivial⟩

end Climbs

namespace Mirrors

variable {α' β' : Type} {p : τ → MemoryStore} {k : Retake} {i j : SessionId} {Q : α → β → Prop}
  {Q' : α' → β' → Prop}

theorem pure {v : α} {w : β} (h : Q v w) :
    Mirrors p k i j Q (Pure.pure v : Action τ α) (Pure.pure w : Action τ β) :=
  fun _ _ hstep _ => .inr ⟨hstep, .ok h⟩

/-- Raising mirrors raising the renamed fault, which no retry follows. -/
theorem throw {e f : Fault} (h : e.Renamed k.rename f) (he : e.isTransient = false) :
    Mirrors p k i j Q (MonadExcept.throw e : Action τ α) (MonadExcept.throw f : Action τ β) :=
  fun _ _ hstep _ => .inr ⟨hstep, .error h he⟩

/-- Sequencing, from two states on where the first actions are done. -/
theorem bind_at {a : Action τ α} {a' : Action τ β} {f : α → Action τ α'} {f' : β → Action τ β'}
    {t t' : τ} (ha : Struck k i j (a'.run.run t').1 (p (a'.run.run t').2) ∨
      InStep k i j (p (a.run.run t).2) (p (a'.run.run t').2) ∧
        Corresponds k.rename Q (a.run.run t).1 (a'.run.run t').1)
    (hlimit : (p ((a' >>= f').run.run t').2).lastId ≤ k.limit)
    (hf : ∀ v w, Q v w → Mirrors p k i j Q' (f v) (f' w)) :
    Struck k i j ((a' >>= f').run.run t').1 (p ((a' >>= f').run.run t').2) ∨
      InStep k i j (p ((a >>= f).run.run t).2) (p ((a' >>= f').run.run t').2) ∧
        Corresponds k.rename Q' ((a >>= f).run.run t).1 ((a' >>= f').run.run t').1 := by
  rw [Action.run_bind] at hlimit ⊢
  rw [Action.run_bind]
  rcases hr' : a'.run.run t' with ⟨r', u'⟩
  rcases hr : a.run.run t with ⟨r, u⟩
  rw [hr, hr'] at ha
  rw [hr'] at hlimit
  rcases ha with hstruck | ⟨hstep, hr⟩
  · obtain ⟨m, m', op, hm, hop, hc, rfl, hend⟩ := hstruck
    exact .inl ⟨m, m', op, hm, hop, hc, rfl, hend⟩
  · cases hr with
    | ok h => exact hf _ _ h u u' hstep hlimit
    | error h he => exact .inr ⟨hstep, .error h he⟩

/-- **Sequencing.** The first action stays below the limit because the second one gives no
identifiers back. -/
theorem bind {a : Action τ α} {a' : Action τ β} {f : α → Action τ α'} {f' : β → Action τ β'}
    (ha : Mirrors p k i j Q a a') (hclimbs : ∀ w, Climbs p (f' w))
    (hf : ∀ v w, Q v w → Mirrors p k i j Q' (f v) (f' w)) :
    Mirrors p k i j Q' (a >>= f) (a' >>= f') := by
  intro t t' hstep hlimit
  refine bind_at (ha t t' hstep ?_) hlimit hf
  rw [Action.run_bind] at hlimit
  rcases hr' : a'.run.run t' with ⟨e | w, u'⟩
  · rw [hr'] at hlimit
    exact hlimit
  · rw [hr'] at hlimit
    exact Nat.le_trans (hclimbs w u').1 hlimit

/-- Sequencing after pure computations. -/
theorem lift_bind {o : Outcome α} {o' : Outcome β} {f : α → Action τ α'} {f' : β → Action τ β'}
    (h : Corresponds k.rename Q o o') (hf : ∀ v w, Q v w → Mirrors p k i j Q' (f v) (f' w)) :
    Mirrors p k i j Q' (liftM o >>= f) (liftM o' >>= f') := by
  cases h with
  | ok h => exact hf _ _ h
  | error h he => exact throw h he

/-- Sequencing after one pure computation. -/
theorem self_bind {P : α → Prop} {o : Outcome α} {f : α → Action τ α'} {f' : α → Action τ β'}
    (h : Yields P o) (hf : ∀ v, P v → Mirrors p k i j Q' (f v) (f' v)) :
    Mirrors p k i j Q' (liftM o >>= f) (liftM o >>= f') :=
  lift_bind (Corresponds.self h) fun v w hvw => by
    obtain ⟨rfl, hv⟩ := hvw
    exact hf w hv

/-- The same check in front of both. -/
theorem guard {c : Prop} [Decidable c] {e : Fault} (he : e.isTransient = false)
    {f : PUnit → Action τ α} {f' : PUnit → Action τ β} (hf : Mirrors p k i j Q (f ⟨⟩) (f' ⟨⟩)) :
    Mirrors p k i j Q (if c then MonadExcept.throw e >>= f else f ⟨⟩)
      (if c then MonadExcept.throw e >>= f' else f' ⟨⟩) := by
  split
  · exact throw (.same e) he
  · exact hf

/-- Actions on the part `p` mirror each other when those on the memory store do. -/
theorem of_actsOn {a : Action τ α} {a' : Action τ β} {b : Action MemoryStore α}
    {b' : Action MemoryStore β} (h : Mirrors id k i j Q b b') (ha : ActsOn p a b)
    (ha' : ActsOn p a' b') : Mirrors p k i j Q a a' := by
  intro t t' hstep hlimit
  obtain ⟨h₁, h₂⟩ := ha t
  obtain ⟨h₁', h₂'⟩ := ha' t'
  rw [h₂'] at hlimit
  rw [h₁, h₂, h₁', h₂']
  exact h _ _ hstep hlimit

end Mirrors

/-! ## The store -/

namespace MemoryStore.Uncommitted

variable {m m' m'' : MemoryStore}

theorem trans (h : m.Uncommitted m') (h' : m'.Uncommitted m'') : m.Uncommitted m'' :=
  ⟨h'.collections.trans h.collections, h'.schemas.trans h.schemas, h'.commits.trans h.commits⟩

/-- A write in an open transaction. -/
theorem after {i : SessionId} {t : Transaction} (ht : m'.transaction? (some i) = some t)
    (h : m.Uncommitted m') (w : Write) : m.Uncommitted (m'.after (some i) w) where
  collections := by
    rw [collections_after, ht]
    exact h.collections
  schemas := by rw [schemas_after, h.schemas]
  commits := by rw [commits_after, h.commits]

end MemoryStore.Uncommitted

namespace InStep

variable {k : Retake} {i j : SessionId} {m m' : MemoryStore}

/-- Both takes write. -/
theorem after (h : InStep k i j m m') (w : Write) :
    InStep k i j (m.after (some i) w) (m'.after (some j) (w.rename k.rename)) := by
  obtain ⟨t, ht, ht'⟩ := h.transaction
  refine ⟨⟨t.after w, ?_, ?_⟩, h.first.after ht w, h.retake.after ht' _, ?_, ?_, ?_, ?_⟩
  · rw [MemoryStore.transaction?_after, if_pos rfl, ht]
    rfl
  · rw [MemoryStore.transaction?_after, if_pos rfl, ht', Option.map_some,
      Transaction.after_rename k.injective]
  · rw [MemoryStore.failures_after, h.calm]
  · rw [MemoryStore.failures_after, h.failures]
  · rw [MemoryStore.lastId_after, MemoryStore.lastId_after, h.lastId]
  · rw [MemoryStore.lastId_after]
    exact h.started

/-- Both takes draw a number. -/
theorem numbered (h : InStep k i j m m') : InStep k i j m.numbered m'.numbered :=
  { h with
    lastId := by
      change m'.lastId + 1 = m.lastId + 1 + k.offset
      have := h.lastId
      omega
    started := Nat.le_succ_of_le h.started
    first := ⟨h.first.collections, h.first.schemas, h.first.commits⟩
    retake := ⟨h.retake.collections, h.retake.schemas, h.retake.commits⟩ }

/-- The store of the second take injects no conflicts. -/
theorem calm_of (h : InStep k i j m m') (operation : String) : ¬ m.conflicts operation := by
  unfold MemoryStore.conflicts
  rw [h.calm]
  exact Int.lt_irrefl 0

/-- What both takes see of a collection. -/
theorem view (h : InStep k i j m m') (collection : String) : (m'.view (some j)).get collection =
    Collection.rename k.rename ((m.view (some i)).get collection) := by
  obtain ⟨t, ht, ht'⟩ := h.transaction
  rw [MemoryStore.view_of_open ht, MemoryStore.view_of_open ht']
  exact Collections.get_rename t.working collection

/-- Both takes have the same unique paths. -/
theorem uniquePaths (h : InStep k i j m m') (collection : String) :
    m'.uniquePaths collection = m.uniquePaths collection := by
  rw [MemoryStore.uniquePaths, MemoryStore.uniquePaths, h.retake.schemas, h.first.schemas]

/-- The document to file is renamed, identifier and all. -/
theorem filed (h : InStep k i j m m') (hlimit : m'.lastId + 1 ≤ k.limit) (d : Document) :
    m'.filed (Document.rename k.rename d) = Document.rename k.rename (m.filed d) := by
  unfold MemoryStore.filed
  rw [Document.has_rename]
  split
  · rfl
  · have hn := h.lastId
    have hid : k.rename (.ofNat (m.lastId + 1)) = .ofNat (m'.lastId + 1) := by
      rw [k.renames (m.lastId + 1) (by have := h.started; omega) (by omega)]
      congr 1
      omega
    rw [Document.rename_put, Value.rename, hid]

/-- **What a creation files** is renamed. -/
theorem filing (h : InStep k i j m m') (hlimit : m'.lastId + 1 ≤ k.limit) (collection : String)
    (d : Document) : Corresponds k.rename (fun w w' => w' = w.rename k.rename)
      (m.filing collection d (some i))
      (m'.filing collection (Document.rename k.rename d) (some j)) := by
  unfold MemoryStore.filing
  dsimp only
  obtain ⟨id, hid⟩ := MemoryStore.exists_id_filed m d
  rw [h.filed hlimit, h.uniquePaths, h.view, Document.get?_rename, hid, Option.map_some,
    Option.getD_some, Option.getD_some, Value.isKey_rename, Collection.get?_rename k.injective,
    Option.isSome_map, MemoryStore.checkUnique_rename k.injective]
  rcases id.isKey with _ | _
  · exact Corresponds.refused rfl
  rcases ((m.view (some i)).get collection).get? id with _ | old
  · exact (Corresponds.self (MemoryStore.yields_checkUnique _ _ _ _)).bind fun _ _ _ => .ok rfl
  · exact .error (.duplicate id collection) rfl

/-- What a look-up finds is renamed. -/
theorem lookupId (h : InStep k i j m m') (collection : String) (id : Value) :
    Corresponds k.rename (fun d d' => d' = d.map (Document.rename k.rename))
      (m.lookupId (some i) collection id)
      (m'.lookupId (some j) collection (id.rename k.rename)) := by
  unfold MemoryStore.lookupId
  rw [h.view, Collection.get?_rename k.injective, Value.isKey_rename]
  split
  · exact .ok rfl
  · exact Corresponds.refused rfl

/-- **What an update writes** is renamed. -/
theorem changing (h : InStep k i j m m') (collection : String) (id : Value) (parts : Document) :
    Corresponds k.rename (fun w w' => w' = w.map (Write.rename k.rename))
      (m.changing collection id (.object parts) (some i))
      (m'.changing collection (id.rename k.rename) (.object (Document.rename k.rename parts))
        (some j)) := by
  unfold MemoryStore.changing
  refine (h.lookupId collection id).bind fun d d' hd => ?_
  subst hd
  cases d with
  | none => exact .ok rfl
  | some current =>
    refine (Corresponds.image (MemoryStore.applyUpdate_rename parts current)
      (MemoryStore.yields_applyUpdate _ _)).bind fun updated updated' hupdated => ?_
    subst hupdated
    rw [h.view, h.uniquePaths, MemoryStore.checkUnique_rename k.injective]
    exact (Corresponds.self (MemoryStore.yields_checkUnique _ _ _ _)).bind fun _ _ _ => .ok rfl

end InStep

namespace MemoryStore

variable {k : Retake} {i j : SessionId}

/-- Creation is the one place where identifiers are made. -/
theorem climbs_create (collection : String) (d : Document) (caller : Option SessionId) :
    Climbs id (create collection d caller) := by
  refine fun m => ⟨?_, fun _ _ => trivial⟩
  rw [run_create_eq]
  split
  · exact Climbs.refl (p := id) m
  · rcases m.filing collection d caller with e | w
    · exact Nat.le_succ _
    · refine Nat.le_trans (Nat.le_succ m.lastId) (Nat.le_of_eq ?_)
      exact (lastId_after (m := m.numbered)).symm

theorem climbs_update (collection : String) (id' change : Value) (caller : Option SessionId) :
    Climbs id (update collection id' change caller) := by
  refine fun m => ⟨?_, fun _ _ => trivial⟩
  rw [run_update_eq]
  split
  · exact Climbs.refl (p := id) m
  · rcases m.changing collection id' change caller with e | _ | w
    · exact Climbs.refl (p := id) m
    · exact Climbs.refl (p := id) m
    · exact Nat.le_of_eq lastId_after.symm

theorem climbs_delete (collection : String) (id' : Value) (caller : Option SessionId) :
    Climbs id (delete collection id' caller) := by
  refine fun m => ⟨?_, fun _ _ => trivial⟩
  rw [run_delete_eq]
  split
  · exact Climbs.refl (p := id) m
  · rcases m.lookupId caller collection id' with e | _ | d
    · exact Climbs.refl (p := id) m
    · exact Climbs.refl (p := id) m
    · exact Nat.le_of_eq lastId_after.symm

theorem climbs_findById (collection : String) (id' : Value) (caller : Option SessionId) :
    Climbs id (findById collection id' caller) :=
  fun m => ⟨Climbs.refl (p := id) m, fun _ _ => trivial⟩

/-- **Creation mirrors itself**: the retake makes the identifier that takes the place of the first
one. -/
theorem mirrors_create (collection : String) (d : Document) :
    Mirrors id k i j (fun v w => w = Document.rename k.rename v) (create collection d (some i))
      (create collection (Document.rename k.rename d) (some j)) := by
  intro m m' hstep hlimit
  dsimp only [id] at hstep hlimit ⊢
  rw [run_create_eq] at hlimit ⊢
  rw [run_create_eq, if_neg (hstep.calm_of "create")]
  by_cases hc : m'.conflicts "create"
  · rw [if_pos hc]
    exact .inl ⟨m, m', "create", hstep, by decide, hc, rfl, rfl⟩
  rw [if_neg hc] at hlimit ⊢
  refine .inr ?_
  have hle : m'.lastId + 1 ≤ k.limit := by
    rcases hw : m'.filing collection (Document.rename k.rename d) (some j) with e | w
    · rw [hw] at hlimit
      exact hlimit
    · rw [hw] at hlimit
      dsimp only at hlimit
      rw [lastId_after] at hlimit
      exact hlimit
  have hfiling := hstep.filing hle collection d
  revert hfiling
  rcases m.filing collection d (some i) with e | w <;>
    rcases m'.filing collection (Document.rename k.rename d) (some j) with e' | w' <;>
    intro hfiling <;> cases hfiling
  · rename_i he h
    exact ⟨hstep.numbered, .error h he⟩
  · rename_i h
    subst h
    exact ⟨hstep.numbered.after w, .ok (hstep.filed hle d)⟩

/-- **Change mirrors itself.** -/
theorem mirrors_update (collection : String) (id' : Value) (parts : Document) :
    Mirrors id k i j (fun v w => w = v.map (Document.rename k.rename))
      (update collection id' (.object parts) (some i))
      (update collection (id'.rename k.rename) (.object (Document.rename k.rename parts)) (some j))
      := by
  intro m m' hstep _
  dsimp only [id] at hstep ⊢
  rw [run_update_eq, run_update_eq, if_neg (hstep.calm_of "update")]
  by_cases hc : m'.conflicts "update"
  · rw [if_pos hc]
    exact .inl ⟨m, m', "update", hstep, by decide, hc, rfl, rfl⟩
  rw [if_neg hc]
  refine .inr ?_
  have hchanging := hstep.changing collection id' parts
  revert hchanging
  rcases m.changing collection id' (.object parts) (some i) with e | w <;>
    rcases m'.changing collection (id'.rename k.rename) (.object (Document.rename k.rename parts))
      (some j) with e' | w' <;>
    intro hchanging <;> cases hchanging
  · rename_i he h
    exact ⟨hstep, .error h he⟩
  · rename_i h
    subst h
    cases w with
    | none => exact ⟨hstep, .ok rfl⟩
    | some w => exact ⟨hstep.after w, .ok rfl⟩

/-- **Removal mirrors itself.** -/
theorem mirrors_delete (collection : String) (id' : Value) :
    Mirrors id k i j (fun v w => w = v.map (Document.rename k.rename))
      (delete collection id' (some i)) (delete collection (id'.rename k.rename) (some j)) := by
  intro m m' hstep _
  dsimp only [id] at hstep ⊢
  rw [run_delete_eq, run_delete_eq, if_neg (hstep.calm_of "delete")]
  by_cases hc : m'.conflicts "delete"
  · rw [if_pos hc]
    exact .inl ⟨m, m', "delete", hstep, by decide, hc, rfl, rfl⟩
  rw [if_neg hc]
  refine .inr ?_
  have hlookup := hstep.lookupId collection id'
  revert hlookup
  rcases m.lookupId (some i) collection id' with e | d <;>
    rcases m'.lookupId (some j) collection (id'.rename k.rename) with e' | d' <;>
    intro hlookup <;> cases hlookup
  · rename_i he h
    exact ⟨hstep, .error h he⟩
  · rename_i h
    subst h
    cases d with
    | none => exact ⟨hstep, .ok rfl⟩
    | some d => exact ⟨hstep.after ⟨collection, id', none⟩, .ok rfl⟩

/-- **Looking up mirrors itself**, and so does what follows when it mirrors on what was found. -/
theorem mirrors_findById_bind {p : τ → MemoryStore} {Q : α → β → Prop} (collection : String)
    (id' : Value) {a a' : Action τ (Option Document)}
    (ha : ActsOn p a (findById collection id' (some i)))
    (ha' : ActsOn p a' (findById collection (id'.rename k.rename) (some j)))
    {f : Option Document → Action τ α} {f' : Option Document → Action τ β}
    (hf : ∀ found, Mirrors p k i j Q (f found) (f' (found.map (Document.rename k.rename)))) :
    Mirrors p k i j Q (a >>= f) (a' >>= f') := by
  intro t t' hstep hlimit
  obtain ⟨h₁, h₂⟩ := ha t
  obtain ⟨h₁', h₂'⟩ := ha' t'
  have hdone : InStep k i j (p (a.run.run t).2) (p (a'.run.run t').2) ∧
      Corresponds k.rename (fun d d' => d' = d.map (Document.rename k.rename)) (a.run.run t).1
        (a'.run.run t').1 := by
    rw [h₁, h₂, h₁', h₂']
    exact ⟨hstep, hstep.lookupId collection id'⟩
  refine Mirrors.bind_at (.inr hdone) hlimit fun found found' hfound => ?_
  subst hfound
  exact hf found

end MemoryStore

end EntityGraph

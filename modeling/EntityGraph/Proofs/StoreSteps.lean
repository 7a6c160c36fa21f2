import EntityGraph.Proofs.Action
import EntityGraph.Proofs.Identity

/-!
# Steps of the memory store

What each operation of the memory store does, for any caller and any state, as an equation. An
operation first meets the conflict that is injected for it, if any (`run_meetConflict_of`). What it
decides then is a pure function of the store: which document a creation files (`filing`), which one
an update changes and into what (`changing`). What it writes goes where the caller's view is
(`after`): into the open transaction of the caller's session, or into the committed documents.
-/

namespace EntityGraph

theorem Outcome.ok_bind {α β : Type} (v : α) (f : α → Outcome β) :
    ((.ok v : Outcome α) >>= f) = f v := rfl

theorem Outcome.error_bind {α β : Type} (e : Fault) (f : α → Outcome β) :
    ((.error e : Outcome α) >>= f) = .error e := rfl

/-! ## Writes -/

/-- A write of one document. -/
structure Write where
  collection : String
  id : Value
  /-- the document afterwards, unless it is removed -/
  document : Option Document

/-- The collections after a write. -/
def Collections.after (cs : Collections) (w : Write) : Collections :=
  MemoryStore.writeTo cs w.collection w.id w.document

/-- An open transaction after a write. -/
def Transaction.after (t : Transaction) (w : Write) : Transaction :=
  ⟨t.working.after w, MemoryStore.noteWrite t.written w.collection w.id⟩

namespace MemoryStore

/-! ## Conflicts -/

/-- Is a conflict injected for the next call of an operation? -/
def conflicts (m : MemoryStore) (operation : String) : Prop :=
  (Record.get? m.failures operation).getD 0 > 0

instance (m : MemoryStore) (operation : String) : Decidable (m.conflicts operation) :=
  inferInstanceAs (Decidable (_ > _))

/-- The store after the conflict was met. -/
def spend (m : MemoryStore) (operation : String) : MemoryStore :=
  { m with failures :=
      Record.put m.failures operation ((Record.get? m.failures operation).getD 0 - 1) }

/-- An operation that is to fail meets a conflict, and one conflict fewer is left. -/
theorem run_meetConflict_of {operation : String} {m : MemoryStore} (h : m.conflicts operation) :
    (meetConflict operation).run.run m =
      (.error (Reason.writeConflict operation).fault, m.spend operation) := by
  rw [meetConflict, Action.run_bind_ok (Action.run_get m)]
  exact congrArg (fun a : Action MemoryStore Unit => a.run.run m) (if_pos h)

/-- Any other operation meets none. -/
theorem run_meetConflict_of_not {operation : String} {m : MemoryStore}
    (h : ¬ m.conflicts operation) : (meetConflict operation).run.run m = (.ok (), m) := by
  rw [meetConflict, Action.run_bind_ok (Action.run_get m)]
  exact congrArg (fun a : Action MemoryStore Unit => a.run.run m) (if_neg h)

/-! ## Writing -/

/-- The store after a write where the caller's view is. -/
def after (m : MemoryStore) (caller : Option SessionId) (w : Write) : MemoryStore :=
  match caller, m.transaction? caller with
  | some i, some t =>
    { m with sessions := m.sessions.modify i ({ · with transaction := some (t.after w) }) }
  | _, _ => { m with collections := m.collections.after w }

section After

variable {m : MemoryStore} {caller : Option SessionId} {w : Write}

/-- In a transaction a write goes to the private copy. -/
theorem after_of_open {i : SessionId} {t : Transaction} (ht : m.transaction? (some i) = some t) :
    m.after (some i) w =
      { m with sessions := m.sessions.modify i ({ · with transaction := some (t.after w) }) } := by
  unfold after
  rw [ht]

/-- Without a transaction a write is committed at once. -/
theorem after_of_none (h : m.transaction? caller = none) :
    m.after caller w = { m with collections := m.collections.after w } := by
  unfold after
  rw [h]
  cases caller <;> rfl

/-- An open transaction belongs to a session. -/
theorem exists_of_transaction? {t : Transaction} (h : m.transaction? caller = some t) :
    ∃ i, caller = some i := by
  cases caller with
  | none => cases h
  | some i => exact ⟨i, rfl⟩

theorem collections_after : (m.after caller w).collections =
    if (m.transaction? caller).isSome then m.collections else m.collections.after w := by
  rcases ht : m.transaction? caller with _ | t
  · rw [after_of_none ht]
    rfl
  · obtain ⟨i, rfl⟩ := exists_of_transaction? ht
    rw [after_of_open ht]
    rfl

/-- A write changes the transaction that it is made in, and no other. -/
theorem transaction?_after (i : SessionId) : (m.after caller w).transaction? (some i) =
    if caller = some i then (m.transaction? (some i)).map (·.after w)
    else m.transaction? (some i) := by
  rcases ht : m.transaction? caller with _ | t
  · rw [after_of_none ht]
    split
    · rename_i h
      subst h
      change m.transaction? (some i) = _
      rw [ht]
      rfl
    · rfl
  · obtain ⟨j, rfl⟩ := exists_of_transaction? ht
    rw [after_of_open ht, transaction?, transaction?, Option.bind_some, Option.bind_some,
      List.getElem?_modify]
    by_cases hj : j = i
    · subst hj
      rw [transaction?, Option.bind_some] at ht
      obtain ⟨x, hx, hxt⟩ := Option.bind_eq_some_iff.1 ht
      simp [hx, hxt]
    · rw [if_neg fun h => hj (Option.some.inj h)]
      rcases m.sessions[i]? with _ | x <;> simp [hj]

@[simp] theorem schemas_after : (m.after caller w).schemas = m.schemas := by
  unfold after
  split <;> rfl

@[simp] theorem failures_after : (m.after caller w).failures = m.failures := by
  unfold after
  split <;> rfl

@[simp] theorem lastId_after : (m.after caller w).lastId = m.lastId := by
  unfold after
  split <;> rfl

@[simp] theorem commits_after : (m.after caller w).commits = m.commits := by
  unfold after
  split <;> rfl

end After

/-! ## Creation, change and removal -/

/-- The document that is stored for a new one. -/
def filed (m : MemoryStore) (d : Document) : Document :=
  if Record.has d "_id" then d else Record.put d "_id" (.id (ObjectId.ofNat (m.lastId + 1)))

/-- A document that is filed has an identifier. -/
theorem exists_id_filed (m : MemoryStore) (d : Document) :
    ∃ id, Record.get? (m.filed d) "_id" = some id := by
  unfold filed
  split
  · rename_i h
    exact Option.isSome_iff_exists.1 h
  · exact ⟨_, Record.get?_put_self ..⟩

/-- Filing adds nothing but the identifier. -/
theorem get?_filed (m : MemoryStore) (d : Document) {key : String} (h : key ≠ "_id") :
    Record.get? (m.filed d) key = Record.get? d key := by
  unfold filed
  split
  · rfl
  · rw [Record.get?_put, if_neg h.symm]

/-- The store after an identifier was made. -/
def numbered (m : MemoryStore) : MemoryStore := { m with lastId := m.lastId + 1 }

/-- What a creation writes. -/
def filing (m : MemoryStore) (collection : String) (d : Document) (caller : Option SessionId) :
    Outcome Write := do
  let stored := m.filed d
  let id := (Record.get? stored "_id").getD .null
  let bucket := (m.view caller).get collection
  if !id.isKey then throw .illTyped
  if (bucket.get? id).isSome then throw (Reason.duplicateId id collection).fault
  checkUnique bucket collection stored (m.uniquePaths collection)
  pure ⟨collection, id, some stored⟩

/-- **Creation** draws an identifier and files the document, or fails. -/
theorem run_create_eq (collection : String) (d : Document) (caller : Option SessionId)
    (m : MemoryStore) :
    (create collection d caller).run.run m =
      if m.conflicts "create" then (.error (Reason.writeConflict "create").fault, m.spend "create")
      else match m.filing collection d caller with
        | .ok w => (.ok (m.filed d), m.numbered.after caller w)
        | .error e => (.error e, m.numbered) := by
  unfold create
  by_cases hc : m.conflicts "create"
  · rw [Action.run_bind_error (run_meetConflict_of hc), if_pos hc]
  · rw [Action.run_bind_ok (run_meetConflict_of_not hc), if_neg hc,
      Action.run_bind_ok (Action.run_get m)]
    dsimp only
    rw [Action.run_bind_ok (Action.run_set _ m)]
    unfold filing
    dsimp only
    change StateT.run (ExceptT.run (show Action MemoryStore Document from do
      if !((Record.get? (m.filed d) "_id").getD .null).isKey then throw .illTyped
      if (((m.view caller).get collection).get?
          ((Record.get? (m.filed d) "_id").getD .null)).isSome then
        throw (Reason.duplicateId ((Record.get? (m.filed d) "_id").getD .null) collection).fault
      checkUnique ((m.view caller).get collection) collection (m.filed d) (m.uniquePaths collection)
      write caller collection ((Record.get? (m.filed d) "_id").getD .null) (some (m.filed d))
      pure (m.filed d))) m.numbered = _
    generalize (Record.get? (m.filed d) "_id").getD .null = id
    rcases id.isKey with _ | _
    · rfl
    rcases (((m.view caller).get collection).get? id).isSome with _ | _
    · simp only [Bool.not_true, Bool.false_eq_true, if_false]
      rw [Action.run_bind, Action.run_lift]
      rcases checkUnique ((m.view caller).get collection) collection (m.filed d)
        (m.uniquePaths collection) with e | ⟨⟩ <;> rfl
    · rfl

/-- What an update writes, if there is a document to change. -/
def changing (m : MemoryStore) (collection : String) (id change : Value)
    (caller : Option SessionId) : Outcome (Option Write) := do
  match ← m.lookupId caller collection id with
  | none => pure none
  | some current =>
    let updated ← applyUpdate change current
    checkUnique ((m.view caller).get collection) collection updated (m.uniquePaths collection)
    pure (some ⟨collection, id, some updated⟩)

/-- **Change** writes the changed document, if there is one, or fails. -/
theorem run_update_eq (collection : String) (id change : Value) (caller : Option SessionId)
    (m : MemoryStore) :
    (update collection id change caller).run.run m =
      if m.conflicts "update" then (.error (Reason.writeConflict "update").fault, m.spend "update")
      else match m.changing collection id change caller with
        | .ok (some w) => (.ok w.document, m.after caller w)
        | .ok none => (.ok none, m)
        | .error e => (.error e, m) := by
  unfold update
  by_cases hc : m.conflicts "update"
  · rw [Action.run_bind_error (run_meetConflict_of hc), if_pos hc]
  · rw [Action.run_bind_ok (run_meetConflict_of_not hc), if_neg hc,
      Action.run_bind_ok (Action.run_get m)]
    unfold changing
    rcases m.lookupId caller collection id with e | _ | current
    · rfl
    · rfl
    change StateT.run (ExceptT.run (liftM (applyUpdate change current) >>= fun updated =>
      liftM (checkUnique ((m.view caller).get collection) collection updated
        (m.uniquePaths collection)) >>= fun _ =>
      write caller collection id (some updated) >>= fun _ => pure (some updated))) m = _
    rcases hupdated : applyUpdate change current with e | updated
    · simp only [Action.run_bind, Action.run_lift, Outcome.ok_bind, Outcome.error_bind, hupdated]
    rcases hunique : checkUnique ((m.view caller).get collection) collection updated
      (m.uniquePaths collection) with e | ⟨⟩
    · simp only [Action.run_bind, Action.run_lift, Outcome.ok_bind, Outcome.error_bind, hupdated,
        hunique]
    · simp only [Action.run_bind, Action.run_lift, Outcome.ok_bind, hupdated, hunique]
      rfl

/-- **Removal** writes that there is no document, if there is one, or fails. -/
theorem run_delete_eq (collection : String) (id : Value) (caller : Option SessionId)
    (m : MemoryStore) :
    (delete collection id caller).run.run m =
      if m.conflicts "delete" then (.error (Reason.writeConflict "delete").fault, m.spend "delete")
      else match m.lookupId caller collection id with
        | .ok (some d) => (.ok (some d), m.after caller ⟨collection, id, none⟩)
        | .ok none => (.ok none, m)
        | .error e => (.error e, m) := by
  unfold delete
  by_cases hc : m.conflicts "delete"
  · rw [Action.run_bind_error (run_meetConflict_of hc), if_pos hc]
  · rw [Action.run_bind_ok (run_meetConflict_of_not hc), if_neg hc,
      Action.run_bind_ok (Action.run_get m), Action.run_bind, Action.run_lift]
    rcases m.lookupId caller collection id with e | _ | d <;> rfl

/-! ## Inversion of the decisions -/

section Decisions

variable {m : MemoryStore} {collection : String} {caller : Option SessionId}

/-- What a creation that succeeds has checked. -/
theorem filing_eq_ok {d : Document} {w : Write} (h : m.filing collection d caller = .ok w) :
    ∃ id, Record.get? (m.filed d) "_id" = some id ∧ id.isKey = true ∧
      ((m.view caller).get collection).get? id = none ∧
      checkUnique ((m.view caller).get collection) collection (m.filed d)
        (m.uniquePaths collection) = .ok () ∧
      w = ⟨collection, id, some (m.filed d)⟩ := by
  obtain ⟨id, hid⟩ := exists_id_filed m d
  unfold filing at h
  dsimp only at h
  rw [hid, Option.getD_some] at h
  rcases hkey : id.isKey with _ | _
  · rw [hkey] at h
    cases h
  rw [hkey] at h
  simp only [Bool.not_true, Bool.false_eq_true, if_false] at h
  rcases hfree : ((m.view caller).get collection).get? id with _ | old
  · rw [hfree] at h
    simp only [Option.isSome_none, Bool.false_eq_true, if_false] at h
    obtain ⟨⟨⟩, hu, h⟩ := bind_eq_ok h
    cases h
    exact ⟨id, hid, hkey, hfree, hu, rfl⟩
  · rw [hfree] at h
    cases h

/-- A look-up that succeeds was under a key, and found what the caller sees. -/
theorem lookupId_eq_ok {id : Value} {d? : Option Document}
    (h : m.lookupId caller collection id = .ok d?) :
    id.isKey = true ∧ ((m.view caller).get collection).get? id = d? := by
  unfold lookupId at h
  split at h
  · rename_i hkey
    cases h
    exact ⟨hkey, rfl⟩
  · cases h

/-- What an update that changes a document has checked. -/
theorem changing_eq_ok {id change : Value} {w : Write}
    (h : m.changing collection id change caller = .ok (some w)) :
    ∃ current updated, id.isKey = true ∧ ((m.view caller).get collection).get? id = some current ∧
      applyUpdate change current = .ok updated ∧
      checkUnique ((m.view caller).get collection) collection updated
        (m.uniquePaths collection) = .ok () ∧
      w = ⟨collection, id, some updated⟩ := by
  obtain ⟨d?, hd, h⟩ := bind_eq_ok h
  obtain ⟨hkey, hget⟩ := lookupId_eq_ok hd
  cases d? with
  | none => cases h
  | some current =>
    obtain ⟨updated, hupdated, h⟩ := bind_eq_ok h
    obtain ⟨⟨⟩, hu, h⟩ := bind_eq_ok h
    cases h
    exact ⟨current, updated, hkey, hget, hupdated, hu, rfl⟩

end Decisions

/-! ## Sessions and transactions -/

section Transactions

variable {m : MemoryStore} {i : SessionId}

theorem run_session {x : Session} (h : m.sessions[i]? = some x) :
    (session i).run.run m = (.ok x, m) := by
  rw [session, Action.run_bind_ok (Action.run_get m), h]
  rfl

theorem run_session_none (h : m.sessions[i]? = none) :
    (session i).run.run m = (.error .illTyped, m) := by
  rw [session, Action.run_bind_ok (Action.run_get m), h]
  rfl

theorem transaction?_of_session {x : Session} (h : m.sessions[i]? = some x) :
    m.transaction? (some i) = x.transaction := by
  rw [transaction?, Option.bind_some, h]
  rfl

/-- The open transactions when one session is replaced. -/
theorem transaction?_set {x y : Session} (h : m.sessions[i]? = some x) (j : SessionId) :
    transaction? { m with sessions := m.sessions.set i y } (some j) =
      if i = j then y.transaction else m.transaction? (some j) := by
  have hlt : i < m.sessions.length := (List.getElem?_eq_some_iff.1 h).1
  rw [transaction?, transaction?, Option.bind_some, Option.bind_some, List.getElem?_set]
  by_cases hij : i = j
  · rw [if_pos hij, if_pos hij, if_pos hlt]
    rfl
  · rw [if_neg hij, if_neg hij]

/-- A new session has no transaction. -/
theorem transaction?_concat (j : SessionId) :
    transaction? { m with sessions := m.sessions.concat ⟨none, false⟩ } (some j) =
      m.transaction? (some j) := by
  rw [transaction?, transaction?, Option.bind_some, Option.bind_some, List.concat_eq_append,
    List.getElem?_append]
  split
  · rfl
  · rename_i h
    rw [List.getElem?_eq_none (Nat.le_of_not_lt h)]
    rcases j - m.sessions.length with _ | n <;> rfl

theorem run_openTransaction_eq : (openTransaction i).run.run m =
    match m.sessions[i]? with
    | none => (.error .illTyped, m)
    | some x =>
      match x.transaction with
      | none => (.error (.badState "No transaction in progress"), m)
      | some t => (.ok t, m) := by
  rcases h : m.sessions[i]? with _ | x
  · rw [openTransaction, Action.run_bind_error (run_session_none h)]
  · rw [openTransaction, Action.run_bind_ok (run_session h)]
    dsimp only
    rcases x.transaction with _ | t <;> rfl

/-- **Beginning** opens a transaction on the committed documents, unless one is open. -/
theorem run_begin_eq : (beginTransaction i).run.run m =
    match m.sessions[i]? with
    | none => (.error .illTyped, m)
    | some x =>
      if x.transaction.isSome then (.error (.badState "Transaction already in progress"), m)
      else (.ok (), { m with
          sessions := m.sessions.set i { x with transaction := some ⟨m.collections, []⟩ } }) := by
  rcases h : m.sessions[i]? with _ | x
  · rw [beginTransaction, Action.run_bind_error (run_session_none h)]
  · rw [beginTransaction, Action.run_bind_ok (run_session h)]
    dsimp only
    split <;> rfl

/-- **Committing** publishes the open transaction, unless it meets a conflict. -/
theorem run_commit_eq : (commitTransaction i).run.run m =
    match m.sessions[i]? with
    | none => (.error .illTyped, m)
    | some x =>
      match x.transaction with
      | none => (.error (.badState "No transaction in progress"), m)
      | some t =>
        if m.conflicts "commit" then (.error (Reason.writeConflict "commit").fault,
          m.spend "commit")
        else (.ok (), { m with
          collections := publish t m.collections
          commits := m.commits + 1
          sessions := m.sessions.set i { x with transaction := none } }) := by
  rw [commitTransaction, Action.run_bind, run_openTransaction_eq]
  rcases h : m.sessions[i]? with _ | x
  · rfl
  rcases ht : x.transaction with _ | t
  · simp only [ht]
  simp only [ht]
  by_cases hc : m.conflicts "commit"
  · rw [Action.run_bind_error (run_meetConflict_of hc), if_pos hc]
  · have hx :
      { m with collections := publish t m.collections, commits := m.commits + 1 }.sessions[i]? =
        some x := h
    rw [Action.run_bind_ok (run_meetConflict_of_not hc), if_neg hc,
      Action.run_bind_ok (Action.run_modify _ m), closeTransaction,
      Action.run_bind_ok (run_session hx)]
    rfl

/-- **Aborting** forgets the open transaction. -/
theorem run_abort_eq : (abortTransaction i).run.run m =
    match m.sessions[i]? with
    | none => (.error .illTyped, m)
    | some x =>
      match x.transaction with
      | none => (.error (.badState "No transaction in progress"), m)
      | some _ => (.ok (), { m with
          aborts := m.aborts + 1
          sessions := m.sessions.set i { x with transaction := none } }) := by
  rw [abortTransaction, Action.run_bind, run_openTransaction_eq]
  rcases h : m.sessions[i]? with _ | x
  · rfl
  rcases ht : x.transaction with _ | t
  · simp only [ht]
  simp only [ht]
  have hx : { m with aborts := m.aborts + 1 }.sessions[i]? = some x := h
  rw [Action.run_bind_ok (Action.run_modify _ m), closeTransaction,
    Action.run_bind_ok (run_session hx)]
  rfl

/-- **Ending** a session forgets its open transaction, if there is one. -/
theorem run_end_eq : (endSession i).run.run m =
    match m.sessions[i]? with
    | none => (.error .illTyped, m)
    | some x => (.ok (), { m with
        aborts := if x.transaction.isSome then m.aborts + 1 else m.aborts
        sessions := m.sessions.set i ⟨none, true⟩ }) := by
  rcases h : m.sessions[i]? with _ | x
  · rw [endSession, Action.run_bind_error (run_session_none h)]
  rw [endSession, Action.run_bind_ok (run_session h)]
  obtain ⟨t?, ended⟩ := x
  rcases t? with _ | t
  · simp only [Option.isSome_none, Bool.false_eq_true, if_false]
    rw [Action.run_bind_ok (run_session h)]
    rfl
  · have hlt : i < m.sessions.length := (List.getElem?_eq_some_iff.1 h).1
    have habort : (abortTransaction i).run.run m = (.ok (), { m with
        aborts := m.aborts + 1
        sessions := m.sessions.set i ⟨none, ended⟩ }) := by
      rw [run_abort_eq, h]
    have hx : (m.sessions.set i ⟨none, ended⟩)[i]? = some ⟨none, ended⟩ :=
      List.getElem?_set_self hlt
    simp only [Option.isSome_some, if_true]
    rw [Action.run_bind_ok habort, Action.run_bind_ok (run_session hx), setSession,
      Action.run_modify]
    dsimp only
    rw [List.set_set]

end Transactions

end MemoryStore

end EntityGraph

import EntityGraph.Proofs.Session

/-!
# Interleavings

A memory store is used by any number of callers, some in sessions and some without. An **event** is
one call of one caller with the reply that it got, and an **interleaving** is a list of events that
take a store from one state to another, in whatever order the callers come. What an event writes can
be read off it (`Event.writes`). `Event.Effect` says what an event does to the committed documents
and to the open transactions, and `Event.Happens.effect` that every event has no other effect.
-/

namespace EntityGraph

/-! ## Calls and events -/

/-- What a caller can ask for without changing anything. -/
inductive StoreRead where
  /-- the document of an identifier -/
  | document (collection : String) (id : Value)
  /-- the documents that match a query -/
  | matching (collection : String) (query : Value)
  /-- the outcome of a pipeline -/
  | pipeline (collection : String) (stages : List Value)

/-- A call of a memory store. A caller passes its session along, if it has one. -/
inductive StoreCall where
  | ensure (schema : CollectionSchema)
  | inject (count : Int) (operation : String)
  | openSession
  | begin (i : SessionId)
  | commit (i : SessionId)
  | abort (i : SessionId)
  | finish (i : SessionId)
  | create (caller : Option SessionId) (collection : String) (d : Document)
  | update (caller : Option SessionId) (collection : String) (id change : Value)
  | delete (caller : Option SessionId) (collection : String) (id : Value)
  | read (caller : Option SessionId) (q : StoreRead)

/-- What a call returns. -/
inductive StoreReply where
  | done
  | session (i : SessionId)
  | document (d : Option Document)
  | documents (ds : List Document)

namespace StoreRead

/-- The reply to a reader that sees the given collections. -/
def on (cs : Collections) : StoreRead → Outcome StoreReply
  | document collection id =>
    if id.isKey then pure (.document ((cs.get collection).get? id)) else throw .illTyped
  | matching collection query => do
    let ds ← EntityGraph.matching (MemoryStore.queryOrAll query) (cs.get collection).documents
    pure (.documents ds)
  | pipeline collection stages => do
    let ds ← EntityGraph.aggregate cs collection stages
    pure (.documents ds)

/-- Reading from a memory store. -/
def run (caller : Option SessionId) : StoreRead → Action MemoryStore StoreReply
  | document collection id => do
    let d ← MemoryStore.findById collection id caller
    pure (.document d)
  | matching collection query => do
    let ds ← MemoryStore.find collection query caller
    pure (.documents ds)
  | pipeline collection stages => do
    let ds ← MemoryStore.runPipeline collection stages caller
    pure (.documents ds)

/-- A reader is answered from its view, and changes nothing. -/
theorem run_eq (caller : Option SessionId) (q : StoreRead) (m : MemoryStore) :
    (q.run caller).run.run m = (q.on (m.view caller), m) := by
  cases q with
  | document collection id =>
    rw [run, MemoryStore.findById, Action.run_bind, Action.run_reads, on, MemoryStore.lookupId]
    cases id.isKey <;> rfl
  | matching collection query =>
    rw [run, MemoryStore.find, Action.run_bind, Action.run_reads, on]
    rcases EntityGraph.matching (MemoryStore.queryOrAll query)
      ((m.view caller).get collection).documents with e | ds <;> rfl
  | pipeline collection stages =>
    rw [run, MemoryStore.runPipeline, Action.run_bind, Action.run_reads, on]
    rcases EntityGraph.aggregate (m.view caller) collection stages with e | ds <;> rfl

end StoreRead

namespace StoreCall

/-- A call on a memory store. -/
def run : StoreCall → Action MemoryStore StoreReply
  | ensure schema => do
    MemoryStore.ensureCollection schema
    pure .done
  | inject count operation => do
    MemoryStore.inject count operation
    pure .done
  | openSession => do
    let i ← MemoryStore.startSession
    pure (.session i)
  | begin i => do
    MemoryStore.beginTransaction i
    pure .done
  | commit i => do
    MemoryStore.commitTransaction i
    pure .done
  | abort i => do
    MemoryStore.abortTransaction i
    pure .done
  | finish i => do
    MemoryStore.endSession i
    pure .done
  | create caller collection d => do
    let d ← MemoryStore.create collection d caller
    pure (.document (some d))
  | update caller collection id change => do
    let d ← MemoryStore.update collection id change caller
    pure (.document d)
  | delete caller collection id => do
    let d ← MemoryStore.delete collection id caller
    pure (.document d)
  | read caller q => q.run caller

/-- The session that a caller passes along with a read or a write. -/
def caller : StoreCall → Option SessionId
  | create caller _ _ => caller
  | update caller _ _ _ => caller
  | delete caller _ _ => caller
  | read caller _ => caller
  | _ => none

end StoreCall

/-- **An event**: a call with its reply. -/
structure Event where
  call : StoreCall
  reply : Outcome StoreReply

namespace Event

/-- The event takes a store from one state to another. -/
def Happens (e : Event) (m m' : MemoryStore) : Prop := e.call.run.run.run m = (e.reply, m')

/-- The call returned. -/
def Returned (e : Event) : Prop := ∃ v, e.reply = .ok v

/-- A transaction of a session was begun. -/
def Begins (e : Event) (i : SessionId) : Prop := e.call = .begin i ∧ e.Returned

/-- A transaction of a session was committed. -/
def Commits (e : Event) (i : SessionId) : Prop := e.call = .commit i ∧ e.Returned

/-- A session was left without open transaction: it was committed or aborted, or the session was
ended. -/
def Closes (e : Event) (i : SessionId) : Prop :=
  (e.call = .commit i ∨ e.call = .abort i ∨ e.call = .finish i) ∧ e.Returned

/-- A transaction of a session was begun or closed. -/
def Bounds (e : Event) (i : SessionId) : Prop := e.Begins i ∨ e.Closes i

/-- **What an event wrote**: a creation the document that it returned, a change the document under
its identifier, and a removal that there is none. Calls that failed or found no document wrote
nothing. -/
def writes (e : Event) : List Write :=
  match e.call, e.reply with
  | .create _ collection _, .ok (.document (some d)) =>
    [⟨collection, (Record.get? d "_id").getD .null, some d⟩]
  | .update _ collection id _, .ok (.document (some d)) => [⟨collection, id, some d⟩]
  | .delete _ collection id, .ok (.document (some _)) => [⟨collection, id, none⟩]
  | _, _ => []

/-- What an event wrote through a session. -/
def writesOf (i : SessionId) (e : Event) : List Write :=
  if e.call.caller = some i then e.writes else []

end Event

/-- What some events wrote through a session. -/
def writesOf (i : SessionId) (es : List Event) : List Write := es.flatMap (Event.writesOf i)

/-- **An interleaving**: events that lead from one state of a store to another, one after the
other. -/
inductive Interleaving (m₀ : MemoryStore) : List Event → MemoryStore → Prop where
  | nil : Interleaving m₀ [] m₀
  | snoc {es : List Event} {e : Event} {m m' : MemoryStore} (hes : Interleaving m₀ es m)
      (he : e.Happens m m') : Interleaving m₀ (es ++ [e]) m'

/-- A call may come after any events. -/
theorem Interleaving.call {m₀ m : MemoryStore} {es : List Event} (hes : Interleaving m₀ es m)
    (c : StoreCall) : Interleaving m₀ (es ++ [⟨c, (c.run.run.run m).1⟩]) (c.run.run.run m).2 :=
  hes.snoc rfl

/-! ## What an event does -/

/-- **The effect of an event** on the committed documents and on the open transactions. -/
structure Event.Effect (e : Event) (m m' : MemoryStore) : Prop where
  /-- what is written has an identifier -/
  keys : ∀ w ∈ e.writes, w.id.isKey = true
  /-- a transaction begins where none was open, on the committed documents -/
  begun : ∀ i, e.Begins i → m.transaction? (some i) = none ∧
    m'.transaction? (some i) = some ⟨m.collections, []⟩
  closed : ∀ i, e.Closes i → m'.transaction? (some i) = none
  /-- an open transaction gets the writes of its session, and no others -/
  kept : ∀ i, ¬ e.Bounds i →
    m'.transaction? (some i) = (m.transaction? (some i)).map (·.afterAll (e.writesOf i))
  /-- a commit publishes the open transaction -/
  committed : ∀ i, e.Commits i → ∃ t, m.transaction? (some i) = some t ∧
    m'.collections = MemoryStore.publish t m.collections
  /-- other events write committed documents only outside of transactions -/
  outside : (∀ i, ¬ e.Commits i) → ∀ name, m'.collections.get name =
    (if (m.transaction? e.call.caller).isSome then m.collections
      else m.collections.afterAll e.writes).get name

namespace Event

theorem Commits.closes {e : Event} {i : SessionId} (h : e.Commits i) : e.Closes i := ⟨.inl h.1, h.2⟩

theorem mem_writesOf {e : Event} {i : SessionId} {w : Write} (h : w ∈ e.writesOf i) :
    w ∈ e.writes := by
  unfold writesOf at h
  split at h
  · exact h
  · exact absurd h List.not_mem_nil

/-- The call is not about sessions. -/
def Plain : StoreCall → Prop
  | .begin _ => False
  | .commit _ => False
  | .abort _ => False
  | .finish _ => False
  | _ => True

theorem not_bounds_of_plain {e : Event} (h : Plain e.call) (i : SessionId) : ¬ e.Bounds i := by
  rintro (⟨hc, -⟩ | ⟨hc | hc | hc, -⟩) <;> rw [hc] at h <;> exact h

theorem not_bounds_of_error {e : Event} {f : Fault} (h : e.reply = .error f) (i : SessionId) :
    ¬ e.Bounds i := by
  rintro (⟨-, v, hv⟩ | ⟨-, v, hv⟩) <;> rw [h] at hv <;> cases hv

variable {e : Event} {m m' : MemoryStore}

/-- An event that neither writes nor begins nor closes a transaction. -/
theorem Effect.quiet (hw : e.writes = []) (hb : ∀ i, ¬ e.Bounds i)
    (ht : ∀ i, m'.transaction? (some i) = m.transaction? (some i))
    (hc : ∀ name, m'.collections.get name = m.collections.get name) : e.Effect m m' where
  keys := fun w hm => by
    rw [hw] at hm
    exact absurd hm List.not_mem_nil
  begun := fun i h => absurd (.inl h) (hb i)
  closed := fun i h => absurd (.inr h) (hb i)
  kept := fun i _ => by
    have hnil : e.writesOf i = [] := by
      unfold writesOf
      rw [hw, ite_self]
    rw [ht, hnil]
    cases m.transaction? (some i) <;> rfl
  committed := fun i h => absurd (.inr h.closes) (hb i)
  outside := fun _ name => by
    rw [hc, hw]
    split <;> rfl

/-- An event that writes one document. Identifiers may have been used up before. -/
theorem Effect.write {w : Write} {n : Nat} (hw : e.writes = [w]) (hkey : w.id.isKey = true)
    (hb : ∀ i, ¬ e.Bounds i) (hm' : m' = { m with lastId := n }.after e.call.caller w) :
    e.Effect m m' where
  keys := fun v hm => by
    rw [hw] at hm
    obtain rfl := List.mem_singleton.1 hm
    exact hkey
  begun := fun i h => absurd (.inl h) (hb i)
  closed := fun i h => absurd (.inr h) (hb i)
  kept := fun i _ => by
    rw [hm', MemoryStore.transaction?_after]
    unfold writesOf
    change (if e.call.caller = some i then (m.transaction? (some i)).map (·.after w)
      else m.transaction? (some i)) = _
    split
    · rw [hw]
      rfl
    · cases m.transaction? (some i) <;> rfl
  committed := fun i h => absurd (.inr h.closes) (hb i)
  outside := fun _ name => by
    rw [hm', MemoryStore.collections_after, hw]
    rfl

/-- An event that closes a transaction without publishing it. -/
theorem Effect.close {i : SessionId} {x y : Session} {n : Nat}
    (hcall : e.call = .abort i ∨ e.call = .finish i) (hx : m.sessions[i]? = some x)
    (hy : y.transaction = none)
    (hm' : m' = { m with aborts := n, sessions := m.sessions.set i y }) (hr : e.Returned) :
    e.Effect m m' where
  keys := fun v hm => by
    obtain ⟨call, reply⟩ := e
    rcases hcall with rfl | rfl <;> exact absurd hm List.not_mem_nil
  begun := fun j h => by
    rcases hcall with hc | hc <;> rw [Begins, hc] at h <;> cases h.1
  closed := fun j h => by
    have hij : j = i := by
      rcases hcall with hc | hc <;> rw [Closes, hc] at h <;> rcases h.1 with h | h | h <;>
        cases h <;> rfl
    subst hij
    rw [hm']
    have hset := MemoryStore.transaction?_set (y := y) hx j
    rw [if_pos rfl, hy] at hset
    exact hset
  kept := fun j hj => by
    have hne : i ≠ j := by
      rintro rfl
      exact hj (.inr ⟨.inr hcall, hr⟩)
    have hnil : e.writesOf j = [] := by
      unfold writesOf
      rcases hcall with hc | hc <;> rw [hc] <;> rfl
    rw [hnil, hm']
    have hset := MemoryStore.transaction?_set (y := y) hx j
    rw [if_neg hne] at hset
    refine Eq.trans hset ?_
    cases m.transaction? (some j) <;> rfl
  committed := fun j h => by
    rcases hcall with hc | hc <;> rw [Commits, hc] at h <;> cases h.1
  outside := fun _ name => by
    have hnil : e.writes = [] := by
      obtain ⟨call, reply⟩ := e
      rcases hcall with rfl | rfl <;> rfl
    have hcaller : e.call.caller = none := by rcases hcall with hc | hc <;> rw [hc] <;> rfl
    rw [hm', hnil, hcaller]
    rfl

/-! ## Every event has its effect -/

section Calls

variable {reply : Outcome StoreReply} {i : SessionId}

theorem effect_ensure {schema : CollectionSchema}
    (h : Happens ⟨.ensure schema, reply⟩ m m') : Effect ⟨.ensure schema, reply⟩ m m' := by
  cases h
  refine Effect.quiet rfl (not_bounds_of_plain trivial) (fun _ => rfl) fun name => ?_
  dsimp only [MemoryStore.ensureCollection]
  split
  · rfl
  · rename_i hnew
    rw [Collections.get_put]
    split
    · rename_i hname
      subst hname
      rw [Collections.get]
      unfold Record.has at hnew
      rw [Option.not_isSome_iff_eq_none.1 hnew]
      rfl
    · rfl

theorem effect_openSession (h : Happens ⟨.openSession, reply⟩ m m') :
    Effect ⟨.openSession, reply⟩ m m' := by
  cases h
  exact Effect.quiet rfl (not_bounds_of_plain trivial) (fun j => MemoryStore.transaction?_concat j)
    fun _ => rfl

theorem effect_begin (h : Happens ⟨.begin i, reply⟩ m m') : Effect ⟨.begin i, reply⟩ m m' := by
  rw [Happens, StoreCall.run, Action.run_bind, MemoryStore.run_begin_eq] at h
  rcases hx : m.sessions[i]? with _ | x
  · rw [hx] at h
    cases h
    exact Effect.quiet rfl (not_bounds_of_error rfl) (fun _ => rfl) fun _ => rfl
  rcases ht : x.transaction with _ | t
  · simp only [hx, ht, Option.isSome_none, Bool.false_eq_true, if_false] at h
    cases h
    have hset :=
      fun j => MemoryStore.transaction?_set (y := ⟨some ⟨m.collections, []⟩, x.ended⟩) hx j
    refine ⟨fun w hw => absurd hw List.not_mem_nil, fun j hj => ?_, fun j hj => ?_, fun j hj => ?_,
      fun j hj => ?_, fun _ _ => rfl⟩
    · cases hj.1
      refine ⟨by rw [MemoryStore.transaction?_of_session hx, ht], ?_⟩
      rw [hset, if_pos rfl]
    · rcases hj.1 with hj | hj | hj <;> cases hj
    · have hne : i ≠ j := by
        rintro rfl
        exact hj (.inl ⟨rfl, _, rfl⟩)
      rw [hset, if_neg hne]
      cases m.transaction? (some j) <;> rfl
    · cases hj.1
  · simp only [hx, ht, Option.isSome_some, if_true] at h
    cases h
    exact Effect.quiet rfl (not_bounds_of_error rfl) (fun _ => rfl) fun _ => rfl

theorem effect_commit (h : Happens ⟨.commit i, reply⟩ m m') : Effect ⟨.commit i, reply⟩ m m' := by
  rw [Happens, StoreCall.run, Action.run_bind, MemoryStore.run_commit_eq] at h
  rcases hx : m.sessions[i]? with _ | x
  · rw [hx] at h
    cases h
    exact Effect.quiet rfl (not_bounds_of_error rfl) (fun _ => rfl) fun _ => rfl
  rcases ht : x.transaction with _ | t
  · simp only [hx, ht] at h
    cases h
    exact Effect.quiet rfl (not_bounds_of_error rfl) (fun _ => rfl) fun _ => rfl
  simp only [hx, ht] at h
  split_ifs at h
  · cases h
    exact Effect.quiet rfl (not_bounds_of_error rfl) (fun _ => rfl) fun _ => rfl
  · cases h
    have hset := fun j => MemoryStore.transaction?_set (y := ⟨none, x.ended⟩) hx j
    refine ⟨fun w hw => absurd hw List.not_mem_nil, fun j hj => ?_, fun j hj => ?_, fun j hj => ?_,
      fun j hj => ?_, fun hno => ?_⟩
    · cases hj.1
    · have hij : i = j := by rcases hj.1 with hj | hj | hj <;> cases hj; rfl
      subst hij
      exact (hset i).trans (if_pos rfl)
    · have hne : i ≠ j := by
        rintro rfl
        exact hj (.inr ⟨.inl rfl, _, rfl⟩)
      refine ((hset j).trans (if_neg hne)).trans ?_
      cases m.transaction? (some j) <;> rfl
    · cases hj.1
      exact ⟨t, by rw [MemoryStore.transaction?_of_session hx, ht], rfl⟩
    · exact absurd ⟨rfl, _, rfl⟩ (hno i)

theorem effect_abort (h : Happens ⟨.abort i, reply⟩ m m') : Effect ⟨.abort i, reply⟩ m m' := by
  rw [Happens, StoreCall.run, Action.run_bind, MemoryStore.run_abort_eq] at h
  rcases hx : m.sessions[i]? with _ | x
  · rw [hx] at h
    cases h
    exact Effect.quiet rfl (not_bounds_of_error rfl) (fun _ => rfl) fun _ => rfl
  rcases ht : x.transaction with _ | t
  · simp only [hx, ht] at h
    cases h
    exact Effect.quiet rfl (not_bounds_of_error rfl) (fun _ => rfl) fun _ => rfl
  · simp only [hx, ht] at h
    cases h
    exact Effect.close (.inl rfl) hx rfl rfl ⟨_, rfl⟩

theorem effect_finish (h : Happens ⟨.finish i, reply⟩ m m') : Effect ⟨.finish i, reply⟩ m m' := by
  rw [Happens, StoreCall.run, Action.run_bind, MemoryStore.run_end_eq] at h
  rcases hx : m.sessions[i]? with _ | x
  · rw [hx] at h
    cases h
    exact Effect.quiet rfl (not_bounds_of_error rfl) (fun _ => rfl) fun _ => rfl
  · rw [hx] at h
    cases h
    exact Effect.close (.inr rfl) hx rfl rfl ⟨_, rfl⟩

variable {caller : Option SessionId} {collection : String}

theorem effect_create {d : Document} (h : Happens ⟨.create caller collection d, reply⟩ m m') :
    Effect ⟨.create caller collection d, reply⟩ m m' := by
  rw [Happens, StoreCall.run, Action.run_bind, MemoryStore.run_create_eq] at h
  split_ifs at h
  · cases h
    exact Effect.quiet rfl (not_bounds_of_plain trivial) (fun _ => rfl) fun _ => rfl
  rcases hw : m.filing collection d caller with f | w
  · rw [hw] at h
    cases h
    exact Effect.quiet rfl (not_bounds_of_plain trivial) (fun _ => rfl) fun _ => rfl
  · rw [hw] at h
    cases h
    obtain ⟨id, hid, hkey, -, -, rfl⟩ := MemoryStore.filing_eq_ok hw
    refine Effect.write ?_ hkey (not_bounds_of_plain trivial) rfl
    simp [writes, hid]

theorem effect_update {id change : Value}
    (h : Happens ⟨.update caller collection id change, reply⟩ m m') :
    Effect ⟨.update caller collection id change, reply⟩ m m' := by
  rw [Happens, StoreCall.run, Action.run_bind, MemoryStore.run_update_eq] at h
  split_ifs at h
  · cases h
    exact Effect.quiet rfl (not_bounds_of_plain trivial) (fun _ => rfl) fun _ => rfl
  rcases hw : m.changing collection id change caller with f | _ | w
  · rw [hw] at h
    cases h
    exact Effect.quiet rfl (not_bounds_of_plain trivial) (fun _ => rfl) fun _ => rfl
  · rw [hw] at h
    cases h
    exact Effect.quiet rfl (not_bounds_of_plain trivial) (fun _ => rfl) fun _ => rfl
  · rw [hw] at h
    cases h
    obtain ⟨_, updated, hkey, -, -, -, rfl⟩ := MemoryStore.changing_eq_ok hw
    exact Effect.write (w := ⟨collection, id, some updated⟩) rfl hkey
      (not_bounds_of_plain trivial) rfl

theorem effect_delete {id : Value} (h : Happens ⟨.delete caller collection id, reply⟩ m m') :
    Effect ⟨.delete caller collection id, reply⟩ m m' := by
  rw [Happens, StoreCall.run, Action.run_bind, MemoryStore.run_delete_eq] at h
  split_ifs at h
  · cases h
    exact Effect.quiet rfl (not_bounds_of_plain trivial) (fun _ => rfl) fun _ => rfl
  rcases hd : m.lookupId caller collection id with f | _ | d
  · rw [hd] at h
    cases h
    exact Effect.quiet rfl (not_bounds_of_plain trivial) (fun _ => rfl) fun _ => rfl
  · rw [hd] at h
    cases h
    exact Effect.quiet rfl (not_bounds_of_plain trivial) (fun _ => rfl) fun _ => rfl
  · rw [hd] at h
    cases h
    obtain ⟨hkey, -⟩ := MemoryStore.lookupId_eq_ok hd
    exact Effect.write (w := ⟨collection, id, none⟩) rfl hkey (not_bounds_of_plain trivial) rfl

end Calls

/-- **Every event has its effect**, and no other. -/
theorem Happens.effect (h : e.Happens m m') : e.Effect m m' := by
  obtain ⟨call, reply⟩ := e
  cases call with
  | ensure schema => exact effect_ensure h
  | inject count operation =>
    cases h
    exact Effect.quiet rfl (not_bounds_of_plain trivial) (fun _ => rfl) fun _ => rfl
  | openSession => exact effect_openSession h
  | begin i => exact effect_begin h
  | commit i => exact effect_commit h
  | abort i => exact effect_abort h
  | finish i => exact effect_finish h
  | create caller collection d => exact effect_create h
  | update caller collection id change => exact effect_update h
  | delete caller collection id => exact effect_delete h
  | read caller q =>
    have hm : m' = m := by
      rw [Happens, StoreCall.run, StoreRead.run_eq] at h
      cases h
      rfl
    exact Effect.quiet rfl (not_bounds_of_plain trivial) (fun _ => by rw [hm]) fun _ => by rw [hm]

/-- Only setting up a collection changes what is known of collections. -/
theorem Happens.schemas (h : e.Happens m m') (hcall : ∀ schema, e.call ≠ .ensure schema) :
    m'.schemas = m.schemas := by
  obtain ⟨call, reply⟩ := e
  have hm : m' = (call.run.run.run m).2 := (congrArg Prod.snd h).symm
  rw [hm]
  cases call with
  | ensure schema => exact absurd rfl (hcall schema)
  | inject count operation => rfl
  | openSession => rfl
  | begin i =>
    rw [StoreCall.run, Action.run_bind, MemoryStore.run_begin_eq]
    rcases m.sessions[i]? with _ | ⟨_ | t, ended⟩ <;> rfl
  | commit i =>
    rw [StoreCall.run, Action.run_bind, MemoryStore.run_commit_eq]
    rcases m.sessions[i]? with _ | ⟨_ | t, ended⟩
    · rfl
    · rfl
    · by_cases hc : m.conflicts "commit" <;> simp only [hc, if_true, if_false] <;> rfl
  | abort i =>
    rw [StoreCall.run, Action.run_bind, MemoryStore.run_abort_eq]
    rcases m.sessions[i]? with _ | ⟨_ | t, ended⟩ <;> rfl
  | finish i =>
    rw [StoreCall.run, Action.run_bind, MemoryStore.run_end_eq]
    rcases m.sessions[i]? with _ | x <;> rfl
  | create caller collection d =>
    rw [StoreCall.run, Action.run_bind, MemoryStore.run_create_eq]
    by_cases hc : m.conflicts "create" <;> simp only [hc, if_true, if_false]
    · rfl
    · rcases m.filing collection d caller with f | w
      · rfl
      · exact MemoryStore.schemas_after
  | update caller collection id change =>
    rw [StoreCall.run, Action.run_bind, MemoryStore.run_update_eq]
    by_cases hc : m.conflicts "update" <;> simp only [hc, if_true, if_false]
    · rfl
    · rcases m.changing collection id change caller with f | _ | w
      · rfl
      · rfl
      · exact MemoryStore.schemas_after
  | delete caller collection id =>
    rw [StoreCall.run, Action.run_bind, MemoryStore.run_delete_eq]
    by_cases hc : m.conflicts "delete" <;> simp only [hc, if_true, if_false]
    · rfl
    · rcases m.lookupId caller collection id with f | _ | d
      · rfl
      · rfl
      · exact MemoryStore.schemas_after
  | read caller q => rw [StoreCall.run, StoreRead.run_eq]

end Event

end EntityGraph

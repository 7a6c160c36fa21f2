import EntityGraph.Proofs.Interleaving

/-!
# Snapshot isolation

Whatever the callers of a memory store do in between, a transaction reads the documents that were
committed when it began, overlaid with its own writes, and its commit sets exactly the documents
that it wrote to its own last versions. Committed documents change by writes outside of transactions
and by commits only. The main statement is `interleaving_isolated`; its invariant is that every open
transaction is the one that the events since its beginning make (`Interleaving.opened`).
-/

namespace EntityGraph

/-! ## Transactions in a history -/

/-- **Inside a transaction.** The events end inside a transaction of the session that was begun
after the events `before`; what happened since then is `during`. -/
def Inside (i : SessionId) (es before during : List Event) : Prop :=
  ∃ begun : Event, begun.Begins i ∧ es = before ++ begun :: during ∧ ∀ e ∈ during, ¬ e.Bounds i

/-- The events before the last one were inside the transaction, unless the last one began it. -/
theorem inside_snoc {i : SessionId} {es before during : List Event} {e : Event}
    (h : Inside i (es ++ [e]) before during) :
    (during = [] ∧ before = es ∧ e.Begins i) ∨
      ∃ earlier, during = earlier ++ [e] ∧ Inside i es before earlier ∧ ¬ e.Bounds i := by
  obtain ⟨begun, hbegun, hes, hduring⟩ := h
  rcases List.eq_nil_or_concat during with rfl | ⟨earlier, last, rfl⟩
  · obtain ⟨rfl, hlast⟩ := List.append_inj' hes rfl
    cases hlast
    exact .inl ⟨rfl, rfl, hbegun⟩
  · have hsplit : before ++ begun ::
      (earlier ++ [last]) = (before ++ begun :: earlier) ++ [last] := by simp
    rw [List.concat_eq_append, hsplit] at hes
    obtain ⟨rfl, hlast⟩ := List.append_inj' hes rfl
    cases hlast
    refine .inr ⟨earlier, List.concat_eq_append, ⟨begun, hbegun, rfl, fun f hf => ?_⟩, ?_⟩
    · exact hduring f (by rw [List.concat_eq_append]; exact List.mem_append_left _ hf)
    · exact hduring e (by rw [List.concat_eq_append]; simp)

theorem Inside.snoc {i : SessionId} {es before during : List Event} (h : Inside i es before during)
    {e : Event} (he : ¬ e.Bounds i) : Inside i (es ++ [e]) before (during ++ [e]) := by
  obtain ⟨begun, hbegun, rfl, hduring⟩ := h
  refine ⟨begun, hbegun, by simp, fun f hf => ?_⟩
  rcases List.mem_append.1 hf with hf | hf
  · exact hduring f hf
  · obtain rfl := List.mem_singleton.1 hf
    exact he

theorem writesOf_append (i : SessionId) (es es' : List Event) :
    writesOf i (es ++ es') = writesOf i es ++ writesOf i es' := List.flatMap_append

theorem writesOf_singleton (i : SessionId) (e : Event) : writesOf i [e] = e.writesOf i :=
  List.flatMap_singleton ..

/-- **Publishing.** After the events `es` the event changes committed documents: it commits, or it
writes and its caller is outside of transactions. -/
def Event.Publishes (es : List Event) (e : Event) : Prop :=
  (∃ i, e.Commits i) ∨
    e.writes ≠ [] ∧ ∀ i before during, e.call.caller = some i → ¬ Inside i es before during

/-- **Undisturbed.** Since the event that came after `before`, no event has changed committed
documents. -/
def Undisturbed (es before : List Event) : Prop :=
  ∀ es₁ f es₂, es = es₁ ++ f :: es₂ → before.length < es₁.length → ¬ Event.Publishes es₁ f

theorem Inside.length_lt {i : SessionId} {es before during : List Event}
    (h : Inside i es before during) : before.length < es.length := by
  obtain ⟨begun, -, rfl, -⟩ := h
  simp

theorem Undisturbed.of_snoc {es before : List Event} {e : Event}
    (h : Undisturbed (es ++ [e]) before) (hlen : before.length < es.length) :
    Undisturbed es before ∧ ¬ e.Publishes es := by
  refine ⟨fun es₁ f es₂ hes hlt => h es₁ f (es₂ ++ [e]) ?_ hlt, h es e [] rfl hlen⟩
  rw [hes, List.append_assoc, List.cons_append]

/-! ## Last versions -/

/-- The version of a document that a write leaves, where `last` was left before. -/
def versionAfter (name : String) (id : Value) (last : Option (Option Document)) (w : Write) :
    Option (Option Document) :=
  if w.collection = name ∧ w.id.eq id = true then some w.document else last

/-- The last version of a document that some writes left, if one of them was of that document: a
document, or that there is none. -/
def lastVersion (ws : List Write) (name : String) (id : Value) : Option (Option Document) :=
  ws.foldl (versionAfter name id) none

/-- After some writes a document is as its last version, or as before. A version from before the
writes counts where they leave none. -/
theorem get?_afterAll {ws : List Write} (hkeys : ∀ w ∈ ws, w.id.isKey = true) {cs : Collections}
    (hcs : cs.Distinct) (name : String) (id : Value) :
    ((cs.afterAll ws).get name).get? id =
      (lastVersion ws name id).getD ((cs.get name).get? id) := by
  suffices h : ∀ (cs' : Collections) (last : Option (Option Document)), cs'.Distinct →
      (cs'.get name).get? id = last.getD ((cs.get name).get? id) →
      ((cs'.afterAll ws).get name).get? id =
        (ws.foldl (versionAfter name id) last).getD ((cs.get name).get? id) from h cs none hcs rfl
  induction ws with
  | nil => exact fun cs' last _ hlast => hlast
  | cons w rest ih =>
    intro cs' last hcs' hlast
    refine ih (fun v hv => hkeys v (List.mem_cons_of_mem _ hv)) (cs'.after w) _
      (MemoryStore.distinct_writeTo hcs' _ _ _) ?_
    rw [Collections.after, MemoryStore.get_writeTo hcs' (hkeys w (List.mem_cons_self ..)),
      versionAfter]
    split
    · rfl
    · exact hlast

/-- A transaction notes the documents that it leaves a version of. -/
theorem noted_afterAll {ws : List Write} (hkeys : ∀ w ∈ ws, w.id.isKey = true) (cs : Collections)
    (name : String) (id : Value) :
    MemoryStore.Noted (Transaction.afterAll ⟨cs, []⟩ ws).written name id ↔
      (lastVersion ws name id).isSome = true := by
  suffices h : ∀ (t : Transaction) (last : Option (Option Document)),
      (∀ w ∈ t.written, w.2.isKey = true) →
      (MemoryStore.Noted t.written name id ↔ last.isSome = true) →
      (MemoryStore.Noted (t.afterAll ws).written name id ↔
        (ws.foldl (versionAfter name id) last).isSome = true) by
    refine h ⟨cs, []⟩ none (fun _ hw => absurd hw List.not_mem_nil) ⟨?_,
      fun hnone => by cases hnone⟩
    rintro ⟨w, hw, -⟩
    exact absurd hw List.not_mem_nil
  induction ws with
  | nil => exact fun t last _ hlast => hlast
  | cons w rest ih =>
    intro t last ht hlast
    have hw := hkeys w (List.mem_cons_self ..)
    have ht' : ∀ v ∈ (t.after w).written, v.2.isKey = true := fun v hv => by
      change v ∈ MemoryStore.noteWrite t.written w.collection w.id at hv
      unfold MemoryStore.noteWrite at hv
      split at hv
      · exact ht v hv
      · rcases List.mem_append.1 hv with hv | hv
        · exact ht v hv
        · obtain rfl := List.mem_singleton.1 hv
          exact hw
    refine ih (fun v hv => hkeys v (List.mem_cons_of_mem _ hv)) (t.after w) _ ht' ?_
    change MemoryStore.Noted (MemoryStore.noteWrite t.written w.collection w.id) name id ↔ _
    rw [MemoryStore.noted_noteWrite ht, hlast, versionAfter]
    split <;> simp [*]

/-- **A commit of some writes** sets what they wrote to its last versions, and leaves the rest. -/
theorem get?_publish {ws : List Write} (hkeys : ∀ w ∈ ws, w.id.isKey = true) {base cs : Collections}
    (hbase : base.Distinct) (hcs : cs.Distinct) (name : String) (id : Value) :
    ((MemoryStore.publish (Transaction.afterAll ⟨base, []⟩ ws) cs).get name).get? id =
      (lastVersion ws name id).getD ((cs.get name).get? id) := by
  have hframe := (MemoryStore.Frame.start hbase).afterAll hkeys
  obtain ⟨-, hnoted, hother⟩ := @MemoryStore.get_foldl_publishOne
    (Transaction.afterAll ⟨base, []⟩ ws).working cs _ hcs hframe.keys name id
  by_cases h : MemoryStore.Noted (Transaction.afterAll ⟨base, []⟩ ws).written name id
  · obtain ⟨d?, hd⟩ := Option.isSome_iff_exists.1 ((noted_afterAll hkeys base name id).1 h)
    rw [MemoryStore.publish, hnoted h, Transaction.working_afterAll, get?_afterAll hkeys hbase, hd]
    rfl
  · have hnone : lastVersion ws name id = none :=
      Option.not_isSome_iff_eq_none.1 fun hs => h ((noted_afterAll hkeys base name id).2 hs)
    rw [MemoryStore.publish, hother h, hnone]
    rfl

/-! ## The invariant -/

section Invariant

variable {m₀ m : MemoryStore} {es : List Event}

/-- What a transaction of a history is: the committed documents when it began, with its own writes.
If nothing disturbed it, these are still the committed documents. -/
structure IsSnapshot (m₀ m : MemoryStore) (i : SessionId) (es before during : List Event)
    (m₁ : MemoryStore) : Prop where
  reached : Interleaving m₀ before m₁
  distinct : m₁.collections.Distinct
  keys : ∀ w ∈ writesOf i during, w.id.isKey = true
  opened : m.transaction? (some i) =
    some (Transaction.afterAll ⟨m₁.collections, []⟩ (writesOf i during))
  still : Undisturbed es before → ∀ name, m.collections.get name = m₁.collections.get name

/-- The committed documents stay filed once under each identifier, and the open transactions are
those of the history. -/
structure Traced (m₀ : MemoryStore) (es : List Event) (m : MemoryStore) : Prop where
  distinct : m.collections.Distinct
  inside : ∀ i before during, Inside i es before during →
    ∃ m₁, IsSnapshot m₀ m i es before during m₁
  outside : ∀ i, (∀ before during, ¬ Inside i es before during) → m.transaction? (some i) = none

/-- A session has an open transaction exactly while the history is inside one. -/
theorem Traced.isSome_iff (h : Traced m₀ es m) (i : SessionId) :
    (m.transaction? (some i)).isSome = true ↔ ∃ before during, Inside i es before during := by
  refine ⟨fun hopen => ?_, fun ⟨before, during, hin⟩ => ?_⟩
  · by_contra hno
    rw [h.outside i fun before during hin => hno ⟨before, during, hin⟩] at hopen
    cases hopen
  · obtain ⟨m₁, hs⟩ := h.inside i before during hin
    rw [hs.opened]
    rfl

/-- The transaction that an event commits is one of the history. -/
theorem Traced.committed (h : Traced m₀ es m) {e : Event} {m' : MemoryStore} (he : e.Effect m m')
    {i : SessionId} (hcommit : e.Commits i) :
    ∃ before during m₁, Inside i es before during ∧ IsSnapshot m₀ m i es before during m₁ ∧
      m'.collections = MemoryStore.publish
        (Transaction.afterAll ⟨m₁.collections, []⟩ (writesOf i during)) m.collections := by
  obtain ⟨t, ht, hm'⟩ := he.committed i hcommit
  obtain ⟨before, during, hin⟩ := (h.isSome_iff i).1 (by rw [ht]; rfl)
  obtain ⟨m₁, hs⟩ := h.inside i before during hin
  obtain rfl : t = _ := Option.some.inj (ht.symm.trans hs.opened)
  exact ⟨before, during, m₁, hin, hs, hm'⟩

/-- An event that publishes nothing leaves the committed documents. -/
theorem Traced.unchanged (h : Traced m₀ es m) {e : Event} {m' : MemoryStore} (he : e.Effect m m')
    (hp : ¬ e.Publishes es) (name : String) : m'.collections.get name = m.collections.get name := by
  rw [Event.Publishes, not_or, not_and_or, not_not] at hp
  obtain ⟨hcommit, hw⟩ := hp
  rw [he.outside (fun i hi => hcommit ⟨i, hi⟩) name]
  rcases hw with hw | hw
  · rw [hw]
    split <;> rfl
  · push Not at hw
    obtain ⟨i, before, during, hcaller, hin⟩ := hw
    rw [hcaller, if_pos ((h.isSome_iff i).2 ⟨before, during, hin⟩)]

theorem Event.keys_writesOf {e : Event} {m m' : MemoryStore} (h : e.Effect m m') (i : SessionId) :
    ∀ w ∈ e.writesOf i, w.id.isKey = true := fun w hw => h.keys w (Event.mem_writesOf hw)

theorem Traced.step {e : Event} {m' : MemoryStore} (hes : Interleaving m₀ es m) (h : Traced m₀ es m)
    (he : e.Effect m m') : Traced m₀ (es ++ [e]) m' where
  distinct := by
    by_cases hcommit : ∃ i, e.Commits i
    · obtain ⟨i, hcommit⟩ := hcommit
      obtain ⟨before, during, m₁, -, hs, hm'⟩ := h.committed he hcommit
      rw [hm']
      exact (MemoryStore.get_foldl_publishOne h.distinct
        ((MemoryStore.Frame.start hs.distinct).afterAll hs.keys).keys "" .null).1
    · intro name
      rw [he.outside (fun i hi => hcommit ⟨i, hi⟩) name]
      split
      · exact h.distinct name
      · exact MemoryStore.distinct_afterAll e.writes h.distinct name
  inside := fun i before during hin => by
    rcases inside_snoc hin with ⟨rfl, rfl, hbegins⟩ | ⟨earlier, rfl, hin, hbounds⟩
    · refine ⟨m, hes, h.distinct, fun w hw => absurd hw List.not_mem_nil, (he.begun i hbegins).2,
        ?_⟩
      refine fun _ name => h.unchanged he (fun hp => ?_) name
      obtain ⟨hcall, -⟩ := hbegins
      rcases hp with ⟨j, hj, -⟩ | ⟨hw, -⟩
      · rw [hcall] at hj
        cases hj
      · unfold Event.writes at hw
        rw [hcall] at hw
        exact hw rfl
    · obtain ⟨m₁, hs⟩ := h.inside i before earlier hin
      refine ⟨m₁, hs.reached, hs.distinct, fun w hw => ?_, ?_, fun hu name => ?_⟩
      · rw [writesOf_append, writesOf_singleton] at hw
        rcases List.mem_append.1 hw with hw | hw
        · exact hs.keys w hw
        · exact Event.keys_writesOf he i w hw
      · rw [he.kept i hbounds, hs.opened, writesOf_append, writesOf_singleton,
          Transaction.afterAll_append]
        rfl
      · obtain ⟨hu, hp⟩ := hu.of_snoc hin.length_lt
        rw [h.unchanged he hp, hs.still hu]
  outside := fun i hout => by
    by_cases hbegins : e.Begins i
    · exact absurd ⟨e, hbegins, rfl, fun f hf => absurd hf List.not_mem_nil⟩ (hout es [])
    by_cases hcloses : e.Closes i
    · exact he.closed i hcloses
    have hbounds : ¬ e.Bounds i := fun hb => hb.elim hbegins hcloses
    have hnone := h.outside i fun before during hin =>
      hout before (during ++ [e]) (hin.snoc hbounds)
    rw [he.kept i hbounds, hnone]
    rfl

/-- **Every interleaving is traced** by its events, from a store without open transactions. -/
theorem Interleaving.traced (hdistinct : m₀.collections.Distinct)
    (hnone : ∀ i, m₀.transaction? (some i) = none) (hes : Interleaving m₀ es m) :
    Traced m₀ es m := by
  induction hes with
  | nil =>
    refine ⟨hdistinct, fun i before during hin => ?_, fun i _ => hnone i⟩
    obtain ⟨begun, -, hes, -⟩ := hin
    exact absurd hes.symm (by simp)
  | snoc hes he ih => exact ih.step hes he.effect

end Invariant

/-! ## Isolation -/

/-- **Snapshot isolation**, at the end of a history `es` that leads from `m₀` to `m`. -/
structure Isolated (m₀ : MemoryStore) (es : List Event) (m : MemoryStore) : Prop where
  /-- a session has an open transaction exactly while the history is inside one -/
  opened : ∀ i, (m.transaction? (some i)).isSome = true ↔
    ∃ before during, Inside i es before during
  /-- committed documents change by commits and by writes outside of transactions only -/
  unchanged : ∀ (e : Event) (m' : MemoryStore), e.Happens m m' → ¬ e.Publishes es →
    ∀ name, m'.collections.get name = m.collections.get name
  /-- a read in a transaction sees the documents committed when it began and its own writes since
  then -/
  reads : ∀ i before during, Inside i es before during → ∃ m₁, Interleaving m₀ before m₁ ∧
    ∀ (e : Event) (m' : MemoryStore) (q : StoreRead), e.Happens m m' → e.call = .read (some i) q →
      m' = m ∧ e.reply = q.on (m₁.collections.afterAll (writesOf i during))
  /-- a commit sets the documents that its transaction wrote to their last versions, and no
  others -/
  commits : ∀ (e : Event) (m' : MemoryStore) (i : SessionId), e.Happens m m' → e.Commits i →
    ∃ before during, Inside i es before during ∧
    ∀ name (id : Value), (m'.collections.get name).get? id =
      (lastVersion (writesOf i during) name id).getD ((m.collections.get name).get? id)

/-- **Interleavings are isolated.** From any store in which no transaction is open, after any events
of any callers, snapshot isolation holds. -/
theorem interleaving_isolated {m₀ m : MemoryStore} {es : List Event}
    (hdistinct : m₀.collections.Distinct) (hnone : ∀ i, m₀.transaction? (some i) = none)
    (hes : Interleaving m₀ es m) : Isolated m₀ es m := by
  have htraced := hes.traced hdistinct hnone
  refine ⟨htraced.isSome_iff, fun e m' he hp => htraced.unchanged he.effect hp,
    fun i before during hin => ?_, fun e m' i he hcommit => ?_⟩
  · obtain ⟨m₁, hs⟩ := htraced.inside i before during hin
    refine ⟨m₁, hs.reached, fun e m' q he hcall => ?_⟩
    rw [Event.Happens, hcall, StoreCall.run, StoreRead.run_eq, MemoryStore.view_of_open hs.opened,
      Transaction.working_afterAll] at he
    obtain ⟨hreply, hm⟩ := Prod.mk.inj he
    exact ⟨hm.symm, hreply.symm⟩
  · obtain ⟨before, during, m₁, hin, hs, hm'⟩ := htraced.committed he.effect hcommit
    refine ⟨before, during, hin, fun name id => ?_⟩
    rw [hm']
    exact get?_publish hs.keys hs.distinct htraced.distinct name id

/-- A book to be stored. -/
def letters : Document := [("_id", .int 2), ("title", .text "Letters")]

/-- A session begins a transaction, another caller stores a book, and the session stores one as
well. -/
def twoWriters : List Event :=
  [⟨.openSession, .ok (.session 0)⟩, ⟨.begin 0, .ok .done⟩,
    ⟨.create none "books" [("_id", .int 1)], .ok (.document (some [("_id", .int 1)]))⟩,
    ⟨.create (some 0) "books" letters, .ok (.document (some letters))⟩]

/-- The session sees its own book only. -/
theorem twoWriters_isolated : ∃ m, Interleaving MemoryStore.empty twoWriters m ∧
    Isolated MemoryStore.empty twoWriters m ∧
    ((StoreRead.matching "books" .null).run (some 0)).run.run m = (.ok (.documents [letters]), m) ∧
    ((StoreRead.matching "books" .null).run none).run.run m =
      (.ok (.documents [[("_id", .int 1)]]), m) := by
  have hes : Interleaving MemoryStore.empty twoWriters _ :=
    (((Interleaving.nil.call .openSession).call (.begin 0)).call
      (.create none "books" [("_id", .int 1)])).call (.create (some 0) "books" letters)
  have hdistinct : MemoryStore.empty.collections.Distinct := fun name => Collection.distinct_nil
  exact ⟨_, hes, interleaving_isolated hdistinct (fun i => rfl) hes, rfl, rfl⟩

end EntityGraph

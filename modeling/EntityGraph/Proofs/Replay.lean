import EntityGraph.Proofs.Overlap

/-!
# Transactions in sequence

The store does not look for conflicts: of two transactions that overlap and both commit, the second
one can undo an update of the first (`sharedWrites_lost`). It does not when it is **apart** from the
writes of the first (`Event.ApartFrom`). The proof makes both transactions again, one after the
other. The second one then works on documents over which the versions of the first one lie
(`Overlaid`); it finds there what it found before (`Event.Happens.replay`), and its commit publishes
the same writes (`Repeatable.replay_transaction`). The main statement is `overlapping_commits`.
-/

namespace EntityGraph

/-! ## The entries of a collection -/

namespace Collection

variable {c : Collection} {id k : Value} {d d' : Document}

/-- What is filed after a document was put: the document, under an identifier that cannot be told
from its own, and what was filed under other identifiers. -/
theorem mem_put_cases (hc : c.Distinct) (hid : id.isKey = true) (h : (k, d') ∈ put c id d) :
    (k, d') ∈ c ∧ k.eq id = false ∨ d' = d ∧ ∀ x, k.eq x = id.eq x := by
  induction c with
  | nil =>
    cases List.mem_singleton.1 h
    exact .inr ⟨rfl, fun _ => rfl⟩
  | cons e rest ih =>
    obtain ⟨l, old⟩ := e
    obtain ⟨hne, hrest⟩ := List.pairwise_cons.1 hc
    rw [put] at h
    by_cases hl : l.eq id = true
    · have hkey := Value.isKey_of_eq_right hid hl
      rw [if_pos hl] at h
      rcases List.mem_cons.1 h with heq | hm
      · cases heq
        exact .inr ⟨rfl, fun x => Value.eq_congr x hkey hl⟩
      · refine .inl ⟨List.mem_cons_of_mem _ hm, ?_⟩
        have hother : l.eq k = false := hne _ hm
        by_contra hk
        rw [Bool.not_eq_false] at hk
        rw [Value.eq_trans hkey hl (Value.eq_symm (Value.isKey_of_eq_right hid hk) hk)] at hother
        cases hother
    · rw [if_neg hl] at h
      rcases List.mem_cons.1 h with heq | hm
      · cases heq
        exact .inl ⟨List.mem_cons_self .., Bool.eq_false_iff.2 hl⟩
      · exact (ih hrest hm).imp_left fun h => ⟨List.mem_cons_of_mem _ h.1, h.2⟩

/-- A document that is filed is there, under a key equal to its identifier. -/
theorem exists_mem_put (c : Collection) (hid : id.isKey = true) (d : Document) :
    ∃ k, (k, d) ∈ put c id d ∧ ∀ x, k.eq x = id.eq x := by
  induction c with
  | nil => exact ⟨id, List.mem_singleton_self _, fun _ => rfl⟩
  | cons e rest ih =>
    obtain ⟨l, old⟩ := e
    rw [put]
    by_cases hl : l.eq id = true
    · rw [if_pos hl]
      exact ⟨l, List.mem_cons_self .., fun x =>
        Value.eq_congr x (Value.isKey_of_eq_right hid hl) hl⟩
    · rw [if_neg hl]
      obtain ⟨k, hk, heq⟩ := ih
      exact ⟨k, List.mem_cons_of_mem _ hk, heq⟩

theorem mem_put_of_mem (h : (k, d') ∈ c) (hk : k.eq id = false) (d : Document) :
    (k, d') ∈ put c id d := by
  induction c with
  | nil => cases h
  | cons e rest ih =>
    obtain ⟨l, old⟩ := e
    rw [put]
    rcases List.mem_cons.1 h with heq | hm
    · cases heq
      rw [hk]
      exact List.mem_cons_self ..
    · split
      · exact List.mem_cons_of_mem _ hm
      · exact List.mem_cons_of_mem _ (ih hm)

/-- What is left after a removal was there under another key. -/
theorem mem_erase_cases (hc : c.Distinct) (hid : id.isKey = true) (h : (k, d) ∈ erase c id) :
    (k, d) ∈ c ∧ k.eq id = false := by
  induction c with
  | nil => cases h
  | cons e rest ih =>
    obtain ⟨l, old⟩ := e
    obtain ⟨hne, hrest⟩ := List.pairwise_cons.1 hc
    rw [erase] at h
    by_cases hl : l.eq id = true
    · rw [if_pos hl] at h
      refine ⟨List.mem_cons_of_mem _ h, ?_⟩
      have hother : l.eq k = false := hne _ h
      by_contra hk
      rw [Bool.not_eq_false] at hk
      have hkey := Value.isKey_of_eq_right hid hl
      rw [Value.eq_trans hkey hl (Value.eq_symm (Value.isKey_of_eq_right hid hk) hk)] at hother
      cases hother
    · rw [if_neg hl] at h
      rcases List.mem_cons.1 h with heq | hm
      · cases heq
        exact ⟨List.mem_cons_self .., Bool.eq_false_iff.2 hl⟩
      · exact (ih hrest hm).imp_left fun hm => List.mem_cons_of_mem _ hm

theorem mem_erase_of_mem (h : (k, d) ∈ c) (hk : k.eq id = false) : (k, d) ∈ erase c id := by
  induction c with
  | nil => cases h
  | cons e rest ih =>
    obtain ⟨l, old⟩ := e
    rw [erase]
    rcases List.mem_cons.1 h with heq | hm
    · cases heq
      rw [hk]
      exact List.mem_cons_self ..
    · split
      · exact hm
      · exact List.mem_cons_of_mem _ (ih hm)

end Collection

/-! ## The check of unique paths, document by document -/

namespace MemoryStore

/-- A value is held by none when it is held by none of the documents alone. -/
theorem holdsValue_eq_false_iff {id : Value} {values : List Value} {path : String}
    {c : Collection} :
    holdsValue id values path c = .ok false ↔
      ∀ e ∈ c, holdsValue id values path [e] = .ok false := by
  induction c with
  | nil => exact ⟨fun _ e he => absurd he List.not_mem_nil, fun _ => rfl⟩
  | cons e rest ih =>
    rw [List.forall_mem_cons, ← ih]
    obtain ⟨k, other⟩ := e
    rw [holdsValue, holdsValue]
    rcases Record.get? other "_id" with _ | otherId
    · exact iff_of_false (fun h => by cases h) fun h => by cases h.1
    dsimp only
    split
    · exact (and_iff_right rfl).symm
    · split
      · exact iff_of_false (fun h => by cases h) fun h => by cases h.1
      · exact (and_iff_right rfl).symm

theorem checkUnique_cons (c : Collection) (name : String) (d : Document) (path : String)
    (rest : List String) :
    checkUnique c name d (path :: rest) =
      (do checkUnique c name d [path]; checkUnique c name d rest) := by
  rw [checkUnique, checkUnique]
  dsimp only
  split
  · rfl
  · rcases Record.get? d "_id" with _ | id
    · rfl
    · dsimp only
      rcases holdsValue id (uniqueValues d path) path c with f | _ | _ <;> rfl

/-- A document passes at a path when it has no value there, or is filed by its identifier and shares
none. -/
theorem checkUnique_singleton_iff {c : Collection} {name : String} {d : Document} {path : String} :
    checkUnique c name d [path] = .ok () ↔ uniqueValues d path = [] ∨ c = [] ∨
      ∃ id, Record.get? d "_id" = some id ∧
        holdsValue id (uniqueValues d path) path c = .ok false := by
  rw [checkUnique]
  dsimp only
  rcases uniqueValues d path with _ | ⟨v, vs⟩
  · exact iff_of_true rfl (.inl rfl)
  rcases c with _ | ⟨e, rest⟩
  · exact iff_of_true rfl (.inr (.inl rfl))
  rcases Record.get? d "_id" with _ | id
  · refine iff_of_false (fun h => by cases h) ?_
    rintro (h | h | ⟨_, h, -⟩) <;> cases h
  · rcases hholds : holdsValue id (v :: vs) path (e :: rest) with f | _ | _
    · refine iff_of_false (fun h => ?_) ?_
      · simp [hholds, Outcome.error_bind] at h
      · rintro (h | h | ⟨_, h, hh⟩) <;> cases h
        rw [hholds] at hh
        cases hh
    · exact iff_of_true (by simp [hholds, Outcome.ok_bind, checkUnique]; rfl)
        (.inr (.inr ⟨id, rfl, hholds⟩))
    · refine iff_of_false (fun h => ?_) ?_
      · simp [hholds, Outcome.ok_bind] at h
        cases h
      · rintro (h | h | ⟨_, h, hh⟩) <;> cases h
        rw [hholds] at hh
        cases hh

/-- **The check of unique paths** against a collection is the check against each of its
documents. -/
theorem checkUnique_eq_ok_iff {c : Collection} {name : String} {d : Document}
    {paths : List String} :
    checkUnique c name d paths = .ok () ↔ ∀ e ∈ c, checkUnique [e] name d paths = .ok () := by
  induction paths with
  | nil => exact ⟨fun _ _ _ => rfl, fun _ => rfl⟩
  | cons path rest ih =>
    have hsplit : ∀ c : Collection, checkUnique c name d (path :: rest) = .ok () ↔
        checkUnique c name d [path] = .ok () ∧ checkUnique c name d rest = .ok () := fun c => by
      rw [checkUnique_cons]
      rcases checkUnique c name d [path] with f | ⟨⟩
      · exact ⟨(fun h => nomatch h), (fun h => nomatch h.1)⟩
      · exact ⟨fun h => ⟨rfl, h⟩, fun h => h.2⟩
    simp only [hsplit, forall₂_and, ← ih, and_congr_left_iff]
    intro _
    simp only [checkUnique_singleton_iff]
    constructor
    · rintro (hv | rfl | ⟨id, hid, hh⟩) e he
      · exact .inl hv
      · exact absurd he List.not_mem_nil
      · exact .inr (.inr ⟨id, hid, holdsValue_eq_false_iff.1 hh e he⟩)
    · intro h
      rcases c with _ | ⟨e, c⟩
      · exact .inr (.inl rfl)
      by_cases hv : uniqueValues d path = []
      · exact .inl hv
      have hone : ∀ f ∈ e :: c, ∃ id, Record.get? d "_id" = some id ∧
          holdsValue id (uniqueValues d path) path [f] = .ok false := fun f hf =>
        ((h f hf).resolve_left hv).resolve_left (List.cons_ne_nil _ _)
      obtain ⟨id, hid, -⟩ := hone e (List.mem_cons_self ..)
      refine .inr (.inr ⟨id, hid, holdsValue_eq_false_iff.2 fun f hf => ?_⟩)
      obtain ⟨id', hid', hh⟩ := hone f hf
      cases hid.symm.trans hid'
      exact hh

/-- The check does not look at the identifier under which a document is filed. -/
theorem checkUnique_key (k k' : Value) (other : Document) (name : String) (d : Document)
    (paths : List String) :
    checkUnique [(k, other)] name d paths = checkUnique [(k', other)] name d paths := by
  induction paths with
  | nil => rfl
  | cons path rest ih =>
    rw [checkUnique_cons, checkUnique_cons _ _ _ _ rest, ih]
    rfl

end MemoryStore

/-! ## Writes that succeed -/

namespace MemoryStore

variable {m : MemoryStore} {caller : Option SessionId} {name : String} {id : Value}

/-- A document with an identifier is filed as it is. -/
theorem filed_of_id {d : Document} (hid : Record.get? d "_id" = some id) : m.filed d = d := by
  refine if_pos ?_
  rw [Record.has, hid]
  rfl

/-- A document with an identifier is filed under it when that is free and the document is unique. -/
theorem filing_of_id {d : Document} (hid : Record.get? d "_id" = some id) (hkey : id.isKey = true)
    (hfree : ((m.view caller).get name).get? id = none)
    (hcheck : checkUnique ((m.view caller).get name) name d (m.uniquePaths name) = .ok ()) :
    m.filing name d caller = .ok ⟨name, id, some d⟩ := by
  unfold filing
  dsimp only
  rw [filed_of_id hid, hid, Option.getD_some, hkey, hfree, hcheck]
  rfl

/-- A look-up under a key reads what the caller sees. -/
theorem lookupId_of_key (hkey : id.isKey = true) :
    m.lookupId caller name id = .ok (((m.view caller).get name).get? id) := if_pos hkey

theorem changing_of_none (hkey : id.isKey = true)
    (hnone : ((m.view caller).get name).get? id = none) (change : Value) :
    m.changing name id change caller = .ok none := by
  rw [changing, lookupId_of_key hkey, hnone]
  rfl

theorem changing_of_some {change : Value} {current updated : Document} (hkey : id.isKey = true)
    (hget : ((m.view caller).get name).get? id = some current)
    (happly : applyUpdate change current = .ok updated)
    (hcheck : checkUnique ((m.view caller).get name) name updated (m.uniquePaths name) = .ok ()) :
    m.changing name id change caller = .ok (some ⟨name, id, some updated⟩) := by
  rw [changing, lookupId_of_key hkey, hget, Outcome.ok_bind]
  dsimp only
  rw [happly, Outcome.ok_bind, hcheck]
  rfl

/-- What an update that finds no document has checked. -/
theorem changing_eq_none {change : Value} (h : m.changing name id change caller = .ok none) :
    id.isKey = true ∧ ((m.view caller).get name).get? id = none := by
  obtain ⟨d?, hd, h⟩ := bind_eq_ok h
  obtain ⟨hkey, hget⟩ := lookupId_eq_ok hd
  cases d? with
  | none => exact ⟨hkey, hget⟩
  | some current =>
    obtain ⟨updated, -, h⟩ := bind_eq_ok h
    obtain ⟨⟨⟩, -, h⟩ := bind_eq_ok h
    cases h

end MemoryStore

/-! ## One commit over another -/

/-- **Overlaid collections**: the documents that the writes left a version of are as they left them,
and the other ones as before. -/
structure Overlaid (ws : List Write) (cs cs' : Collections) : Prop where
  lookup : ∀ name (id : Value), lastVersion ws name id = none →
    (cs'.get name).get? id = (cs.get name).get? id
  entries : ∀ name, ∀ e ∈ cs'.get name, (∃ k, (k, e.2) ∈ cs.get name ∧ ∀ x, k.eq x = e.1.eq x) ∨
    ∃ id, lastVersion ws name id = some (some e.2)

namespace Overlaid

variable {ws : List Write} {cs cs' : Collections}

theorem refl (cs : Collections) : Overlaid [] cs cs :=
  ⟨fun _ _ _ => rfl, fun _ e he => .inl ⟨e.1, he, fun _ => rfl⟩⟩

/-- What a commit publishes lies over the documents that were committed before. -/
theorem publish (hkeys : ∀ w ∈ ws, w.id.isKey = true) (hcs : cs.Distinct) :
    Overlaid ws cs (MemoryStore.publish (Transaction.afterAll ⟨cs, []⟩ ws) cs) where
  lookup := fun name id hnone => by rw [get?_publish hkeys hcs hcs, hnone, Option.getD_none]
  entries := fun name e he => by
    rcases MemoryStore.mem_publish _ he with he | ⟨id, hwritten, hget⟩
    · exact .inl ⟨e.1, he, fun _ => rfl⟩
    · obtain ⟨k, -, hk⟩ := Collection.exists_mem_of_get? hget
      have hid := ((MemoryStore.Frame.start hcs).afterAll hkeys).keys _ hwritten
      have hself : id.eq id = true :=
        Value.eq_trans hid (Value.eq_symm (Value.isKey_of_eq_right hid hk) hk) hk
      obtain ⟨d?, hd⟩ := Option.isSome_iff_exists.1
        ((noted_afterAll hkeys cs name id).1 ⟨_, hwritten, rfl, hself⟩)
      rw [Transaction.working_afterAll, get?_afterAll hkeys hcs, hd, Option.getD_some] at hget
      exact .inr ⟨id, hd.trans (congrArg some hget)⟩

/-- The same write on both sides keeps collections overlaid. -/
theorem writeTo (h : Overlaid ws cs cs') (hcs : cs.Distinct) (hcs' : cs'.Distinct) {id : Value}
    (hid : id.isKey = true) (name : String) (d : Option Document) :
    Overlaid ws (MemoryStore.writeTo cs name id d) (MemoryStore.writeTo cs' name id d) where
  lookup := fun other k hnone => by
    rw [MemoryStore.get_writeTo hcs hid, MemoryStore.get_writeTo hcs' hid, h.lookup other k hnone]
  entries := fun other e he => by
    obtain ⟨k, doc⟩ := e
    by_cases hname : name = other
    · subst hname
      cases d with
      | some d =>
        rw [MemoryStore.get_writeTo_some] at he ⊢
        rcases Collection.mem_put_cases (hcs' name) hid he with ⟨hm, hk⟩ | ⟨rfl, hk⟩
        · refine (h.entries name _ hm).imp_left fun ⟨l, hl, heq⟩ => ⟨l, ?_, heq⟩
          exact Collection.mem_put_of_mem hl ((heq id).trans hk) d
        · obtain ⟨l, hl, heq⟩ := Collection.exists_mem_put (cs.get name) hid doc
          exact .inl ⟨l, hl, fun x => (heq x).trans (hk x).symm⟩
      | none =>
        rw [MemoryStore.get_writeTo_none] at he ⊢
        obtain ⟨hm, hk⟩ := Collection.mem_erase_cases (hcs' name) hid he
        refine (h.entries name _ hm).imp_left fun ⟨l, hl, heq⟩ => ⟨l, ?_, heq⟩
        exact Collection.mem_erase_of_mem hl ((heq id).trans hk)
    · rw [MemoryStore.get_writeTo_of_ne hname] at he ⊢
      exact h.entries other _ he

/-- The same writes on both sides keep the one over the other. -/
theorem afterAll {vs : List Write} (h : Overlaid ws cs cs') (hcs : cs.Distinct)
    (hcs' : cs'.Distinct) (hvs : ∀ w ∈ vs, w.id.isKey = true) :
    Overlaid ws (cs.afterAll vs) (cs'.afterAll vs) := by
  induction vs generalizing cs cs' with
  | nil => exact h
  | cons w rest ih =>
    refine ih (h.writeTo hcs hcs' (hvs w (List.mem_cons_self ..)) w.collection w.document)
      (MemoryStore.distinct_writeTo hcs _ _ _) (MemoryStore.distinct_writeTo hcs' _ _ _)
      fun v hv => hvs v (List.mem_cons_of_mem _ hv)

/-- A document that passes the check of unique paths, and passes it against each version that lies
over the others, passes it again. -/
theorem checkUnique (h : Overlaid ws cs cs') {name : String} {d : Document} {paths : List String}
    (hd : MemoryStore.checkUnique (cs.get name) name d paths = .ok ())
    (hws : ∀ id d', lastVersion ws name id = some (some d') →
      MemoryStore.checkUnique [(id, d')] name d paths = .ok ()) :
    MemoryStore.checkUnique (cs'.get name) name d paths = .ok () := by
  refine MemoryStore.checkUnique_eq_ok_iff.2 fun e he => ?_
  rcases h.entries name e he with ⟨k, hk, -⟩ | ⟨id, hid⟩
  · exact (MemoryStore.checkUnique_key e.1 k ..).trans (MemoryStore.checkUnique_eq_ok_iff.1 hd _ hk)
  · exact (MemoryStore.checkUnique_key e.1 id ..).trans (hws id _ hid)

end Overlaid

/-! ## A transaction on other documents -/

namespace Event

variable {e : Event} {m m' n : MemoryStore} {k : SessionId}

/-- The call of an event, where a creation brings the identifier that it was given. -/
def named (e : Event) : StoreCall :=
  match e.call, e.reply with
  | .create caller collection _, .ok (.document (some d)) => .create caller collection d
  | c, _ => c

/-- The event when its call is made on another store. -/
def replay (e : Event) (n : MemoryStore) : Event := ⟨e.named, (e.named.run.run.run n).1⟩

theorem happens_replay (e : Event) (n : MemoryStore) :
    (e.replay n).Happens n (e.named.run.run.run n).2 := rfl

/-- **An event apart from some writes**: it asks for no document that they left a version of, and
what it writes passes the check of unique paths against each of their versions. -/
structure ApartFrom (m : MemoryStore) (ws : List Write) (e : Event) : Prop where
  target : ∀ name id, e.named.target? = some (name, id) → lastVersion ws name id = none
  unique : ∀ w ∈ e.writes, ∀ d, w.document = some d → ∀ id d',
    lastVersion ws w.collection id = some (some d') →
    MemoryStore.checkUnique [(id, d')] w.collection d (m.uniquePaths w.collection) = .ok ()

/-- Every event is apart from no writes. -/
theorem apartFrom_nil (m : MemoryStore) (e : Event) : e.ApartFrom m [] :=
  ⟨fun _ _ _ => rfl, fun _ _ _ _ _ _ h => nomatch h⟩

theorem caller_named (e : Event) : e.named.caller = e.call.caller := by
  obtain ⟨call, reply⟩ := e
  unfold named
  split
  · rename_i hcall _
    dsimp only at hcall
    rw [hcall]
    rfl
  · rfl

/-- **Another store serves an event as well**: the collections are set up alike, as many failures
are injected, the document that it asks for is the same, and what it writes is unique where it
was. -/
structure Served (e : Event) (m n : MemoryStore) : Prop where
  schemas : n.schemas = m.schemas
  failures : n.failures = m.failures
  target : ∀ name id, e.named.target? = some (name, id) →
    ((n.view e.call.caller).get name).get? id = ((m.view e.call.caller).get name).get? id
  unique : ∀ w ∈ e.writes, ∀ d, w.document = some d →
    MemoryStore.checkUnique ((m.view e.call.caller).get w.collection) w.collection d
      (m.uniquePaths w.collection) = .ok () →
    MemoryStore.checkUnique ((n.view e.call.caller).get w.collection) w.collection d
      (m.uniquePaths w.collection) = .ok ()

section Served

variable {caller : Option SessionId} {collection : String} {id : Value} {v : StoreReply}

theorem Served.uniquePaths (h : e.Served m n) (name : String) :
    n.uniquePaths name = m.uniquePaths name := by
  rw [MemoryStore.uniquePaths, h.schemas]
  rfl

theorem Served.conflicts_iff (h : e.Served m n) (operation : String) :
    n.conflicts operation ↔ m.conflicts operation := by
  rw [MemoryStore.conflicts, h.failures]
  rfl

/-- **A creation is replayed** with the identifier that it made. -/
theorem replay_create {d : Document} (h : Happens ⟨.create caller collection d, .ok v⟩ m m')
    (hserved : Served ⟨.create caller collection d, .ok v⟩ m n) :
    replay ⟨.create caller collection d, .ok v⟩ n =
      ⟨named ⟨.create caller collection d, .ok v⟩, .ok v⟩ := by
  rw [Happens, StoreCall.run, Action.run_bind, MemoryStore.run_create_eq] at h
  split_ifs at h with hc
  · cases h
  rcases hw : m.filing collection d caller with f | w <;> rw [hw] at h <;> cases h
  obtain ⟨id, hid, hkey, hfree, hcheck, rfl⟩ := MemoryStore.filing_eq_ok hw
  have htarget : StoreCall.target? (.create caller collection (m.filed d)) =
      some (collection, id) := by
    rw [StoreCall.target?, hid, Option.getD_some]
  have hn : n.filing collection (m.filed d) caller = .ok ⟨collection, id, some (m.filed d)⟩ := by
    refine MemoryStore.filing_of_id hid hkey ((hserved.target collection id htarget).trans hfree) ?_
    rw [hserved.uniquePaths]
    exact hserved.unique ⟨collection, _, some (m.filed d)⟩ (List.mem_singleton_self _) _ rfl hcheck
  have hrun : ((StoreCall.run (.create caller collection (m.filed d))).run.run n).1 =
      .ok (.document (some (m.filed d))) := by
    rw [StoreCall.run, Action.run_bind, MemoryStore.run_create_eq,
      if_neg fun h => hc ((hserved.conflicts_iff _).1 h), hn, MemoryStore.filed_of_id hid]
    rfl
  exact congrArg (Event.mk _) hrun

/-- **A change is replayed** as it is. -/
theorem replay_update {change : Value}
    (h : Happens ⟨.update caller collection id change, .ok v⟩ m m')
    (hserved : Served ⟨.update caller collection id change, .ok v⟩ m n) :
    replay ⟨.update caller collection id change, .ok v⟩ n =
      ⟨.update caller collection id change, .ok v⟩ := by
  rw [Happens, StoreCall.run, Action.run_bind, MemoryStore.run_update_eq] at h
  split_ifs at h with hc
  · cases h
  have htarget := hserved.target collection id rfl
  suffices hn : n.changing collection id change caller = m.changing collection id change caller by
    refine congrArg (Event.mk _) ?_
    change ((StoreCall.run (.update caller collection id change)).run.run n).1 = .ok v
    rw [StoreCall.run, Action.run_bind, MemoryStore.run_update_eq,
      if_neg fun h => hc ((hserved.conflicts_iff _).1 h), hn]
    rcases hw : m.changing collection id change caller with f | _ | w <;> rw [hw] at h <;>
      cases h <;> rfl
  rcases hw : m.changing collection id change caller with f | _ | w <;> rw [hw] at h <;> cases h
  · obtain ⟨hkey, hnone⟩ := MemoryStore.changing_eq_none hw
    exact MemoryStore.changing_of_none hkey (htarget.trans hnone) change
  · obtain ⟨current, updated, hkey, hcurrent, happly, hcheck, rfl⟩ := MemoryStore.changing_eq_ok hw
    refine MemoryStore.changing_of_some hkey (htarget.trans hcurrent) happly ?_
    rw [hserved.uniquePaths]
    exact hserved.unique ⟨collection, id, some updated⟩ (List.mem_singleton_self _) _ rfl hcheck

/-- **A deletion is replayed** as it is. -/
theorem replay_delete (h : Happens ⟨.delete caller collection id, .ok v⟩ m m')
    (hserved : Served ⟨.delete caller collection id, .ok v⟩ m n) :
    replay ⟨.delete caller collection id, .ok v⟩ n = ⟨.delete caller collection id, .ok v⟩ := by
  rw [Happens, StoreCall.run, Action.run_bind, MemoryStore.run_delete_eq] at h
  split_ifs at h with hc
  · cases h
  have htarget : ((n.view caller).get collection).get? id =
      ((m.view caller).get collection).get? id :=
    hserved.target collection id rfl
  have hn : n.lookupId caller collection id = m.lookupId caller collection id := by
    unfold MemoryStore.lookupId
    rw [htarget]
  refine congrArg (Event.mk _) ?_
  change ((StoreCall.run (.delete caller collection id)).run.run n).1 = .ok v
  rw [StoreCall.run, Action.run_bind, MemoryStore.run_delete_eq,
    if_neg fun h => hc ((hserved.conflicts_iff _).1 h), hn]
  rcases hd : m.lookupId caller collection id with f | _ | d <;> rw [hd] at h <;> cases h <;> rfl

/-- **A read or write made again** on a store that serves it as well succeeds and writes the
same. -/
theorem Happens.replay (h : e.Happens m m') (hs : e.Succeeds) (hcall : e.call.Accesses)
    (hserved : e.Served m n) : (e.replay n).writes = e.writes ∧ (e.replay n).Succeeds := by
  obtain ⟨call, reply⟩ := e
  cases call with
  | create caller collection d =>
    obtain ⟨v, rfl⟩ : ∃ v, reply = .ok v := hs
    rw [replay_create h hserved]
    rcases v with _ | _ | (_ | d) | _ <;> exact ⟨rfl, _, rfl⟩
  | update caller collection id change =>
    obtain ⟨v, rfl⟩ : ∃ v, reply = .ok v := hs
    rw [replay_update h hserved]
    exact ⟨rfl, _, rfl⟩
  | delete caller collection id =>
    obtain ⟨v, rfl⟩ : ∃ v, reply = .ok v := hs
    rw [replay_delete h hserved]
    exact ⟨rfl, _, rfl⟩
  | read caller q => exact ⟨rfl, trivial⟩
  | _ => exact hcall.elim

end Served

end Event

/-! ## A transaction made again -/

/-- The store after some calls, one after the other. -/
def MemoryStore.runAll (m : MemoryStore) (calls : List StoreCall) : MemoryStore :=
  calls.foldl (fun m c => (c.run.run.run m).2) m

/-- Calls follow one another. -/
theorem MemoryStore.runAll_append (m : MemoryStore) (cs cs' : List StoreCall) :
    m.runAll (cs ++ cs') = (m.runAll cs).runAll cs' := List.foldl_append

/-- **Reads and writes that can be made again**: each succeeded on the documents with which its
transaction began and the writes before it, and is apart from some other writes. -/
structure Repeatable (m₀ : MemoryStore) (k : SessionId) (base : Collections) (ws : List Write)
    (ops : List Event) : Prop where
  calls : ∀ e ∈ ops, e.call.caller = some k
  succeeds : ∀ e ∈ ops, e.Succeeds
  happens : ∀ before e later, ops = before ++ e :: later → ∃ m m', e.Happens m m' ∧ SameSetup m₀ m ∧
    m.failures = m₀.failures ∧
    m.transaction? (some k) = some (Transaction.afterAll ⟨base, []⟩ (writesOf k before))
  apart : ∀ e ∈ ops, e.ApartFrom m₀ ws

theorem Repeatable.init {m₀ : MemoryStore} {k : SessionId} {base : Collections} {ws : List Write}
    {ops ops' : List Event} (h : Repeatable m₀ k base ws (ops ++ ops')) :
    Repeatable m₀ k base ws ops where
  calls := fun e he => h.calls e (List.mem_append_left _ he)
  succeeds := fun e he => h.succeeds e (List.mem_append_left _ he)
  happens := fun before e later heq => h.happens before e (later ++ ops') (by rw [heq]; simp)
  apart := fun e he => h.apart e (List.mem_append_left _ he)

/-- What a transaction of a session leaves as it is. -/
structure OnlyIn (k : SessionId) (n n' : MemoryStore) : Prop where
  setup : SameSetup n n'
  failures : n'.failures = n.failures
  others : ∀ i, i ≠ k → n'.transaction? (some i) = n.transaction? (some i)

theorem OnlyIn.trans {k : SessionId} {n n' n'' : MemoryStore} (h : OnlyIn k n n')
    (h' : OnlyIn k n' n'') :
    OnlyIn k n n'' :=
  ⟨h.setup.trans h'.setup, h'.failures.trans h.failures, fun i hi =>
    (h'.others i hi).trans (h.others i hi)⟩

section Replay

variable {m₀ n₀ n : MemoryStore} {k : SessionId} {base : Collections} {ws : List Write}
  {ops : List Event}

theorem Event.not_bounds_of_caller {e : Event} (h : e.call.caller = some k) (i : SessionId) :
    ¬ e.Bounds i := by
  refine Event.not_bounds_of_plain ?_ i
  cases hcall : e.call <;> first | exact trivial | (rw [hcall] at h; cases h)

/-- **One read or write of a transaction** made again in another one that began on documents that
lie over its own. -/
theorem Repeatable.served {e : Event} (h : Repeatable m₀ k base ws (ops ++ [e]))
    (hn : SameSetup m₀ n) (hfailures : n.failures = m₀.failures) {base' : Collections}
    (ho : Overlaid ws base base') (hbase : base.Distinct) (hbase' : base'.Distinct)
    (hkeys : ∀ w ∈ writesOf k ops, w.id.isKey = true)
    (hopen : n.transaction? (some k) = some (Transaction.afterAll ⟨base', []⟩ (writesOf k ops))) :
    ∃ m m', e.Happens m m' ∧ e.Served m n := by
  obtain ⟨m, m', he, hsetup, hm, hmopen⟩ := h.happens ops e [] rfl
  have hmem : e ∈ ops ++ [e] := List.mem_append_right _ (List.mem_singleton_self _)
  have hapart := h.apart e hmem
  have hview : m.view (some k) = base.afterAll (writesOf k ops) :=
    (MemoryStore.view_of_open hmopen).trans (Transaction.working_afterAll ..)
  have hview' : n.view (some k) = base'.afterAll (writesOf k ops) :=
    (MemoryStore.view_of_open hopen).trans (Transaction.working_afterAll ..)
  have hpaths : ∀ name, m.uniquePaths name = m₀.uniquePaths name := fun name => by
    rw [MemoryStore.uniquePaths, hsetup.schemas]
    rfl
  refine ⟨m, m', he, hn.schemas.trans hsetup.schemas.symm, hfailures.trans hm.symm,
    fun name id htarget => ?_, fun w hw d hd hcheck => ?_⟩
  · rw [h.calls e hmem, hview, hview', get?_afterAll hkeys hbase, get?_afterAll hkeys hbase',
      ho.lookup name id (hapart.target name id htarget)]
  · rw [h.calls e hmem, hview] at hcheck
    rw [h.calls e hmem, hview']
    refine (ho.afterAll hbase hbase' hkeys).checkUnique hcheck fun id d' hid => ?_
    rw [hpaths]
    exact hapart.unique w hw d hd id d' hid

/-- **The reads and writes of a transaction**, made again. -/
theorem Repeatable.replay (h : Repeatable m₀ k base ws ops) (hn₀ : SameSetup m₀ n₀)
    (hfailures : n₀.failures = m₀.failures) (ho : Overlaid ws base n₀.collections)
    (hbase : base.Distinct) (hdistinct : n₀.collections.Distinct)
    (hkeys : ∀ w ∈ writesOf k ops, w.id.isKey = true)
    (hopen : n₀.transaction? (some k) = some ⟨n₀.collections, []⟩) :
    (n₀.runAll (ops.map Event.named)).collections = n₀.collections ∧
      OnlyIn k n₀ (n₀.runAll (ops.map Event.named)) ∧
      (n₀.runAll (ops.map Event.named)).transaction? (some k) =
        some (Transaction.afterAll ⟨n₀.collections, []⟩ (writesOf k ops)) := by
  induction ops using List.reverseRecOn with
  | nil => exact ⟨rfl, ⟨.refl _, rfl, fun _ _ => rfl⟩, hopen⟩
  | append_singleton ops e ih =>
    have hmem : e ∈ ops ++ [e] := List.mem_append_right _ (List.mem_singleton_self _)
    rw [writesOf_append] at hkeys
    have hkeys' : ∀ w ∈ writesOf k ops, w.id.isKey = true :=
      fun w hw => hkeys w (List.mem_append_left _ hw)
    obtain ⟨hcollections, honly, hopened⟩ := ih h.init hkeys'
    rw [List.map_append, MemoryStore.runAll_append]
    generalize n₀.runAll (ops.map Event.named) = n at hcollections honly hopened
    obtain ⟨m, m', he, hserved⟩ :=
      h.served (hn₀.trans honly.setup) (honly.failures.trans hfailures) ho hbase
        hdistinct hkeys' hopened
    obtain ⟨hwrites, hsucceeds⟩ :=
      he.replay (h.succeeds e hmem) (StoreCall.accesses_of_caller (h.calls e hmem)) hserved
    have hcaller : (e.replay n).call.caller = some k :=
      (Event.caller_named e).trans (h.calls e hmem)
    have hhappens := Event.happens_replay e n
    change (e.named.run.run.run n).2.collections = _ ∧ OnlyIn k n₀ (e.named.run.run.run n).2 ∧
      (e.named.run.run.run n).2.transaction? (some k) = _
    generalize (e.named.run.run.run n).2 = n' at hhappens
    obtain ⟨hsetup, hkept⟩ := hhappens.keeps ⟨k, .inr (.inr hcaller)⟩
    have hlast : (e.replay n).writesOf k = e.writesOf k := by
      unfold Event.writesOf
      rw [hcaller, h.calls e hmem, hwrites]
    refine ⟨?_, honly.trans ⟨hsetup, hkept (.inl hsucceeds), fun i hi => ?_⟩, ?_⟩
    · rw [hhappens.collections (.inr ⟨k, hcaller, by rw [hopened]; rfl⟩), hcollections]
    · have hnone : (e.replay n).writesOf i = [] := if_neg fun heq => by
        rw [hcaller] at heq
        exact hi (Option.some.inj heq).symm
      rw [hhappens.effect.kept i (Event.not_bounds_of_caller hcaller i), hnone]
      cases n.transaction? (some i) <;> rfl
    · rw [hhappens.effect.kept k (Event.not_bounds_of_caller hcaller k), hopened, Option.map_some,
        hlast, writesOf_append, writesOf_singleton, Transaction.afterAll_append]

/-- A session without open transaction begins one. -/
theorem replay_begin {b : Event} (hb : b.Begins k) (hsession : k < n.sessions.length)
    (hnone : n.transaction? (some k) = none) :
    (b.named.run.run.run n).2.collections = n.collections ∧ OnlyIn k n (b.named.run.run.run n).2 ∧
      (b.named.run.run.run n).2.transaction? (some k) = some ⟨n.collections, []⟩ := by
  have hx : n.sessions[k]? = some n.sessions[k] := List.getElem?_eq_getElem hsession
  have hclosed := hnone
  rw [MemoryStore.transaction?_of_session hx] at hclosed
  have hset :=
    fun i =>
      MemoryStore.transaction?_set (y := ⟨some ⟨n.collections, []⟩, n.sessions[k].ended⟩) hx i
  have hrun : (b.named.run.run.run n).2 = { n with
      sessions := n.sessions.set k ⟨some ⟨n.collections, []⟩, n.sessions[k].ended⟩ } := by
    rw [show b.named = .begin k from by unfold Event.named; rw [hb.1]]
    rw [StoreCall.run, Action.run_bind, MemoryStore.run_begin_eq]
    simp only [hx, hclosed, Option.isSome_none, Bool.false_eq_true, if_false]
    rfl
  rw [hrun]
  refine ⟨rfl, ⟨⟨rfl, List.length_set ..⟩, rfl, fun i hi => ?_⟩, ?_⟩
  · rw [hset, if_neg (Ne.symm hi)]
  · rw [hset, if_pos rfl]

/-- A transaction that is open is committed, when no conflict is injected for it. -/
theorem replay_commit {c : Event} (hc : c.Commits k) {t : Transaction}
    (hopen : n.transaction? (some k) = some t) (hcommit : ¬ n.conflicts "commit") :
    (c.named.run.run.run n).2.collections = MemoryStore.publish t n.collections ∧
      OnlyIn k n (c.named.run.run.run n).2 := by
  obtain ⟨x, hx, hxt⟩ := Option.bind_eq_some_iff.1 ((Option.bind_some ..).symm.trans hopen)
  have hset := fun i => MemoryStore.transaction?_set (y := ⟨none, x.ended⟩) hx i
  have hrun : (c.named.run.run.run n).2 = { n with
      collections := MemoryStore.publish t n.collections
      commits := n.commits + 1
      sessions := n.sessions.set k ⟨none, x.ended⟩ } := by
    rw [show c.named = .commit k from by unfold Event.named; rw [hc.1]]
    rw [StoreCall.run, Action.run_bind, MemoryStore.run_commit_eq]
    simp only [hx, hxt, if_neg hcommit]
    rfl
  rw [hrun]
  refine ⟨rfl, ⟨rfl, List.length_set ..⟩, rfl, fun i hi => ?_⟩
  exact (hset i).trans (if_neg (Ne.symm hi))

/-- **A transaction made again** commits the same writes. -/
theorem Repeatable.replay_transaction (h : Repeatable m₀ k base ws ops) (hn₀ : SameSetup m₀ n₀)
    (hfailures : n₀.failures = m₀.failures) (ho : Overlaid ws base n₀.collections)
    (hbase : base.Distinct) (hdistinct : n₀.collections.Distinct)
    (hkeys : ∀ w ∈ writesOf k ops, w.id.isKey = true) (hsession : k < n₀.sessions.length)
    (hnone : n₀.transaction? (some k) = none) (hcommit : ¬ m₀.conflicts "commit") {b c : Event}
    (hb : b.Begins k) (hc : c.Commits k) :
    (n₀.runAll ((b :: ops ++ [c]).map Event.named)).collections =
        MemoryStore.publish (Transaction.afterAll ⟨n₀.collections, []⟩ (writesOf k ops))
        n₀.collections ∧
      OnlyIn k n₀ (n₀.runAll ((b :: ops ++ [c]).map Event.named)) := by
  obtain ⟨hcollections₁, honly₁, hopen₁⟩ := replay_begin hb hsession hnone
  rw [List.map_append, MemoryStore.runAll_append, List.map_cons]
  change (MemoryStore.runAll ((b.named.run.run.run n₀).2.runAll (ops.map Event.named))
    _).collections = _ ∧
    OnlyIn k n₀ (MemoryStore.runAll ((b.named.run.run.run n₀).2.runAll (ops.map Event.named)) _)
  generalize (b.named.run.run.run n₀).2 = n₁ at hcollections₁ honly₁ hopen₁
  rw [← hcollections₁] at ho hdistinct hopen₁ ⊢
  obtain ⟨hcollections₂, honly₂, hopen₂⟩ :=
    h.replay (hn₀.trans honly₁.setup) (honly₁.failures.trans hfailures) ho hbase
      hdistinct hkeys hopen₁
  generalize n₁.runAll (ops.map Event.named) = n₂ at hcollections₂ honly₂ hopen₂
  have hcalm : ¬ n₂.conflicts "commit" := by
    rw [MemoryStore.conflicts, honly₂.failures, honly₁.failures, hfailures]
    exact hcommit
  obtain ⟨hcollections₃, honly₃⟩ := replay_commit hc hopen₂ hcalm
  exact ⟨hcollections₃.trans (congrArg _ hcollections₂), (honly₁.trans honly₂).trans honly₃⟩

end Replay

/-! ## The second commit -/

/-- What a commit publishes depends on its writes only, not on the documents with which its
transaction began. -/
theorem publish_congr {ws : List Write} (hkeys : ∀ w ∈ ws, w.id.isKey = true)
    {base base' : Collections} (hbase : base.Distinct) (hbase' : base'.Distinct)
    (cs : Collections) :
    MemoryStore.publish (Transaction.afterAll ⟨base, []⟩ ws) cs =
      MemoryStore.publish (Transaction.afterAll ⟨base', []⟩ ws) cs := by
  have hwritten : ∀ t t' : Transaction, t.written = t'.written →
      (t.afterAll ws).written = (t'.afterAll ws).written := by
    clear hkeys
    induction ws with
    | nil => exact fun t t' h => h
    | cons w rest ih =>
      refine fun t t' h => ih (t.after w) (t'.after w) ?_
      change MemoryStore.noteWrite t.written _ _ = MemoryStore.noteWrite t'.written _ _
      rw [h]
  have hget : ∀ key ∈ (Transaction.afterAll ⟨base, []⟩ ws).written,
      ((base.afterAll ws).get key.1).get? key.2 = ((base'.afterAll ws).get key.1).get? key.2 := by
    intro key hkey
    rw [get?_afterAll hkeys hbase, get?_afterAll hkeys hbase']
    by_cases hself : key.2.eq key.2 = true
    · obtain ⟨d?, hd⟩ :=
        Option.isSome_iff_exists.1 ((noted_afterAll hkeys base key.1 key.2).1 ⟨key, hkey, rfl,
          hself⟩)
      rw [hd, Option.getD_some, Option.getD_some]
    · have hid := ((MemoryStore.Frame.start hbase).afterAll hkeys).keys key hkey
      have hnone : ∀ c : Collection, c.get? key.2 = none := fun c => by
        refine Option.eq_none_iff_forall_ne_some.2 fun d hd => ?_
        obtain ⟨k, -, hk⟩ := Collection.exists_mem_of_get? hd
        exact hself (Value.eq_trans hid (Value.eq_symm (Value.isKey_of_eq_right hid hk) hk) hk)
      rw [hnone, hnone]
  rw [MemoryStore.publish, MemoryStore.publish, ← hwritten ⟨base, []⟩ ⟨base', []⟩ rfl,
    Transaction.working_afterAll, Transaction.working_afterAll]
  generalize (Transaction.afterAll ⟨base, []⟩ ws).written = written at hget
  induction written generalizing cs with
  | nil => rfl
  | cons key rest ih =>
    rw [List.foldl_cons, List.foldl_cons, MemoryStore.publishOne_eq, MemoryStore.publishOne_eq,
      show ((base.afterAll ws).get key.1).get? key.2 = _ from hget key (List.mem_cons_self ..)]
    exact ih _ fun key' hkey' => hget key' (List.mem_cons_of_mem _ hkey')

namespace Course

variable {i j : SessionId} {es : List Event} {c : Course i j es} {m₀ m₁ m₂ m₃ m : MemoryStore}

theorem distinct_middle (hdistinct : m₀.collections.Distinct)
    (hkeys : ∀ w ∈ writesOf i es, w.id.isKey = true) :
    (c.middle m₀).Distinct :=
  MemoryStore.distinct_publish hdistinct ((MemoryStore.Frame.start hdistinct).afterAll hkeys)

theorem distinct_base (hdistinct : m₀.collections.Distinct)
    (hkeys : ∀ w ∈ writesOf i es, w.id.isKey = true) :
    (c.base m₀).Distinct := by
  unfold base
  split
  · exact distinct_middle hdistinct hkeys
  · exact hdistinct

theorem eventsOf_first (c : Course i j es) (hij : i ≠ j) :
    eventsOf i es = c.firstBegins :: c.firstOps ++ [c.firstCommit] := by
  have hne : ∀ e : Event, e.session? = some j → e.session? ≠ some i := fun e he heq =>
    hij (Option.some.inj (heq.symm.trans he))
  have hlate : eventsOf i (c.late ++ [c.secondCommit]) = [] :=
      List.filter_eq_nil_iff.2 fun e he => by
    rcases List.mem_append.1 he with he | he
    · simpa using hne e (c.alone e he)
    · obtain rfl := List.mem_singleton.1 he
      simpa using hne _ c.commitsSecond.session?
  conv_lhs => rw [c.history]
  rw [eventsOf_append, eventsOf_cons_of_eq c.commitsFirst.session?, hlate, c.first]

theorem eventsOf_second (c : Course i j es) (hij : i ≠ j) :
    eventsOf j es = c.secondBegins :: c.secondOps ++ [c.secondCommit] := by
  have hfirst : c.firstCommit.session? ≠ some j := by
    rw [c.commitsFirst.session?]
    exact fun heq => hij (Option.some.inj heq)
  have hlate : eventsOf j c.late = c.late := List.filter_eq_self.2 fun e he => by
    simpa using c.alone e he
  conv_lhs => rw [c.history]
  rw [eventsOf_append, eventsOf_cons_of_ne hfirst, eventsOf_append, hlate,
    eventsOf_cons_of_eq c.commitsSecond.session?, ← List.append_assoc, c.second]
  rfl

theorem mem_of_firstOps (c : Course i j es) (hij : i ≠ j) {e : Event} (he : e ∈ c.firstOps) :
    e ∈ eventsOf i es := by
  rw [c.eventsOf_first hij]
  simp [he]

theorem mem_of_secondOps (c : Course i j es) (hij : i ≠ j) {e : Event} (he : e ∈ c.secondOps) :
    e ∈ eventsOf j es := by
  rw [c.eventsOf_second hij]
  simp [he]

namespace Run

variable (h : c.Run m₀ m₁ m₂ m₃ m) (hij : i ≠ j)

include h hij

/-- **The outcome, document by document**: as the second transaction left it, else as the first one
did, else as before. -/
theorem get?_end (hdistinct : m₀.collections.Distinct)
    (hkeys : ∀ k, ∀ w ∈ writesOf k es, w.id.isKey = true) (name : String) (id : Value) :
    (m.collections.get name).get? id =
      (lastVersion (writesOf j es) name id).getD
        ((lastVersion (writesOf i es) name id).getD ((m₀.collections.get name).get? id)) := by
  rw [h.collections_end hij, get?_publish (hkeys j) (distinct_base hdistinct (hkeys i))
    (distinct_middle hdistinct (hkeys i)), middle, get?_publish (hkeys i) hdistinct hdistinct]

/-- A transaction that begins before the first commit had none open before it in its session. -/
theorem fresh_early {k : SessionId} {b : Event} {ops : List Event}
    (hops : eventsOf k c.early = b :: ops) (hb : b.Begins k) :
    m₀.transaction? (some k) = none ∧ k < m₀.sessions.length := by
  obtain ⟨before, later, hearly, hbefore, -⟩ := exists_of_eventsOf (l := []) hops
  have hrun := h.early
  rw [hearly, interleaving_append] at hrun
  obtain ⟨n, hn, hrun⟩ := hrun
  rw [← List.singleton_append, interleaving_append] at hrun
  obtain ⟨n', hn', -⟩ := hrun
  obtain ⟨x, hx, hxt, -⟩ := (interleaving_singleton.1 hn').begin hb
  have horderly : Orderly m₀ c.early := c.orderly_early hij
  rw [hearly] at horderly
  have hunderway := horderly.init.underway hn
  have hnone : ∀ e ∈ before, ¬ e.Begins k := fun e he hbegins => by
    have hmem : e ∈ eventsOf k before := mem_eventsOf.2 ⟨he, hbegins.session?⟩
    rw [hbefore] at hmem
    cases hmem
  refine ⟨?_, ?_⟩
  · have hkept := hunderway.kept k hnone
    rw [MemoryStore.transaction?_of_session hx, hxt] at hkept
    exact Option.map_eq_none_iff.1 hkept.symm
  · rw [← hunderway.setup.sessions]
    exact (List.getElem?_eq_some_iff.1 hx).1

theorem fresh_second : m₀.transaction? (some j) = none ∧ j < m₀.sessions.length := by
  by_cases hearly : eventsOf j c.early = []
  · have hsecond := c.second
    rw [hearly, List.nil_append] at hsecond
    have hrun := h.late
    rw [hsecond, ← List.singleton_append, interleaving_append] at hrun
    obtain ⟨n, hn, -⟩ := hrun
    obtain ⟨x, hx, hxt, -⟩ := (interleaving_singleton.1 hn).begin c.beginsSecond
    have hunderway := h.underway_early hij
    have hnone : ∀ e ∈ c.early, ¬ e.Begins j := fun e he hbegins => by
      have hmem : e ∈ eventsOf j c.early := mem_eventsOf.2 ⟨he, hbegins.session?⟩
      rw [hearly] at hmem
      cases hmem
    have hkept := hunderway.kept j hnone
    rw [← h.transaction?_middle hij, MemoryStore.transaction?_of_session hx, hxt] at hkept
    have hsetup := (h.firstCommit.keeps ⟨i, .inr (.inl c.commitsFirst)⟩).1
    refine ⟨Option.map_eq_none_iff.1 hkept.symm, ?_⟩
    rw [← hunderway.setup.sessions, ← hsetup.sessions]
    exact (List.getElem?_eq_some_iff.1 hx).1
  · obtain ⟨ops, hops, -, -⟩ := h.begun_early hij hearly
    exact h.fresh_early hij hops c.beginsSecond

/-- A read or write before the first commit happened on the documents that were committed at first,
with the writes of its transaction. -/
theorem happens_early (hsucceeds : ∀ e ∈ es, e.Succeeds) {k : SessionId} {b e : Event}
    {before later : List Event} (hops : eventsOf k c.early = b :: before ++ e :: later)
    (hb : b.Begins k) :
    ∃ n n', e.Happens n n' ∧ SameSetup m₀ n ∧ n.failures = m₀.failures ∧
      n.transaction? (some k) =
        some (Transaction.afterAll ⟨m₀.collections, []⟩ (writesOf k before)) := by
  obtain ⟨a, z, hearly, ha, -⟩ := exists_of_eventsOf hops
  have hrun := h.early
  have horderly : Orderly m₀ c.early := c.orderly_early hij
  rw [hearly] at horderly
  rw [hearly, interleaving_append] at hrun
  obtain ⟨n, hn, hrun⟩ := hrun
  rw [← List.singleton_append, interleaving_append] at hrun
  obtain ⟨n', hn', -⟩ := hrun
  have hunderway := horderly.init.underway hn
  have hmem : b ∈ a := (mem_eventsOf.1 (ha ▸ List.mem_cons_self ..)).1
  refine ⟨n, n', interleaving_singleton.1 hn', hunderway.setup,
    hunderway.failures (.inl fun f hf => hsucceeds f ?_), ?_⟩
  · rw [c.history, hearly]
    simp [hf]
  · rw [hunderway.begun k ⟨b, hmem, hb⟩, ← writesOf_eventsOf, ha]
    exact congrArg (fun vs => some (Transaction.afterAll _ (vs ++ writesOf k before)))
      (hb.writesOf_eq_nil k)

/-- **The first transaction** can be made again. -/
theorem repeatable_first (hsucceeds : ∀ e ∈ es, e.Succeeds) :
    Repeatable m₀ i m₀.collections [] c.firstOps where
  calls := c.callsFirst
  succeeds := fun e he => hsucceeds e (mem_eventsOf.1 (c.mem_of_firstOps hij he)).1
  happens := fun before e later heq =>
    h.happens_early hij hsucceeds (by rw [c.first, heq]; rfl) c.beginsFirst
  apart := fun e _ => e.apartFrom_nil m₀

/-- A read or write between the commits happened on the documents with which the second transaction
began, with its writes before it. -/
theorem happens_late (hsucceeds : ∀ e ∈ es, e.Succeeds) {e : Event} {before l later : List Event}
    (hlate : c.late = l ++ e :: later)
    (hbefore : c.secondBegins :: before = eventsOf j c.early ++ l) :
    ∃ n n', e.Happens n n' ∧ SameSetup m₀ n ∧ n.failures = m₀.failures ∧
      n.transaction? (some j) =
        some (Transaction.afterAll ⟨c.base m₀, []⟩ (writesOf j before)) := by
  have hrun := h.late
  have horderly := h.orderly_late hij
  rw [hlate] at horderly
  rw [hlate, interleaving_append] at hrun
  obtain ⟨n, hn, hrun⟩ := hrun
  rw [← List.singleton_append, interleaving_append] at hrun
  obtain ⟨n', hn', -⟩ := hrun
  have hearly := h.underway_early hij
  have hunderway := horderly.init.underway hn
  obtain ⟨hsetup, hfailures⟩ := h.firstCommit.keeps ⟨i, .inr (.inl c.commitsFirst)⟩
  have hsub : ∀ f ∈ es, f.Succeeds := hsucceeds
  rw [c.history, hlate] at hsub
  refine ⟨n, n', interleaving_singleton.1 hn', (hearly.setup.trans hsetup).trans hunderway.setup,
    ?_, ?_⟩
  · rw [hunderway.failures (.inl fun f hf => hsub f (by simp [hf])),
      hfailures (.inl (hsub _ (by simp))), hearly.failures (.inl fun f hf => hsub f (by simp [hf]))]
  · rw [h.transaction?_late hij hlate hn (by rw [← hbefore]; exact List.cons_ne_nil _ _), ← hbefore]
    exact congrArg (fun vs => some (Transaction.afterAll _ (vs ++ writesOf j before)))
      (c.beginsSecond.writesOf_eq_nil j)

/-- **The second transaction** can be made again when it is apart from some writes. -/
theorem repeatable_second (hsucceeds : ∀ e ∈ es, e.Succeeds) {ws : List Write}
    (hapart : ∀ e ∈ eventsOf j es, e.ApartFrom m₀ ws) :
    Repeatable m₀ j (c.base m₀) ws c.secondOps where
  calls := c.callsSecond
  succeeds := fun e he => hsucceeds e (mem_eventsOf.1 (c.mem_of_secondOps hij he)).1
  apart := fun e he => hapart e (c.mem_of_secondOps hij he)
  happens := fun before e later heq => by
    have hsecond := c.second
    rw [heq, ← List.cons_append] at hsecond
    rcases List.append_eq_append_iff.1 hsecond with ⟨l, hbefore, hlate⟩ | ⟨l, hearly, hl⟩
    · exact h.happens_late hij hsucceeds hlate hbefore
    · rcases l with _ | ⟨f, l⟩
      · exact h.happens_late hij hsucceeds (l := []) hl.symm
          (by rw [hearly, List.append_nil, List.append_nil])
      · rw [List.cons_append, List.cons.injEq] at hl
        obtain ⟨rfl, -⟩ := hl
        have hbase : c.base m₀ = m₀.collections := if_neg (by rw [hearly]; simp)
        rw [hbase]
        exact h.happens_early hij hsucceeds hearly c.beginsSecond

/-- **In sequence**: the two transactions made again, one after the other, lead to the same
documents, when the second is apart from some writes and what the first one committed lies over the
documents with which the second began. -/
theorem collections_serial (hdistinct : m₀.collections.Distinct)
    (hkeys : ∀ k, ∀ w ∈ writesOf k es, w.id.isKey = true) (hsucceeds : ∀ e ∈ es, e.Succeeds)
    {ws : List Write} (hover : Overlaid ws (c.base m₀) (c.middle m₀))
    (hapart : ∀ e ∈ eventsOf j es, e.ApartFrom m₀ ws) :
    (m₀.runAll ((eventsOf i es ++ eventsOf j es).map Event.named)).collections = m.collections := by
  have hwrites₁ : writesOf i c.firstOps = writesOf i es := by
    rw [← c.writes_first hij, ← writesOf_eventsOf i c.early, c.first]
    exact (congrArg (· ++ writesOf i c.firstOps) (c.beginsFirst.writesOf_eq_nil i)).symm
  have hwrites₂ : writesOf j c.secondOps = writesOf j es := by
    rw [← c.writes_second, c.second]
    exact (congrArg (· ++ writesOf j c.secondOps) (c.beginsSecond.writesOf_eq_nil j)).symm
  have hcommit : ¬ m₀.conflicts "commit" := by
    obtain ⟨-, -, -, -, hcalm, -⟩ := h.firstCommit.commit c.commitsFirst
    rw [MemoryStore.conflicts, (h.underway_early hij).failures (.inl fun e he =>
      hsucceeds e ?_)] at hcalm
    · exact hcalm
    · rw [c.history]
      exact List.mem_append_left _ he
  have hmem : c.firstBegins ∈ c.early := (mem_eventsOf.1 (c.first ▸ List.mem_cons_self ..)).1
  obtain ⟨hnone₁, hsession₁⟩ := h.fresh_early hij c.first c.beginsFirst
  obtain ⟨hnone₂, hsession₂⟩ := h.fresh_second hij
  obtain ⟨hcollections₁, honly⟩ :=
    (h.repeatable_first hij hsucceeds).replay_transaction (.refl m₀) rfl (.refl _) hdistinct
      hdistinct (hwrites₁ ▸ hkeys i) hsession₁ hnone₁ hcommit c.beginsFirst c.commitsFirst
  rw [c.eventsOf_first hij, c.eventsOf_second hij, List.map_append, MemoryStore.runAll_append]
  generalize m₀.runAll ((c.firstBegins :: c.firstOps ++ [c.firstCommit]).map Event.named) =
    n at hcollections₁ honly
  rw [hwrites₁] at hcollections₁
  have hmiddle : n.collections = c.middle m₀ := hcollections₁
  have hdistinct₂ := distinct_middle (c := c) hdistinct (hkeys i)
  obtain ⟨hcollections₂, -⟩ :=
    (h.repeatable_second hij hsucceeds hapart).replay_transaction honly.setup honly.failures
      (hmiddle ▸ hover) (distinct_base hdistinct (hkeys i)) (hmiddle ▸ hdistinct₂)
      (hwrites₂ ▸ hkeys j)
    (by rw [honly.setup.sessions]; exact hsession₂)
      (by rw [honly.others j (Ne.symm hij)]; exact hnone₂) hcommit
    c.beginsSecond c.commitsSecond
  rw [hcollections₂, hwrites₂, hmiddle, h.collections_end hij]
  exact publish_congr (hkeys j) hdistinct₂ (distinct_base hdistinct (hkeys i)) _

end Run

end Course

/-! ## Two transactions -/

section Two

variable {i j k : SessionId} {m₀ m : MemoryStore} {es : List Event}

theorem IsTransaction.transactional (h : IsTransaction k es) : ∀ e ∈ es, e.Transactional := by
  obtain ⟨b, ops, c, rfl, hb, hc, hops⟩ := h
  intro e he
  rcases List.mem_append.1 he with he | he
  · rcases List.mem_cons.1 he with rfl | he
    · exact ⟨k, .inl hb⟩
    · exact ⟨k, .inr (.inr (hops e he))⟩
  · obtain rfl := List.mem_singleton.1 he
    exact ⟨k, .inr (.inl hc)⟩

theorem TwoTransactions.transactional (h : TwoTransactions i j es) : ∀ e ∈ es, e.Transactional :=
    fun e he =>
  (h.only e he).elim (fun hi => h.first.transactional e (mem_eventsOf.2 ⟨he, hi⟩))
    fun hj => h.second.transactional e (mem_eventsOf.2 ⟨he, hj⟩)

/-- Transactions inject no conflicts. -/
theorem Interleaving.calm (hes : Interleaving m₀ es m) (h : ∀ e ∈ es, e.Transactional)
    (hcalm : m₀.Calm) :
    m.Calm := by
  induction hes with
  | nil => exact hcalm
  | snoc hes he ih =>
    have hbefore := ih fun f hf => h f (List.mem_append_left _ hf)
    exact hbefore.of_failures
      ((he.keeps (h _ (List.mem_append_right _ (List.mem_singleton_self _)))).2 (.inr hbefore))

/-- Without injected conflicts no write of a transaction fails for a conflict. -/
theorem Interleaving.not_transient (hes : Interleaving m₀ es m) (h : ∀ e ∈ es, e.Transactional)
    (hcalm : m₀.Calm) {e : Event} (he : e ∈ es) (hw : e.call.target?.isSome = true) {f : Fault}
    (hf : e.reply = .error f) :
    f.isTransient = false := by
  obtain ⟨before, later, rfl⟩ := List.append_of_mem he
  obtain ⟨n, hn, hes⟩ := interleaving_append.1 hes
  rw [← List.singleton_append] at hes
  obtain ⟨n', hn', -⟩ := interleaving_append.1 hes
  exact (interleaving_singleton.1 hn').not_transient
    (hn.calm (fun g hg => h g (List.mem_append_left _ hg)) hcalm) hw hf

/-- What a transaction began with and what is committed before its own commit, when the two did not
overlap. -/
theorem Course.early_of_sequence (c : Course i j es) (hij : i ≠ j)
    (h : es = eventsOf i es ++ eventsOf j es) :
    eventsOf j c.early = [] := by
  have hhistory := c.history.symm.trans h
  rcases List.append_eq_append_iff.1 hhistory with ⟨l, hfirst, -⟩ | ⟨l, -, hsecond⟩
  · refine List.filter_eq_nil_iff.2 fun e he => ?_
    have hi :=
      (mem_eventsOf.1 (show e ∈ eventsOf i es by rw [hfirst]; exact List.mem_append_left _ he)).2
    simpa [hi] using hij
  · have hmem : c.firstCommit ∈ eventsOf j es := by
      rw [hsecond]
      exact List.mem_append_right _ (List.mem_cons_self ..)
    have hj := (mem_eventsOf.1 hmem).2
    rw [c.commitsFirst.session?] at hj
    exact absurd (Option.some.inj hj) hij

/-- **Overlapping transactions.** When two transactions of a store both commit, each document is
left as the transaction that committed last wrote it, else as the other one did, and no write fails
for a conflict that was not injected. If all their writes succeed, and they did not overlap or the
one that committed last is apart from the writes of the other one, then the same documents are
committed when the two run one after the other. -/
theorem overlapping_commits (hdistinct : m₀.collections.Distinct) (htwo : TwoTransactions i j es)
    (hes : Interleaving m₀ es m) :
    (∀ name (id : Value), (m.collections.get name).get? id =
      (lastVersion (writesOf j es) name id).getD
        ((lastVersion (writesOf i es) name id).getD ((m₀.collections.get name).get? id))) ∧
    (∀ e ∈ es, e.call.target?.isSome = true → ∀ f, e.reply = .error f → f.isTransient = true →
      ∃ operation, m₀.conflicts operation) ∧
    ((∀ e ∈ es, e.Succeeds) →
      es = eventsOf i es ++ eventsOf j es ∨ (∀ e ∈ eventsOf j es, e.ApartFrom m₀ (writesOf i es)) →
      (m₀.runAll ((eventsOf i es ++ eventsOf j es).map Event.named)).collections =
        m.collections) := by
  have hij := htwo.different
  have hkeys := fun k => hes.keys k
  obtain ⟨c⟩ := htwo.course
  obtain ⟨m₁, m₂, m₃, hrun⟩ := c.exists_run hes
  refine ⟨hrun.get?_end hij hdistinct hkeys, fun e he hw f hf htransient =>
    ?_, fun hsucceeds happart => ?_⟩
  · by_contra hnone
    push Not at hnone
    rw [hes.not_transient htwo.transactional hnone he hw hf] at htransient
    cases htransient
  · by_cases hearly : eventsOf j c.early = []
    · have hbase : c.base m₀ = c.middle m₀ := if_pos (by rw [hearly]; rfl)
      exact hrun.collections_serial hij hdistinct hkeys hsucceeds (hbase ▸ Overlaid.refl _)
        fun e _ => e.apartFrom_nil m₀
    · have hbase : c.base m₀ = m₀.collections := if_neg (by simpa using hearly)
      refine hrun.collections_serial hij hdistinct hkeys hsucceeds ?_
        (happart.resolve_left fun h => hearly (c.early_of_sequence hij h))
      rw [hbase]
      exact Overlaid.publish (hkeys i) hdistinct

end Two

/-! ## Two books -/

/-- A store with two books, whose titles are unique, and two sessions. -/
def twoBooks : MemoryStore := { MemoryStore.empty with
  collections := [("books", [(.int 1,
    [("_id", .int 1), ("title", .text "Letters"), ("author", .text "Ann")]),
      (.int 2, [("_id", .int 2), ("title", .text "Essays"), ("author", .text "Bea")])])]
  schemas := [("books", ⟨"books", .null, ["title"]⟩)]
  sessions := [⟨none, false⟩, ⟨none, false⟩] }

theorem distinct_twoBooks : twoBooks.collections.Distinct := by
  intro name
  change Collection.Distinct (Collections.get [("books", _)] name)
  by_cases h : "books" = name
  · subst h
    exact List.pairwise_cons.2 ⟨by decide, List.pairwise_singleton ..⟩
  · rw [Collections.get, Record.get?, Record.get?]
    simp [h]
    exact Collection.distinct_nil

/-- A session begins a transaction. -/
def beginning (k : SessionId) : Event := ⟨.begin k, .ok .done⟩

/-- A session commits its transaction. -/
def committing (k : SessionId) : Event := ⟨.commit k, .ok .done⟩

/-- The first session gives the first book another title. -/
def retitling : Event :=
  ⟨.update (some 0) "books" (.int 1) (.object [("$set", .object [("title", .text "Poems")])]),
    .ok (.document (some [("_id", .int 1), ("title", .text "Poems"), ("author", .text "Ann")]))⟩

/-- The second session gives the first book another author. -/
def reassigning : Event :=
  ⟨.update (some 1) "books" (.int 1) (.object [("$set", .object [("author", .text "Cleo")])]),
    .ok (.document (some [("_id", .int 1), ("title", .text "Letters"), ("author", .text "Cleo")]))⟩

/-- The second session adds a book. -/
def adding : Event :=
  ⟨.create (some 1) "books" [("_id", .int 3), ("title", .text "Plays")],
    .ok (.document (some [("_id", .int 3), ("title", .text "Plays")]))⟩

/-- The second session removes the second book. -/
def removing : Event :=
  ⟨.delete (some 1) "books" (.int 2),
    .ok (.document (some [("_id", .int 2), ("title", .text "Essays"), ("author", .text "Bea")]))⟩

/-- Two sessions that write different books. -/
def apartWrites : List Event :=
  [beginning 0, beginning 1, retitling, adding, committing 0, removing, committing 1]

/-- Two sessions that each set another field of one book. -/
def sharedWrites : List Event :=
  [beginning 0, beginning 1, retitling, reassigning, committing 0, committing 1]

theorem begins_beginning (k : SessionId) : (beginning k).Begins k := ⟨rfl, _, rfl⟩

theorem commits_committing (k : SessionId) : (committing k).Commits k := ⟨rfl, _, rfl⟩

theorem isTransaction_retitling : IsTransaction 0 [beginning 0, retitling, committing 0] :=
  ⟨_, [retitling], _, rfl, begins_beginning 0,
    commits_committing 0, by simp [retitling, StoreCall.caller]⟩

theorem twoTransactions_apartWrites : TwoTransactions 0 1 apartWrites where
  different := by decide
  only := by decide
  first := isTransaction_retitling
  second := ⟨_, [adding, removing], _, rfl, begins_beginning 1, commits_committing 1, by
    simp [adding, removing, StoreCall.caller]⟩
  last := ⟨[beginning 0, beginning 1, retitling, adding, committing 0, removing], _, rfl,
    commits_committing 1⟩

theorem twoTransactions_sharedWrites : TwoTransactions 0 1 sharedWrites where
  different := by decide
  only := by decide
  first := isTransaction_retitling
  second := ⟨_, [reassigning], _, rfl, begins_beginning 1, commits_committing 1, by
    simp [reassigning, StoreCall.caller]⟩
  last := ⟨[beginning 0, beginning 1, retitling, reassigning, committing 0], _, rfl,
    commits_committing 1⟩

/-- The added book has another title than the book has now, and the other calls ask for other
books. -/
theorem apart_apartWrites :
    ∀ e ∈ eventsOf 1 apartWrites, e.ApartFrom twoBooks (writesOf 0 apartWrites) := by
  intro e he
  have hmem : e ∈ [beginning 1, adding, removing, committing 1] := he
  simp only [List.mem_cons, List.not_mem_nil, or_false] at hmem
  rcases hmem with rfl | rfl | rfl | rfl
  · exact ⟨fun _ _ h => (nomatch h), fun _ h => (nomatch h)⟩
  · refine ⟨fun name id h => ?_, fun w hw d hd id d' hid => ?_⟩
    · cases h
      rfl
    · obtain rfl := List.mem_singleton.1 hw
      cases hd
      rw [MemoryStore.checkUnique_key id .null]
      change (if "books" = "books" ∧ (Value.int 1).eq id = true then _ else _) = _ at hid
      split at hid
      · cases hid
        rfl
      · cases hid
  · refine ⟨fun name id h => ?_, fun w hw d hd => ?_⟩
    · cases h
      rfl
    · obtain rfl := List.mem_singleton.1 hw
      cases hd
  · exact ⟨fun _ _ h => (nomatch h), fun _ h => (nomatch h)⟩

/-- One book is retitled while another session adds a book and removes one: the books are then the
same as after the two transactions one after the other. -/
theorem apartWrites_serial : twoBooks.collections.Distinct ∧ TwoTransactions 0 1 apartWrites ∧
    ∃ m, Interleaving twoBooks apartWrites m ∧
    (∀ e ∈ apartWrites, e.Succeeds) ∧
    (∀ e ∈ eventsOf 1 apartWrites, e.ApartFrom twoBooks (writesOf 0 apartWrites)) ∧
    (twoBooks.runAll ((eventsOf 0 apartWrites ++ eventsOf 1 apartWrites).map
      Event.named)).collections = m.collections ∧
    (m.documents "books").map (Record.get? · "title") =
      [some (.text "Poems"), some (.text "Plays")] := by
  have hes : Interleaving twoBooks apartWrites _ :=
    ((((((Interleaving.nil.call (beginning 0).call).call (beginning 1).call).call
      retitling.call).call adding.call).call (committing 0).call).call removing.call).call
      (committing 1).call
  have hsucceeds : ∀ e ∈ apartWrites, e.Succeeds := by
    intro e he
    simp only [apartWrites, List.mem_cons, List.not_mem_nil, or_false] at he
    rcases he with rfl | rfl | rfl | rfl | rfl | rfl | rfl <;> exact ⟨_, rfl⟩
  obtain ⟨-, -, hserial⟩ := overlapping_commits distinct_twoBooks twoTransactions_apartWrites hes
  exact ⟨distinct_twoBooks, twoTransactions_apartWrites, _, hes, hsucceeds, apart_apartWrites,
    hserial hsucceeds (.inr apart_apartWrites), rfl⟩

/-- **An update is lost**: two sessions each set another field of one book, every call returns, and
yet neither order of the two transactions leads to the book that is committed. -/
theorem sharedWrites_lost : TwoTransactions 0 1 sharedWrites ∧ (∀ e ∈ sharedWrites, e.Returned) ∧
    ∃ m, Interleaving twoBooks sharedWrites m ∧
    m.collections ≠
      (twoBooks.runAll ((eventsOf 0 sharedWrites ++ eventsOf 1 sharedWrites).map
        Event.named)).collections ∧
    m.collections ≠
      (twoBooks.runAll ((eventsOf 1 sharedWrites ++ eventsOf 0 sharedWrites).map
        Event.named)).collections := by
  have hes : Interleaving twoBooks sharedWrites _ :=
    (((((Interleaving.nil.call (beginning 0).call).call (beginning 1).call).call
      retitling.call).call reassigning.call).call (committing 0).call).call (committing 1).call
  have hreturned : ∀ e ∈ sharedWrites, e.Returned := by
    intro e he
    simp only [sharedWrites, List.mem_cons, List.not_mem_nil, or_false] at he
    rcases he with rfl | rfl | rfl | rfl | rfl | rfl <;> exact ⟨_, rfl⟩
  have htitle : ∀ {m m' : MemoryStore}, m.collections = m'.collections →
      ((m.collections.get "books").get? (.int 1)).bind (Record.get? · "title") =
        ((m'.collections.get "books").get? (.int 1)).bind (Record.get? · "title") := fun h => by
          rw [h]
  refine ⟨twoTransactions_sharedWrites, hreturned, _, hes, fun h => ?_, fun h => ?_⟩
  · have hsame : some (Value.text "Letters") = some (Value.text "Poems") := htitle h
    simp at hsame
  · have hsame : some (Value.text "Letters") = some (Value.text "Poems") := htitle h
    simp at hsame

end EntityGraph

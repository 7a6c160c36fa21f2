import EntityGraph.Proofs.StoreSteps

/-!
# Sessions of the memory store

What is done through a session with an open transaction changes the private copy of that transaction
and leaves the committed documents alone (`Wrote`), as the equations of the operations show. The
private copy differs from the documents that the transaction began with only where it was written
(`Frame`), so publishing what was written makes the committed documents those of the copy
(`publish_same`).
-/

namespace EntityGraph

/-! ## Collections by name -/

namespace Collections

/-- Putting in a collection changes this one only. -/
theorem get_put (cs : Collections) (name other : String) (c : Collection) :
    get (Record.put cs name c) other = if name = other then c else cs.get other := by
  unfold get
  rw [Record.get?_put]
  split <;> rfl

/-- No collection files an identifier twice. -/
def Distinct (cs : Collections) : Prop := ∀ name, (cs.get name).Distinct

/-- **The same documents**: the same collections exist, and each identifier names the same document
in both. -/
def Same (cs cs' : Collections) : Prop :=
  (∀ name, Record.has cs name = Record.has cs' name) ∧
    ∀ name id, (cs.get name).get? id = (cs'.get name).get? id

end Collections

/-! ## Runs of writes -/

/-- The collections after some writes. -/
def Collections.afterAll (cs : Collections) (ws : List Write) : Collections :=
  ws.foldl Collections.after cs

/-- An open transaction after some writes. -/
def Transaction.afterAll (t : Transaction) (ws : List Write) : Transaction :=
  ws.foldl Transaction.after t

/-- A session after some writes in its transaction. -/
def Session.afterAll (x : Session) (ws : List Write) : Session :=
  { x with transaction := x.transaction.map (·.afterAll ws) }

/-- Writes follow one another. -/
theorem Transaction.afterAll_append (t : Transaction) (ws ws' : List Write) :
    t.afterAll (ws ++ ws') = (t.afterAll ws).afterAll ws' := List.foldl_append

@[simp] theorem Transaction.working_afterAll (t : Transaction) (ws : List Write) :
    (t.afterAll ws).working = t.working.afterAll ws := by
  induction ws generalizing t with
  | nil => rfl
  | cons w rest ih => exact ih (t.after w)

/-- A session after no writes is as it was. -/
theorem Session.afterAll_nil (x : Session) : x.afterAll [] = x := by
  obtain ⟨t, _⟩ := x
  cases t <;> rfl

theorem Session.afterAll_append (x : Session) (ws ws' : List Write) :
    x.afterAll (ws ++ ws') = (x.afterAll ws).afterAll ws' := by
  obtain ⟨t, _⟩ := x
  cases t with
  | none => rfl
  | some t => simp [Session.afterAll, Transaction.afterAll_append]

namespace MemoryStore

/-- **Writing through a session**: the store `m'` is the store `m` after the writes `ws` in the
transaction of session `s`. The committed documents and the other sessions are as before; injected
failures and identifiers may have been used up. -/
structure Wrote (s : SessionId) (ws : List Write) (m m' : MemoryStore) : Prop where
  collections : m'.collections = m.collections
  schemas : m'.schemas = m.schemas
  commits : m'.commits = m.commits
  aborts : m'.aborts = m.aborts
  sessions : ∀ i, m'.sessions[i]? =
    (m.sessions[i]?).map fun x => if i = s then x.afterAll ws else x
  keys : ∀ w ∈ ws, w.id.isKey = true

namespace Wrote

variable {s : SessionId} {ws ws' : List Write} {m m' m'' : MemoryStore}

/-- Writing nothing leaves the store. -/
theorem refl (s : SessionId) (m : MemoryStore) : Wrote s [] m m where
  collections := rfl
  schemas := rfl
  commits := rfl
  aborts := rfl
  sessions := fun i => by
    rcases m.sessions[i]? with _ | x
    · rfl
    · rw [Option.map_some, Session.afterAll_nil, ite_self]
  keys := fun w hw => absurd hw List.not_mem_nil

/-- Writes of a session follow one another. -/
theorem trans (h : Wrote s ws m m') (h' : Wrote s ws' m' m'') : Wrote s (ws ++ ws') m m'' where
  collections := h'.collections.trans h.collections
  schemas := h'.schemas.trans h.schemas
  commits := h'.commits.trans h.commits
  aborts := h'.aborts.trans h.aborts
  sessions := fun i => by
    rw [h'.sessions i, h.sessions i]
    rcases m.sessions[i]? with _ | x
    · rfl
    · by_cases hi : i = s <;> simp [hi, Session.afterAll_append]
  keys := fun w hw => by
    rcases List.mem_append.1 hw with hw | hw
    · exact h.keys w hw
    · exact h'.keys w hw

/-- The transaction after the writes. -/
theorem transaction? (h : Wrote s ws m m') :
    m'.transaction? (some s) = (m.transaction? (some s)).map (·.afterAll ws) := by
  unfold MemoryStore.transaction?
  rw [Option.bind_some, Option.bind_some, h.sessions s]
  rcases m.sessions[s]? with _ | x
  · rfl
  · simp [Session.afterAll]

end Wrote

/-! ## What the operations of a session write -/

section Operations

variable {s : SessionId} {t : Transaction} {m m' : MemoryStore}

/-- In its transaction a session sees the private copy. -/
theorem view_of_open (ht : m.transaction? (some s) = some t) : m.view (some s) = t.working := by
  rw [view, ht]

/-- Using up an injected failure or an identifier writes nothing. -/
theorem wrote_nil (s : SessionId) (m : MemoryStore) (failures : Record Int) (lastId : Nat) :
    Wrote s [] m { m with failures := failures, lastId := lastId } :=
  { Wrote.refl s m with }

/-- A write where the caller's view is, which is the transaction. -/
theorem wrote_after (ht : m.transaction? (some s) = some t) {w : Write} (hw : w.id.isKey = true) :
    Wrote s [w] m (m.after (some s) w) := by
  rw [after_of_open ht]
  refine ⟨rfl, rfl, rfl, rfl, fun i => ?_, fun w' hw' => ?_⟩
  · rw [List.getElem?_modify]
    rcases hx : m.sessions[i]? with _ | x
    · rfl
    · rw [Option.map_some]
      refine congrArg some ?_
      dsimp only
      by_cases hi : s = i
      · subst hi
        have hxt : x.transaction = some t := (transaction?_of_session hx).symm.trans ht
        rw [if_pos rfl, if_pos rfl, Session.afterAll, hxt]
        rfl
      · rw [if_neg hi, if_neg (Ne.symm hi)]
  · obtain rfl := List.mem_singleton.1 hw'
    exact hw

/-- **Creation** in a session writes a document that has an identifier of its own, or fails and
writes nothing. -/
theorem run_create (ht : m.transaction? (some s) = some t) {collection : String} {d : Document}
    {r : Outcome Document} (h : (create collection d (some s)).run.run m = (r, m')) :
    ((∃ e, r = .error e) ∧ Wrote s [] m m') ∨
    ∃ id, r = .ok (m.filed d) ∧ Record.get? (m.filed d) "_id" = some id ∧
      (t.working.get collection).get? id = none ∧
      Wrote s [⟨collection, id, some (m.filed d)⟩] m m' := by
  rw [run_create_eq] at h
  split_ifs at h
  · cases h
    exact .inl ⟨⟨_, rfl⟩, wrote_nil s m _ m.lastId⟩
  have hnumbered : Wrote s [] m m.numbered := wrote_nil s m m.failures _
  rcases hw : m.filing collection d (some s) with e | w
  · rw [hw] at h
    cases h
    exact .inl ⟨⟨_, rfl⟩, hnumbered⟩
  · rw [hw] at h
    cases h
    obtain ⟨id, hid, hkey, hfree, -, rfl⟩ := filing_eq_ok hw
    rw [view_of_open ht] at hfree
    exact .inr ⟨id, rfl, hid, hfree, hnumbered.trans (wrote_after (m := m.numbered) ht hkey)⟩

/-- A lookup in a transaction reads the private copy, under identifiers that can be keys. -/
theorem run_lookupId (ht : m.transaction? (some s) = some t) (collection : String) (id : Value) :
    m.lookupId (some s) collection id =
      if id.isKey then .ok ((t.working.get collection).get? id) else .error .illTyped := by
  rw [lookupId, view_of_open ht]
  rfl

/-- **Changes** in a session write the changed document, or write nothing when there is no document,
or fail and write nothing. -/
theorem run_update (ht : m.transaction? (some s) = some t) {collection : String} {id change : Value}
    {r : Outcome (Option Document)}
    (h : (update collection id change (some s)).run.run m = (r, m')) :
    (((∃ e, r = .error e) ∨ r = .ok none) ∧ Wrote s [] m m') ∨
    ∃ d d', r = .ok (some d') ∧ id.isKey = true ∧ (t.working.get collection).get? id = some d ∧
      applyUpdate change d = .ok d' ∧ Wrote s [⟨collection, id, some d'⟩] m m' := by
  rw [run_update_eq] at h
  split_ifs at h
  · cases h
    exact .inl ⟨.inl ⟨_, rfl⟩, wrote_nil s m _ m.lastId⟩
  rcases hw : m.changing collection id change (some s) with e | _ | w
  · rw [hw] at h
    cases h
    exact .inl ⟨.inl ⟨_, rfl⟩, Wrote.refl s m⟩
  · rw [hw] at h
    cases h
    exact .inl ⟨.inr rfl, Wrote.refl s m⟩
  · rw [hw] at h
    cases h
    obtain ⟨d, d', hkey, hd, hupdate, -, rfl⟩ := changing_eq_ok hw
    rw [view_of_open ht] at hd
    exact .inr ⟨d, d', rfl, hkey, hd, hupdate, wrote_after ht hkey⟩

/-- **Removal** in a session writes that there is no document, or writes nothing when there is none,
or fails and writes nothing. -/
theorem run_delete (ht : m.transaction? (some s) = some t) {collection : String} {id : Value}
    {r : Outcome (Option Document)} (h : (delete collection id (some s)).run.run m = (r, m')) :
    (((∃ e, r = .error e) ∨ r = .ok none) ∧ Wrote s [] m m') ∨
    ∃ d, r = .ok (some d) ∧ id.isKey = true ∧ (t.working.get collection).get? id = some d ∧
      Wrote s [⟨collection, id, none⟩] m m' := by
  rw [run_delete_eq] at h
  split_ifs at h
  · cases h
    exact .inl ⟨.inl ⟨_, rfl⟩, wrote_nil s m _ m.lastId⟩
  rcases hd : m.lookupId (some s) collection id with e | _ | d
  · rw [hd] at h
    cases h
    exact .inl ⟨.inl ⟨_, rfl⟩, Wrote.refl s m⟩
  · rw [hd] at h
    cases h
    exact .inl ⟨.inr rfl, Wrote.refl s m⟩
  · rw [hd] at h
    cases h
    obtain ⟨hkey, hget⟩ := lookupId_eq_ok hd
    rw [view_of_open ht] at hget
    exact .inr ⟨d, rfl, hkey, hget, wrote_after ht hkey⟩

end Operations

/-- **Nothing but the transaction of a session**, if one is open, is written between two states. -/
def InSession (s : SessionId) (m m' : MemoryStore) : Prop :=
  (m.transaction? (some s)).isSome = true → ∃ ws, Wrote s ws m m'

namespace InSession

variable {s : SessionId}

/-- Doing nothing is done in a session. -/
theorem refl (m : MemoryStore) : InSession s m m := fun _ => ⟨[], Wrote.refl s m⟩

/-- What is done in a session can be followed by more of it. -/
theorem trans {m m' m'' : MemoryStore} (h : InSession s m m') (h' : InSession s m' m'') :
    InSession s m m'' := by
  intro ho
  obtain ⟨ws, hw⟩ := h ho
  have ho' : (m'.transaction? (some s)).isSome = true := by
    rw [hw.transaction?, Option.isSome_map]
    exact ho
  obtain ⟨ws', hw'⟩ := h' ho'
  exact ⟨ws ++ ws', hw.trans hw'⟩

/-- What an operation does with an open transaction decides. -/
theorem moves_of_open {α : Type} {a : Action MemoryStore α}
    (h : ∀ m t r m', m.transaction? (some s) = some t → a.run.run m = (r, m') →
      ∃ ws, Wrote s ws m m') : Moves (InSession s) (fun _ => True) a := by
  refine fun m => ⟨fun ho => ?_, fun _ _ => trivial⟩
  obtain ⟨t, ht⟩ := Option.isSome_iff_exists.1 ho
  exact h m t _ _ ht rfl

/-- **Creation** stays in its session. -/
theorem create (collection : String) (d : Document) :
    Moves (InSession s) (fun _ => True) (create collection d (some s)) := by
  refine moves_of_open fun m t r m' ht h => ?_
  rcases run_create ht h with ⟨-, hw⟩ | ⟨id, -, -, -, hw⟩
  · exact ⟨_, hw⟩
  · exact ⟨_, hw⟩

theorem findById (collection : String) (id : Value) :
    Moves (InSession s) (fun _ => True) (findById collection id (some s)) :=
  moves_of_open fun m t r m' ht h => by
    cases h
    exact ⟨[], Wrote.refl s m⟩

/-- **Change** stays in its session. -/
theorem update (collection : String) (id change : Value) :
    Moves (InSession s) (fun _ => True) (update collection id change (some s)) := by
  refine moves_of_open fun m t r m' ht h => ?_
  rcases run_update ht h with ⟨-, hw⟩ | ⟨d, d', -, -, -, -, hw⟩
  · exact ⟨_, hw⟩
  · exact ⟨_, hw⟩

/-- **Deletion** stays in its session. -/
theorem delete (collection : String) (id : Value) :
    Moves (InSession s) (fun _ => True) (delete collection id (some s)) := by
  refine moves_of_open fun m t r m' ht h => ?_
  rcases run_delete ht h with ⟨-, hw⟩ | ⟨d, -, -, -, hw⟩
  · exact ⟨_, hw⟩
  · exact ⟨_, hw⟩

end InSession

/-! ## The private copy -/

/-- A document was written, as a transaction notes it. -/
def Noted (written : List (String × Value)) (collection : String) (id : Value) : Prop :=
  ∃ w ∈ written, w.1 = collection ∧ w.2.eq id = true

/-- **After a write** the document is found under its identifier, and every other one is as it
was. -/
theorem get_writeTo {cs : Collections} (hcs : cs.Distinct) {collection : String} {id : Value}
    (hid : id.isKey = true) (d : Option Document) (collection' : String) (id' : Value) :
    ((writeTo cs collection id d).get collection').get? id' =
      if collection = collection' ∧ id.eq id' = true then d
      else (cs.get collection').get? id' := by
  rcases d with _ | d
  · rw [writeTo, Collections.get_put]
    by_cases hc : collection = collection'
    · subst hc
      rw [if_pos rfl, Collection.get?_erase (hcs collection) hid]
      simp
    · rw [if_neg hc, if_neg fun h => hc h.1]
  · rw [writeTo, Collections.get_put]
    by_cases hc : collection = collection'
    · subst hc
      rw [if_pos rfl, Collection.get?_put hid]
      simp
    · rw [if_neg hc, if_neg fun h => hc h.1]

theorem get_writeTo_some (cs : Collections) (collection : String) (id : Value) (d : Document) :
    (writeTo cs collection id (some d)).get collection = (cs.get collection).put id d :=
  (Collections.get_put ..).trans (if_pos rfl)

theorem get_writeTo_none (cs : Collections) (collection : String) (id : Value) :
    (writeTo cs collection id none).get collection = (cs.get collection).erase id :=
  (Collections.get_put ..).trans (if_pos rfl)

/-- A write changes no other collection. -/
theorem get_writeTo_of_ne {collection name : String} (h : collection ≠ name) (cs : Collections)
    (id : Value) (d : Option Document) : (writeTo cs collection id d).get name = cs.get name := by
  rcases d with _ | d <;> exact (Collections.get_put ..).trans (if_neg h)

/-- A write keeps identifiers distinct. -/
theorem distinct_writeTo {cs : Collections} (hcs : cs.Distinct) (collection : String) (id : Value)
    (d : Option Document) : (writeTo cs collection id d).Distinct := by
  intro name
  rcases d with _ | d <;> rw [writeTo, Collections.get_put] <;> split
  · exact (hcs collection).erase id
  · exact hcs name
  · exact (hcs collection).put id d
  · exact hcs name

/-- So do writes one after the other. -/
theorem distinct_afterAll (ws : List Write) {cs : Collections} (hcs : cs.Distinct) :
    (cs.afterAll ws).Distinct := by
  induction ws generalizing cs with
  | nil => exact hcs
  | cons w rest ih => exact ih (distinct_writeTo hcs _ _ _)

/-- A write sets up its collection. -/
theorem has_writeTo (cs : Collections) (collection : String) (id : Value) (d : Option Document)
    (name : String) :
    Record.has (writeTo cs collection id d) name = (Record.has cs name || collection == name) := by
  have hput : ∀ c : Collection, Record.has (Record.put cs collection c) name =
      (Record.has cs name || collection == name) := by
    intro c
    rw [Record.has, Record.get?_put]
    by_cases h : collection = name <;> simp [h, Record.has]
  rcases d with _ | d
  · exact hput _
  · exact hput _

/-- A write is noted, and what was noted stays so. -/
theorem noted_noteWrite {written : List (String × Value)} (hw : ∀ w ∈ written, w.2.isKey = true)
    (collection : String) (id : Value) (collection' : String) (id' : Value) :
    Noted (noteWrite written collection id) collection' id' ↔
      Noted written collection' id' ∨ collection = collection' ∧ id.eq id' = true := by
  unfold noteWrite
  split
  · rename_i h
    obtain ⟨w, hmem, hnoted⟩ := List.any_eq_true.1 h
    obtain ⟨hname, heq⟩ := Bool.and_eq_true_iff.1 hnoted
    refine ⟨.inl, ?_⟩
    rintro (h | ⟨rfl, hid⟩)
    · exact h
    · exact ⟨w, hmem, beq_iff_eq.1 hname, Value.eq_trans (hw w hmem) heq hid⟩
  · constructor
    · rintro ⟨w, hmem, hname, heq⟩
      rcases List.mem_append.1 hmem with hmem | hmem
      · exact .inl ⟨w, hmem, hname, heq⟩
      · obtain rfl := List.mem_singleton.1 hmem
        exact .inr ⟨hname, heq⟩
    · rintro (⟨w, hmem, h⟩ | h)
      · exact ⟨w, List.mem_append_left _ hmem, h⟩
      · exact ⟨_, List.mem_append_right _ (List.mem_singleton_self _), h⟩

/-- **The frame of a transaction**: its private copy differs from the documents it began with only
where a write was noted. -/
structure Frame (base : Collections) (t : Transaction) : Prop where
  distinct : t.working.Distinct
  keys : ∀ w ∈ t.written, w.2.isKey = true
  unwritten : ∀ collection (id : Value), ¬ Noted t.written collection id →
    (t.working.get collection).get? id = (base.get collection).get? id
  has : ∀ collection, Record.has t.working collection =
    (Record.has base collection || t.written.any (·.1 == collection))

namespace Frame

variable {base : Collections} {t : Transaction}

/-- A transaction begins with the copy of what is committed. -/
theorem start (h : base.Distinct) : Frame base ⟨base, []⟩ where
  distinct := h
  keys := fun _ hw => absurd hw List.not_mem_nil
  unwritten := fun _ _ _ => rfl
  has := fun _ => by simp

/-- The names of the collections that a write is noted for. -/
theorem any_noteWrite (written : List (String × Value)) (collection : String) (id : Value)
    (name : String) : (noteWrite written collection id).any (·.1 == name) =
      (written.any (·.1 == name) || collection == name) := by
  unfold noteWrite
  split
  · rename_i h
    obtain ⟨w, hmem, hnoted⟩ := List.any_eq_true.1 h
    by_cases hc : collection = name
    · have hname : written.any (·.1 == name) = true :=
        List.any_eq_true.2 ⟨w, hmem, hc ▸ (Bool.and_eq_true_iff.1 hnoted).1⟩
      rw [hname, Bool.true_or]
    · simp [hc]
  · simp

/-- **A write** keeps the frame. -/
theorem after (h : Frame base t) {w : Write} (hw : w.id.isKey = true) : Frame base (t.after w) where
  distinct := distinct_writeTo h.distinct _ _ _
  keys := fun v hv => by
    change v ∈ noteWrite t.written w.collection w.id at hv
    unfold noteWrite at hv
    split at hv
    · exact h.keys v hv
    · rcases List.mem_append.1 hv with hv | hv
      · exact h.keys v hv
      · obtain rfl := List.mem_singleton.1 hv
        exact hw
  unwritten := fun collection id hn => by
    have hnot := (not_congr (noted_noteWrite h.keys w.collection w.id collection id)).1 hn
    rw [not_or] at hnot
    change ((writeTo t.working w.collection w.id w.document).get collection).get? id = _
    rw [get_writeTo h.distinct hw, if_neg hnot.2]
    exact h.unwritten collection id hnot.1
  has := fun collection => by
    change Record.has (writeTo t.working w.collection w.id w.document) collection =
      (_ || (noteWrite t.written w.collection w.id).any _)
    rw [has_writeTo, any_noteWrite, h.has, Bool.or_assoc]

/-- Writes keep the frame. -/
theorem afterAll {ws : List Write} (h : Frame base t) (hws : ∀ w ∈ ws, w.id.isKey = true) :
    Frame base (t.afterAll ws) := by
  induction ws generalizing t with
  | nil => exact h
  | cons w rest ih =>
    exact ih (h.after (hws w (List.mem_cons_self ..))) fun v hv => hws v (List.mem_cons_of_mem _ hv)

end Frame

/-! ## Publication -/

section Publication

variable {working cs : Collections}

/-- Publishing a document writes it as it is in the private copy. -/
theorem publishOne_eq (working cs : Collections) (key : String × Value) :
    publishOne working cs key = writeTo cs key.1 key.2 ((working.get key.1).get? key.2) := rfl

/-- Publishing one document takes it from the private copy, and leaves the others. -/
theorem get_publishOne (hcs : cs.Distinct) {key : String × Value} (hkey : key.2.isKey = true)
    (collection : String) (id : Value) :
    ((publishOne working cs key).get collection).get? id =
      if key.1 = collection ∧ key.2.eq id = true then (working.get collection).get? id
      else (cs.get collection).get? id := by
  rw [publishOne_eq, get_writeTo hcs hkey]
  by_cases h : key.1 = collection ∧ key.2.eq id = true
  · rw [if_pos h, if_pos h, h.1, Collection.get?_congr _ hkey h.2]
  · rw [if_neg h, if_neg h]

/-- What is published comes from the private copy, and the rest stays. -/
theorem get_foldl_publishOne {written : List (String × Value)} (hcs : cs.Distinct)
    (hw : ∀ w ∈ written, w.2.isKey = true) (collection : String) (id : Value) :
    (written.foldl (publishOne working) cs).Distinct ∧
    (Noted written collection id →
      ((written.foldl (publishOne working) cs).get collection).get? id =
        (working.get collection).get? id) ∧
    (¬ Noted written collection id →
      ((written.foldl (publishOne working) cs).get collection).get? id =
        (cs.get collection).get? id) := by
  induction written generalizing cs with
  | nil => exact ⟨hcs, fun ⟨w, hmem, _⟩ => absurd hmem List.not_mem_nil, fun _ => rfl⟩
  | cons key rest ih =>
    have hkey := hw key (List.mem_cons_self ..)
    have hcs' : (publishOne working cs key).Distinct := by
      rw [publishOne_eq]
      exact distinct_writeTo hcs _ _ _
    obtain ⟨hd, hnoted, hother⟩ := ih hcs' fun w hmem => hw w (List.mem_cons_of_mem _ hmem)
    rw [List.foldl_cons]
    refine ⟨hd, fun h => ?_, fun h => ?_⟩
    · by_cases hrest : Noted rest collection id
      · exact hnoted hrest
      · obtain ⟨w, hmem, hname, heq⟩ := h
        rcases List.mem_cons.1 hmem with rfl | hmem
        · rw [hother hrest, get_publishOne hcs hkey, if_pos ⟨hname, heq⟩]
        · exact absurd ⟨w, hmem, hname, heq⟩ hrest
    · have hrest : ¬ Noted rest collection id := fun ⟨w, hmem, hn⟩ =>
        h ⟨w, List.mem_cons_of_mem _ hmem, hn⟩
      rw [hother hrest, get_publishOne hcs hkey,
        if_neg fun hk => h ⟨key, List.mem_cons_self .., hk⟩]

/-- Publishing sets up the collection of the document. -/
theorem has_publishOne (working cs : Collections) (key : String × Value) (name : String) :
    Record.has (publishOne working cs key) name = (Record.has cs name || key.1 == name) := by
  rw [publishOne_eq, has_writeTo]

/-- Publishing sets up the collections that were written to. -/
theorem has_publish (t : Transaction) (cs : Collections) (name : String) :
    Record.has (publish t cs) name = (Record.has cs name || t.written.any (·.1 == name)) := by
  unfold publish
  generalize t.written = written
  induction written generalizing cs with
  | nil => simp
  | cons key rest ih => rw [List.foldl_cons, ih, has_publishOne, List.any_cons, Bool.or_assoc]

/-- What is filed after publishing was filed before, or was written and the private copy names
it. -/
theorem mem_publish (t : Transaction) {cs : Collections} {name : String} {e : Value × Document}
    (h : e ∈ (publish t cs).get name) :
    e ∈ cs.get name ∨ ∃ id, (name, id) ∈ t.written ∧ (t.working.get name).get? id = some e.2 := by
  unfold publish at h
  generalize t.written = written at h
  induction written generalizing cs with
  | nil => exact .inl h
  | cons key rest ih =>
    rcases ih h with hm | ⟨id, hwritten, hnamed⟩
    · rw [publishOne_eq] at hm
      rcases hd : (t.working.get key.1).get? key.2 with _ | d <;>
        rw [hd, writeTo, Collections.get_put] at hm <;> split at hm
      · rename_i hname
        exact .inl (hname ▸ (Collection.erase_sublist _ _).subset hm)
      · exact .inl hm
      · rename_i hname
        rcases Collection.mem_put hm with hm | hnew
        · exact .inl (hname ▸ hm)
        · exact .inr ⟨key.2, hname ▸ List.mem_cons_self .., by rw [← hname, hd, hnew]⟩
      · exact .inl hm
    · exact .inr ⟨id, List.mem_cons_of_mem _ hwritten, hnamed⟩

/-- **Publication**: publishing what a transaction wrote over the documents that it began with gives
the documents of its private copy. -/
theorem publish_same {base : Collections} {t : Transaction} (hbase : base.Distinct)
    (h : Frame base t) : Collections.Same (publish t base) t.working := by
  refine ⟨fun name => ?_, fun name id => ?_⟩
  · rw [has_publish, h.has]
  · obtain ⟨-, hnoted, hother⟩ :=
      @get_foldl_publishOne t.working base t.written hbase h.keys name id
    by_cases hn : Noted t.written name id
    · exact hnoted hn
    · rw [publish, hother hn, h.unwritten name id hn]

/-- Publishing keeps identifiers distinct. -/
theorem distinct_publish {base : Collections} {t : Transaction} (hbase : base.Distinct)
    (h : Frame base t) : (publish t base).Distinct :=
  (get_foldl_publishOne hbase h.keys "" .null).1

end Publication

/-! ## Transactions -/

/-- **Quiet**: the committed documents and the number of commits stay. -/
def Quiet (m m' : MemoryStore) : Prop := m'.collections = m.collections ∧ m'.commits = m.commits

theorem Quiet.refl (m : MemoryStore) : Quiet m m := ⟨rfl, rfl⟩

theorem Quiet.trans {m m' m'' : MemoryStore} (h : Quiet m m') (h' : Quiet m' m'') : Quiet m m'' :=
  ⟨h'.1.trans h.1, h'.2.trans h.2⟩

/-- What is written in a session is not committed yet. -/
theorem Wrote.quiet {s : SessionId} {ws : List Write} {m m' : MemoryStore} (h : Wrote s ws m m') :
    Quiet m m' := ⟨h.collections, h.commits⟩

section Transactions

variable {i : SessionId} {m m' : MemoryStore}

/-- Opening a session is quiet. -/
theorem quiet_startSession : Moves Quiet (fun _ => True) startSession :=
  fun _ => ⟨⟨rfl, rfl⟩, fun _ _ => trivial⟩

/-- Beginning a transaction is quiet. -/
theorem quiet_beginTransaction (i : SessionId) :
    Moves Quiet (fun _ => True) (beginTransaction i) := by
  refine fun m => ⟨?_, fun _ _ => trivial⟩
  rw [run_begin_eq]
  rcases m.sessions[i]? with _ | x
  · exact Quiet.refl m
  · dsimp only
    split <;> exact ⟨rfl, rfl⟩

/-- Aborting one is quiet. -/
theorem quiet_abortTransaction (i : SessionId) :
    Moves Quiet (fun _ => True) (abortTransaction i) := by
  refine fun m => ⟨?_, fun _ _ => trivial⟩
  rw [run_abort_eq]
  rcases m.sessions[i]? with _ | x
  · exact Quiet.refl m
  · dsimp only
    split <;> exact ⟨rfl, rfl⟩

/-- Ending a session is quiet. -/
theorem quiet_endSession (i : SessionId) : Moves Quiet (fun _ => True) (endSession i) := by
  refine fun m => ⟨?_, fun _ _ => trivial⟩
  rw [run_end_eq]
  rcases m.sessions[i]? with _ | x
  · exact Quiet.refl m
  · exact ⟨rfl, rfl⟩

/-- A transaction begins with a copy of the committed documents and nothing written. -/
theorem run_beginTransaction (h : (beginTransaction i).run.run m = (.ok (), m')) :
    m'.transaction? (some i) = some ⟨m.collections, []⟩ := by
  rw [run_begin_eq] at h
  rcases hx : m.sessions[i]? with _ | x
  · rw [hx] at h
    cases h
  · rw [hx] at h
    dsimp only at h
    split_ifs at h
    · cases h
    · cases h
      rw [transaction?_set hx, if_pos rfl]

/-- **A commit** publishes the transaction and is counted, or fails and changes nothing. Afterwards
no transaction is open. -/
theorem run_commitTransaction {t : Transaction} (ht : m.transaction? (some i) = some t)
    {r : Outcome Unit} (h : (commitTransaction i).run.run m = (r, m')) :
    ((∃ e, r = .error e) ∧ Quiet m m') ∨
      (r = .ok () ∧ m'.collections = publish t m.collections ∧ m'.commits = m.commits + 1 ∧
        m'.lastId = m.lastId ∧
        ∃ x, m'.sessions[i]? = some x ∧ x.transaction = none) := by
  rw [transaction?, Option.bind_some] at ht
  obtain ⟨x, hx, hxt⟩ := Option.bind_eq_some_iff.1 ht
  rw [run_commit_eq, hx] at h
  dsimp only at h
  rw [hxt] at h
  dsimp only at h
  split_ifs at h
  · cases h
    exact .inl ⟨⟨_, rfl⟩, rfl, rfl⟩
  · cases h
    have hlt : i < m.sessions.length := (List.getElem?_eq_some_iff.1 hx).1
    exact .inr ⟨rfl, rfl, rfl, rfl, _, List.getElem?_set_self hlt, rfl⟩

/-- A session can be ended. -/
theorem run_endSession {x : Session} (hx : m.sessions[i]? = some x) :
    ∃ m', (endSession i).run.run m = (.ok (), m') ∧ m'.lastId = m.lastId := by
  rw [run_end_eq, hx]
  exact ⟨_, rfl, rfl⟩

end Transactions

end MemoryStore

end EntityGraph

import EntityGraph.Proofs.Paths
import EntityGraph.Proofs.Tree

/-!
# One entry of a document

What a write does to one entry of a document, say its state: where the entry can come from when a
document is made from arguments (`moves_materialize_entry`), and what an update can do to an entry
that is a text (`entry_of_applyUpdate`). A text has nothing inside, so a path that leads through it
is refused by a write and is without effect on a removal; only the key itself reaches the entry.
-/

namespace EntityGraph

variable {τ S : Type} {key : String}

/-! ## Making documents -/

/-- **A plain entry**: the field of the key, if there is one, is a single text or member of an
enumeration, and no other field is stored under the key. -/
structure PlainEntry (key : String) (fields : List FieldDef) : Prop where
  plain : ∀ f ∈ fields, f.name = key →
    f.many = false ∧ (f.type = .scalar .string ∨ ∃ e, f.type = .enumeration e)
  apart : ∀ f ∈ fields, f.name ≠ key → f.storedKey ≠ key

theorem PlainEntry.of_cons {f : FieldDef} {rest : List FieldDef} (h : PlainEntry key (f :: rest)) :
    PlainEntry key rest :=
  ⟨fun g hg => h.plain g (List.mem_cons_of_mem _ hg), fun g hg =>
    h.apart g (List.mem_cons_of_mem _ hg)⟩

/-- References are stored under the connection field. -/
theorem FieldDef.storedKey_of_kind {f : FieldDef} (h : f.kind = .ok .referencedObject) :
    f.storedKey = f.connectionField := by
  obtain ⟨name, type, many, _, _, _, relation, _⟩ := f
  rcases relation with _ | ⟨embedded, connection, _⟩
  · cases many <;> cases type <;> cases h
  cases embedded with
  | true => cases many <;> cases type <;> cases h
  | false =>
    cases many with
    | false => rfl
    | true =>
      unfold FieldDef.kind at h
      cases type <;> dsimp only at h <;> try cases h
      all_goals
        split at h
        · cases h
        · split at h <;> cases h

/-- An argument that a plain entry takes as it is: none at all, or a text that is not empty. -/
def IsPlainArgument (o : Option Value) : Prop := o = none ∨ ∃ s, o = some (.text s) ∧ s ≠ ""

/-- The entry of a document comes from an argument. -/
def EntryFrom (key : String) (arg : Option Value) (d : Document) : Prop :=
  ∀ w, (key, w) ∈ d → arg = some w

theorem EntryFrom.put {arg : Option Value} {d : Document} (h : EntryFrom key arg d) {k : String}
    {v : Value} (hk : k = key → arg = some v) : EntryFrom key arg (Record.put d k v) := by
  intro w hw
  rcases Record.mem_put hw with hw | hw
  · exact h w hw
  · cases hw
    exact hk rfl

namespace Materializer

/-- Validators may take away the entry of a document but not make one. -/
def KeepsEntry (m : Materializer τ S) (key : String) : Prop :=
  ∀ entity args d, Moves (fun _ _ => True) (fun d' : Document => ∀ w, (key, w) ∈ d' → (key, w) ∈ d)
    (m.checkEntity entity args d)

/-- What is said of a document while it is made. -/
def EntryOk (key : String) (arg : Option Value) (r : Materialized) : Prop :=
  EntryFrom key arg r.document ∧ key ∉ r.unset

variable {m : Materializer τ S} {arg : Option Value}

/-- The argument of a field becomes what its kind says, whatever the documents inside it become. -/
theorem moves_materializeValue_any (f : FieldDef) (v : Value) (made : Materialized) :
    Moves (fun _ _ => True) (m.registry.Becomes (fun _ _ _ => True) (fun _ _ _ => True) f made v)
      (m.materializeValue f v made) :=
  moves_materializeValue_becomes (fun _ => trivial) (fun _ _ _ _ _ => trivial) _ _
    (fun _ _ _ _ _ => Moves.any _) (fun _ _ _ _ _ => Moves.any _) made

/-- Walking the fields, however validators move the state. -/
theorem moves_materializeFields_any {entity : String} {args : Value}
    {P : List FieldDef → Materialized → Prop} {fields : List FieldDef} {made : Materialized}
    (hfield : ∀ f ∈ fields, ∀ rest made, P (f :: rest) made →
      Moves (fun _ _ => True) (P rest) (m.materializeField args f made))
    (hmade : P fields made) :
    Moves (fun _ _ => True) (P []) (m.materializeFields entity args fields made) :=
  moves_materializeFields_of_field (fun _ => trivial) (fun _ _ _ _ _ => trivial) (fun _ _ =>
    Moves.any _) hfield hmade

/-- The argument of another field leaves the entry alone. -/
theorem moves_materializeValue_other {f : FieldDef} (hname : f.name ≠ key)
    (hstored : f.storedKey ≠ key) (v : Value) {r : Materialized} (hr : EntryOk key arg r) :
    Moves (fun _ _ => True) (EntryOk key arg) (m.materializeValue f v r) := by
  refine (moves_materializeValue_any f v r).mono (fun _ _ => id) fun r' h => ?_
  cases h with
  | referencedObject hk =>
    rw [FieldDef.storedKey_of_kind hk] at hstored
    exact ⟨hr.1.put fun h => absurd h hstored, hr.2⟩
  | referencedList => exact hr
  | _ => exact ⟨hr.1.put fun h => absurd h hname, hr.2⟩

/-- The argument of a plain entry becomes the entry. -/
theorem moves_materializeValue_plain {f : FieldDef} (hmany : f.many = false)
    (htype : f.type = .scalar .string ∨ ∃ e, f.type = .enumeration e) {s : String}
    (harg : arg = some (.text s)) {r : Materialized} (hr : EntryOk key arg r) :
    Moves (fun _ _ => True) (EntryOk key arg) (m.materializeValue f (.text s) r) := by
  have hkind : f.kind = .ok .scalar ∨ f.kind = .ok .enumeration := by
    rcases htype with htype | ⟨e, htype⟩
    · left
      rw [FieldDef.kind, htype]
      simp [hmany]
      rfl
    · right
      rw [FieldDef.kind, htype]
      simp [hmany]
      rfl
  have hcoerce : coerceScalar f (.text s) = .ok (.text s) := by
    rcases htype with htype | ⟨e, htype⟩ <;>
      simp [coerceScalar, FieldDef.isIdTyped, FieldDef.momentType?, htype] <;> rfl
  have hput : ∀ w, coerceScalar f (.text s) = .ok w →
      EntryOk key arg (Materializer.put r f.name w) := by
    intro w hw
    obtain rfl := Except.ok.inj (hcoerce.symm.trans hw)
    exact ⟨hr.1.put fun _ => harg, hr.2⟩
  refine (moves_materializeValue_any f (.text s) r).mono (fun _ _ => id) fun r' h => ?_
  cases h with
  | scalar _ hw => exact hput _ hw
  | enumeration _ hw => exact hput _ hw
  | referencedObject hk => rcases hkind with h | h <;> cases hk.symm.trans h
  | referencedList => exact hr

/-- Walking the fields, the entry can only come from its own argument. -/
theorem moves_materializeFields_entry {entity : String} {args : Value} {fields : List FieldDef}
    (hplain : PlainEntry key fields) (harg : IsPlainArgument (fieldOf? key args)) {r : Materialized}
    (hr : EntryOk key (fieldOf? key args) r) :
    Moves (fun _ _ => True) (EntryOk key (fieldOf? key args))
      (m.materializeFields entity args fields r) := by
  refine moves_materializeFields_any (P := fun _ => EntryOk key (fieldOf? key args))
    (fun f hf rest r hr => ?_) hr
  refine moves_materializeField (fun _ => trivial) (fun _ _ => hr) (fun hnull => ?_) fun v _ hv =>
    ?_
  · have hname : f.name ≠ key := by
      rintro rfl
      rcases harg with hnone | ⟨s, hs, -⟩
      · cases hnone.symm.trans hnull.2.2
      · cases hs.symm.trans hnull.2.2
    refine ⟨hr.1, fun hmem => ?_⟩
    rcases List.mem_append.1 hmem with hmem | hmem
    · exact hr.2 hmem
    · exact hplain.apart f hf hname (List.mem_singleton.1 hmem).symm
  · by_cases hname : f.name = key
    · have hget : fieldOf? key args = some v := hname ▸ (presentArgument?_eq_some.1 hv).1
      obtain ⟨s, rfl⟩ : ∃ s, v = .text s := by
        rcases harg with hnone | ⟨s, hs, -⟩
        · cases hnone.symm.trans hget
        · exact ⟨s, Option.some.inj (hget.symm.trans hs)⟩
      obtain ⟨hmany, htype⟩ := hplain.plain f hf hname
      exact moves_materializeValue_plain hmany htype hget hr
    · exact moves_materializeValue_other hname (hplain.apart f hf hname) v hr

/-- **Making a document**: the entry can only come from its own argument, and is never noted to be
unset. -/
theorem moves_materialize_entry (hkeeps : m.KeepsEntry key) {entity : Entity}
    (hplain : PlainEntry key entity.fields) {link : Option ParentLink}
    (hlink : ∀ l, link = some l → l.1 ≠ key) {args : Value}
    (harg : IsPlainArgument (fieldOf? key args)) :
    Moves (fun _ _ => True) (EntryOk key (fieldOf? key args)) (m.materialize entity link args) := by
  rw [materialize]
  have hstart : EntryOk key (fieldOf? key args) ⟨[], []⟩ :=
    ⟨fun _ hw => absurd hw List.not_mem_nil, List.not_mem_nil⟩
  refine Moves.bind_any (moves_materializeFields_entry hplain harg hstart)
    fun r hr => ?_
  have hchecked : ∀ linked, EntryFrom key (fieldOf? key args) linked →
      Moves (fun _ _ => True) (EntryOk key (fieldOf? key args)) (do
        let d ← m.checkEntity entity.name args linked
        pure { r with document := d } : Action τ Materialized) := fun linked hlinked =>
    Moves.bind_any (hkeeps _ _ _) fun d hd =>
      Moves.pure_any ⟨fun w hw => hlinked w (hd w hw), hr.2⟩
  rcases link with _ | ⟨k, parent⟩
  · exact hchecked _ hr.1
  · exact hchecked _ (hr.1.put fun h => absurd h (hlink _ rfl))

end Materializer

/-! ## Updates -/

/-- Laying embedded objects over stored ones makes no plain entry. -/
theorem mem_mergeEmbedded {current : Document} {fields : List FieldDef}
    (hplain : PlainEntry key fields) {changes changes' : Document}
    (h : Executor.mergeEmbedded current fields changes = .ok changes') {w : Value}
    (hw : (key, w) ∈ changes') : (key, w) ∈ changes := by
  induction fields generalizing changes with
  | nil =>
    cases h
    exact hw
  | cons f rest ih =>
    have hrest := hplain.of_cons
    rw [Executor.mergeEmbedded] at h
    dsimp only at h
    split at h
    · rename_i hkind
      have hname : f.name ≠ key := fun hname => by
        obtain ⟨hmany, htype⟩ := hplain.plain f (List.mem_cons_self ..) hname
        rw [FieldDef.kind?, FieldDef.kind] at hkind
        rcases htype with htype | ⟨e, htype⟩ <;> rw [htype, hmany] at hkind <;> cases hkind
      split at h
      · have hmem := ih hrest h
        rcases Record.mem_put hmem with hmem | hmem
        · exact hmem
        · exact absurd (congrArg Prod.fst hmem).symm hname
      · cases h
      · exact ih hrest h
    · exact ih hrest h

/-- Writing at a path leaves an entry with nothing inside alone, unless the path is its key. -/
theorem entry_of_setSegments {segments : List String} {v u : Value} {d d' : Document}
    (hs : Record.get? d key = some u) (hu : u.fields? = none)
    (h : setSegments segments v d = .ok d') :
    Record.get? d' key = Record.get? d key ∨ segments = [key] ∧ Record.get? d' key = some v := by
  rcases segments with _ | ⟨a, _ | ⟨b, rest⟩⟩
  · cases h
    exact .inl rfl
  · cases h
    by_cases ha : a = key
    · subst ha
      exact .inr ⟨rfl, Record.get?_put_self ..⟩
    · exact .inl (by rw [Record.get?_put, if_neg ha])
  · left
    rw [setSegments.eq_def] at h
    dsimp only at h
    have hput : ∀ inner : Outcome Document, a ≠ key → (do
        let inner ← inner
        pure (Record.put d a (.object inner))) = Except.ok d' →
        Record.get? d' key = Record.get? d key := by
      intro inner ha hd'
      obtain ⟨e, -, he⟩ := bind_eq_ok hd'
      cases he
      rw [Record.get?_put, if_neg ha]
    split at h
    · rename_i hnone
      refine hput _ (fun ha => ?_) h
      rw [ha, hs] at hnone
      cases hnone
    · rename_i inner hsome
      refine hput _ (fun ha => ?_) h
      rw [ha, hs] at hsome
      cases hsome
      cases hu
    · cases h

/-- Removing at a path leaves an entry with nothing inside alone, unless the path is its key. -/
theorem entry_of_unsetSegments {segments : List String} {d : Document} {u : Value}
    (hs : Record.get? d key = some u) (hu : u.fields? = none) (hne : segments ≠ [key]) :
    Record.get? (unsetSegments segments d) key = Record.get? d key := by
  rcases segments with _ | ⟨a, _ | ⟨b, rest⟩⟩
  · rfl
  · rw [unsetSegments, Record.get?_erase, if_neg fun ha => hne (by rw [ha])]
  · rw [unsetSegments.eq_def]
    dsimp only
    split
    · rename_i inner hsome
      rw [Record.get?_put, if_neg fun ha => ?_]
      rw [ha, hs] at hsome
      cases hsome
      cases hu
    · rfl

open MemoryStore in
/-- Writing at paths: a text entry stays a text, and a new one is among what is written. -/
theorem entry_of_setPaths {fs : List (String × Value)} {d d' : Document} {s : String}
    (hs : Record.get? d key = some (.text s)) (htext : ∀ w, (key, w) ∈ fs → ∃ t, w = .text t)
    (h : setPaths fs d = .ok d') :
    ∃ t, Record.get? d' key = some (.text t) ∧ (t = s ∨ (key, .text t) ∈ fs) := by
  induction fs generalizing d s with
  | nil =>
    cases h
    exact ⟨s, hs, .inl rfl⟩
  | cons e rest ih =>
    obtain ⟨path, v⟩ := e
    have hrest : ∀ w, (key, w) ∈ rest → ∃ t, w = .text t := fun w hw =>
      htext w (List.mem_cons_of_mem _ hw)
    rw [setPaths] at h
    obtain ⟨d₁, hd₁, hd'⟩ := bind_eq_ok h
    rcases entry_of_setSegments hs rfl hd₁ with hsame | ⟨hpath, hwritten⟩
    · obtain ⟨t, ht, hfrom⟩ := ih (hsame.trans hs) hrest hd'
      exact ⟨t, ht, hfrom.imp_right (List.mem_cons_of_mem _)⟩
    · obtain rfl := Text.eq_of_split hpath
      obtain ⟨t₁, rfl⟩ := htext v (List.mem_cons_self ..)
      obtain ⟨t, ht, hfrom⟩ := ih hwritten hrest hd'
      refine ⟨t, ht, .inr ?_⟩
      rcases hfrom with rfl | hfrom
      · exact List.mem_cons_self ..
      · exact List.mem_cons_of_mem _ hfrom

open MemoryStore in
/-- Under single segments the changes are laid over the document. -/
theorem setPaths_eq_merge {fs : List (String × Value)} (h : ∀ e ∈ fs, IsSegment e.1)
    (d : Document) :
    setPaths fs d = .ok (Record.merge d fs) := by
  induction fs generalizing d with
  | nil => rfl
  | cons e rest ih =>
    obtain ⟨path, v⟩ := e
    have hpath : setPath d path v = .ok (Record.put d path v) := by
      rw [setPath, Text.segments_of_isSegment (h (path, v) (List.mem_cons_self ..))]
      rfl
    rw [setPaths, hpath]
    exact ih (fun e he => h e (List.mem_cons_of_mem _ he)) _

theorem entry_of_unsetPaths {paths : List String} {d : Document} {u : Value}
    (hs : Record.get? d key = some u) (hu : u.fields? = none) (hnot : key ∉ paths) :
    Record.get? (paths.foldl unsetPath d) key = some u := by
  induction paths generalizing d with
  | nil => exact hs
  | cons path rest ih =>
    refine ih ?_ fun hm => hnot (List.mem_cons_of_mem _ hm)
    rw [unsetPath, entry_of_unsetSegments hs hu, hs]
    intro hpath
    exact hnot (Text.eq_of_split hpath ▸ List.mem_cons_self ..)

theorem Record.mem_ofEntries {α : Type} {entries : List (String × α)} {e : String × α}
    (h : e ∈ Record.ofEntries entries) : e ∈ entries := by
  have hall : ∀ (entries : List (String × α)) (acc : Record α),
      e ∈ entries.foldl (fun acc e => Record.put acc e.1 e.2) acc → e ∈ acc ∨ e ∈ entries := by
    intro entries
    induction entries with
    | nil => exact fun acc h => .inl h
    | cons x rest ih =>
      intro acc h
      rcases ih _ h with h | h
      · exact (Record.mem_put h).imp_right fun he => List.mem_cons.2 (.inl he)
      · exact .inr (List.mem_cons_of_mem _ h)
  exact (hall entries [] h).resolve_left List.not_mem_nil

/-- An entry that is put in is among the entries. -/
theorem Record.mem_keys_ofEntries {α : Type} {entries : List (String × α)} {e : String × α}
    (h : e ∈ entries) :
    e.1 ∈ Record.keys (Record.ofEntries entries) := by
  have hall : ∀ (entries : List (String × α)) (r : Record α), e ∈ entries ∨ e.1 ∈ Record.keys r →
      e.1 ∈ Record.keys (Record.merge r entries) := by
    intro entries
    induction entries with
    | nil => exact fun r h => h.resolve_left List.not_mem_nil
    | cons x rest ih =>
      intro r h
      refine ih (Record.put r x.1 x.2) ?_
      rw [Record.mem_keys_iff, Record.has, Record.get?_put]
      rcases h with h | h
      · rcases List.mem_cons.1 h with rfl | h
        · exact .inr (by rw [if_pos rfl]; rfl)
        · exact .inl h
      · right
        split
        · rfl
        · rwa [Record.mem_keys_iff, Record.has] at h
  exact hall entries [] (.inl h)

open MemoryStore in
/-- An update writes first and removes then. -/
theorem applyUpdate_updateParts (changes : Option Document) (unset : List String) (d : Document) :
    applyUpdate (.object (Executor.updateParts changes unset)) d = (do
      let d ← setPaths (changes.getD []) d
      pure ((Record.keys (Record.ofEntries
        (unset.map fun key => (key, Value.text "")))).foldl unsetPath d)) := by
  cases changes <;> cases unset <;> rfl

open MemoryStore in
/-- **Updating a document**: a text entry that is not unset stays a text, and a new one is among the
changes. -/
theorem entry_of_applyUpdate {changes : Option Document} {unset : List String} {d d' : Document}
    {s : String} (hs : Record.get? d key = some (.text s))
    (htext : ∀ w, (key, w) ∈ changes.getD [] → ∃ t, w = .text t) (hunset : key ∉ unset)
    (h : applyUpdate (.object (Executor.updateParts changes unset)) d = .ok d') :
    ∃ t, Record.get? d' key = some (.text t) ∧ (t = s ∨ (key, .text t) ∈ changes.getD []) := by
  rw [applyUpdate_updateParts] at h
  obtain ⟨d₁, hd₁, h⟩ := bind_eq_ok h
  cases h
  obtain ⟨t, ht, hfrom⟩ := entry_of_setPaths hs htext hd₁
  refine ⟨t, entry_of_unsetPaths ht rfl fun hm => hunset ?_, hfrom⟩
  obtain ⟨e, he, rfl⟩ := List.mem_map.1 hm
  obtain ⟨k, hk, heq⟩ := List.mem_map.1 (Record.mem_ofEntries he)
  rw [← heq]
  exact hk

end EntityGraph

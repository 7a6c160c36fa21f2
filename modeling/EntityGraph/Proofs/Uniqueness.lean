import EntityGraph.Proofs.Entries
import EntityGraph.Proofs.Isolation
import Mathlib.Data.List.Perm.Subperm

/-!
# Uniqueness

A collection is **sound** when every document is filed under its own identifier and no two documents
share a value at one of the unique paths (`Collection.Sound`). Filing a document keeps a collection
sound when the document shares no value with the others, and that is what the store checks before it
writes (`checkUnique_cases`). The identifier of a document survives every update that does not name
it (`get?_applyUpdate`).
-/

namespace EntityGraph

/-! ## Equality of content -/

namespace Value

mutual

/-- No object inside the value names a key twice. -/
def NamesOnce : Value → Prop
  | .list items => ItemsNameOnce items
  | .object fs => (Record.keys fs).Nodup ∧ FieldsNameOnce fs
  | _ => True

/-- No object inside the items names a key twice. -/
def ItemsNameOnce : List Value → Prop
  | [] => True
  | v :: rest => v.NamesOnce ∧ ItemsNameOnce rest

/-- No object inside the values of the fields names a key twice. -/
def FieldsNameOnce : List (String × Value) → Prop
  | [] => True
  | (_, v) :: rest => v.NamesOnce ∧ FieldsNameOnce rest

end

theorem namesOnce_of_mem_items {items : List Value} (h : ItemsNameOnce items) {v : Value}
    (hv : v ∈ items) : v.NamesOnce := by
  induction items with
  | nil => cases hv
  | cons w rest ih =>
    rw [ItemsNameOnce] at h
    rcases List.mem_cons.1 hv with rfl | hv
    · exact h.1
    · exact ih h.2 hv

theorem namesOnce_of_mem_fields {fs : List (String × Value)} (h : FieldsNameOnce fs)
    {e : String × Value} (he : e ∈ fs) : e.2.NamesOnce := by
  induction fs with
  | nil => cases he
  | cons f rest ih =>
    rw [FieldsNameOnce] at h
    rcases List.mem_cons.1 he with rfl | he
    · exact h.1
    · exact ih h.2 he

theorem eqFields_iff {xs ys : List (String × Value)} :
    eqFields xs ys = true ↔ ∀ e ∈ xs, ∃ w, Record.get? ys e.1 = some w ∧ e.2.eq w = true := by
  induction xs with
  | nil => simp [eqFields]
  | cons x rest ih =>
    obtain ⟨k, v⟩ := x
    rw [eqFields, Bool.and_eq_true, ih, List.forall_mem_cons]
    refine and_congr_left fun _ => ?_
    rcases Record.get? ys k with _ | w <;> simp

/-- Items that are equal one way are equal the other way. -/
theorem eqItems_symm {xs ys : List Value}
    (hsymm : ∀ x ∈ xs, ∀ y ∈ ys, x.eq y = true → y.eq x = true) (h : eqItems xs ys = true) :
    eqItems ys xs = true := by
  induction xs generalizing ys with
  | nil =>
    rw [eqItems, List.isEmpty_iff] at h
    rw [h]
    rfl
  | cons x rest ih =>
    cases ys with
    | nil => simp [eqItems] at h
    | cons y ys =>
      rw [eqItems, Bool.and_eq_true] at h ⊢
      exact ⟨hsymm x (List.mem_cons_self ..) y (List.mem_cons_self ..) h.1,
        ih (fun x hx y hy => hsymm x (List.mem_cons_of_mem _ hx) y (List.mem_cons_of_mem _ hy)) h.2⟩

/-- Objects that name no key twice are equal both ways when their fields are. As many keys, all of
them among the others, are the same keys. -/
theorem eqFields_symm {xs ys : List (String × Value)} (hxs : (Record.keys xs).Nodup)
    (hys : (Record.keys ys).Nodup) (hlen : xs.length = ys.length)
    (hsymm : ∀ e ∈ xs, ∀ f ∈ ys, e.2.eq f.2 = true → f.2.eq e.2 = true)
    (h : eqFields xs ys = true) : eqFields ys xs = true := by
  rw [eqFields_iff] at h ⊢
  have hsub : Record.keys xs ⊆ Record.keys ys := fun k hk => by
    obtain ⟨e, he, rfl⟩ := List.mem_map.1 hk
    obtain ⟨w, hw, -⟩ := h e he
    exact (Record.mem_keys_iff ys e.1).2 (by rw [Record.has, hw]; rfl)
  have hperm : (Record.keys xs).Perm (Record.keys ys) :=
    (List.subperm_of_subset hxs hsub).perm_of_length_le (by simp [Record.keys, hlen])
  intro f hf
  obtain ⟨e, he, hkey⟩ := List.mem_map.1 (hperm.mem_iff.2 (List.mem_map_of_mem hf))
  obtain ⟨w, hw, heq⟩ := h e he
  have hfw : f.2 = w := Option.some.inj ((Record.get?_of_mem hys hf).symm.trans (hkey ▸ hw))
  rw [← hkey, Record.get?_of_mem hxs he]
  exact ⟨e.2, rfl, hsymm e he f hf (hfw ▸ heq)⟩

/-- Only lists equal a list. -/
theorem eq_list_cases {xs : List Value} {w : Value} (h : (list xs).eq w = true) :
    ∃ ys, w = .list ys ∧ eqItems xs ys = true := by
  cases w <;> simp only [eq, Bool.false_eq_true] at h
  exact ⟨_, rfl, h⟩

/-- Only objects equal an object. -/
theorem eq_object_cases {xs : List (String × Value)} {w : Value} (h : (object xs).eq w = true) :
    ∃ ys, w = .object ys ∧ xs.length = ys.length ∧ eqFields xs ys = true := by
  cases w <;> simp only [eq, Bool.false_eq_true, Bool.and_eq_true, beq_iff_eq] at h
  exact ⟨_, rfl, h⟩

/-- **Equality of content is symmetric** on values that name no key twice. -/
theorem eq_symm_of_namesOnce {v w : Value} (hv : v.NamesOnce) (hw : w.NamesOnce)
    (h : v.eq w = true) : w.eq v = true := by
  match v with
  | .list xs =>
    obtain ⟨ys, rfl, hitems⟩ := eq_list_cases h
    rw [NamesOnce] at hv hw
    rw [eq]
    exact eqItems_symm (fun x hx y hy =>
      eq_symm_of_namesOnce (namesOnce_of_mem_items hv hx) (namesOnce_of_mem_items hw hy)) hitems
  | .object xs =>
    obtain ⟨ys, rfl, hlen, hfields⟩ := eq_object_cases h
    rw [NamesOnce] at hv hw
    rw [eq, Bool.and_eq_true, beq_iff_eq]
    exact ⟨hlen.symm, eqFields_symm hv.1 hw.1 hlen (fun e he f hf =>
      eq_symm_of_namesOnce (namesOnce_of_mem_fields hv.2 he) (namesOnce_of_mem_fields hw.2 hf))
        hfields⟩
  | .null | .bool _ | .int _ | .float _ | .text _ | .id _ | .moment _ | .member _ _ =>
    exact eq_symm rfl h
termination_by sizeOf v
decreasing_by
  · have := List.sizeOf_lt_of_mem hx
    simp only [list.sizeOf_spec]
    omega
  · have := List.sizeOf_lt_of_mem he
    obtain ⟨k, u⟩ := e
    simp only [object.sizeOf_spec, Prod.mk.sizeOf_spec] at this ⊢
    omega

end Value

/-! ## Sound collections -/

/-- **Two documents share a value** at a path: a value of one and a value of the other, neither of
them null, that equal each other. -/
def SharesValue (path : String) (d d' : Document) : Prop :=
  ∃ v ∈ MemoryStore.uniqueValues d path, ∃ w ∈ MemoryStore.uniqueValues d' path,
    v.eq w = true ∧ w.eq v = true

/-- Sharing a value is symmetric. -/
theorem SharesValue.symm {path : String} {d d' : Document} (h : SharesValue path d d') :
    SharesValue path d' d := by
  obtain ⟨v, hv, w, hw, hvw, hwv⟩ := h
  exact ⟨w, hw, v, hv, hwv, hvw⟩

/-- For values that name no key twice, to be equal one way is enough. -/
theorem sharesValue_of_namesOnce {path : String} {d d' : Document} {v w : Value}
    (hv : v ∈ MemoryStore.uniqueValues d path) (hw : w ∈ MemoryStore.uniqueValues d' path)
    (hv' : v.NamesOnce) (hw' : w.NamesOnce) (h : v.eq w = true) : SharesValue path d d' :=
  ⟨v, hv, w, hw, h, Value.eq_symm_of_namesOnce hv' hw' h⟩

theorem Value.id_eq_iff {o p : ObjectId} : (Value.id o).eq (.id p) = true ↔ o = p := by
  rw [Value.eq, beq_iff_eq]

namespace Collection

/-- The entry is filed under the identifier of its document. -/
def Filed (e : Value × Document) : Prop := ∃ o, e.1 = .id o ∧ Record.get? e.2 "_id" = some (.id o)

/-- **A sound collection**: each document is filed once, under its own identifier, and no two
documents share a value at one of the paths. -/
structure Sound (paths : List String) (c : Collection) : Prop where
  distinct : c.Distinct
  filed : ∀ e ∈ c, Filed e
  unique : ∀ path ∈ paths, ∀ e ∈ c, ∀ f ∈ c, e ≠ f → ¬ SharesValue path e.2 f.2

variable {c : Collection} {paths : List String}

theorem sound_nil (paths : List String) : Sound paths [] where
  distinct := distinct_nil
  filed := fun _ he => absurd he List.not_mem_nil
  unique := fun _ _ _ he => absurd he List.not_mem_nil

/-- Entries of a collection are what can be looked up. -/
theorem mem_iff_get? (hd : c.Distinct) (hf : ∀ e ∈ c, Filed e) {o : ObjectId} {d : Document} :
    (Value.id o, d) ∈ c ↔ get? c (.id o) = some d := by
  constructor
  · intro hm
    induction c with
    | nil => cases hm
    | cons e rest ih =>
      obtain ⟨k, old⟩ := e
      obtain ⟨hne, hrest⟩ := List.pairwise_cons.1 hd
      rcases List.mem_cons.1 hm with heq | hm
      · cases heq
        rw [get?_cons, if_pos (Value.id_eq_iff.2 rfl)]
      · have hk : k.eq (.id o) = false := hne _ hm
        rw [get?_cons, hk]
        exact ih hrest (fun f hf' => hf f (List.mem_cons_of_mem _ hf')) hm
  · intro h
    obtain ⟨k, hm, hk⟩ := exists_mem_of_get? h
    obtain ⟨p, hp, -⟩ := hf _ hm
    obtain rfl : k = .id p := hp
    obtain rfl := Value.id_eq_iff.1 hk
    exact hm

/-- Soundness in terms of look-ups. -/
theorem Sound.of_get? (hd : c.Distinct) (hf : ∀ e ∈ c, Filed e)
    (hu : ∀ path ∈ paths, ∀ (o p : ObjectId) (d d' : Document), o ≠ p → get? c (.id o) = some d →
      get? c (.id p) = some d' → ¬ SharesValue path d d') : c.Sound paths where
  distinct := hd
  filed := hf
  unique := fun path hpath e he f hf' hne => by
    obtain ⟨k, d⟩ := e
    obtain ⟨l, d'⟩ := f
    obtain ⟨o, ho, -⟩ := hf _ he
    obtain ⟨p, hp, -⟩ := hf _ hf'
    obtain rfl : k = .id o := ho
    obtain rfl : l = .id p := hp
    have hd₁ := (mem_iff_get? hd hf).1 he
    have hd₂ := (mem_iff_get? hd hf).1 hf'
    refine hu path hpath o p d d' (fun hop => hne ?_) hd₁ hd₂
    subst hop
    rw [Option.some.inj (hd₁.symm.trans hd₂)]

/-- **Two documents** of a sound collection share no value on a unique path. -/
theorem Sound.apart (h : c.Sound paths) {path : String} (hpath : path ∈ paths) {o p : ObjectId}
    (hop : o ≠ p) {d d' : Document} (hd : get? c (.id o) = some d)
    (hd' : get? c (.id p) = some d') :
    ¬ SharesValue path d d' := by
  refine h.unique path hpath _ ((mem_iff_get? h.distinct h.filed).2 hd) _
    ((mem_iff_get? h.distinct h.filed).2 hd') fun heq => hop ?_
  cases heq
  rfl

/-- What is found is filed under its own identifier. -/
theorem exists_id_of_get? (hf : ∀ e ∈ c, Filed e) {id : Value} {d : Document}
    (h : c.get? id = some d) :
    ∃ o, id = .id o ∧ Record.get? d "_id" = some (.id o) := by
  obtain ⟨k, hm, hk⟩ := exists_mem_of_get? h
  obtain ⟨o, ho, hid⟩ := hf _ hm
  obtain rfl : k = .id o := ho
  refine ⟨o, ?_, hid⟩
  cases id <;> first | exact congrArg _ (Value.id_eq_iff.1 hk).symm | cases hk

theorem filed_put (hf : ∀ e ∈ c, Filed e) {o : ObjectId} {d : Document}
    (hid : Record.get? d "_id" = some (.id o)) : ∀ e ∈ put c (.id o) d, Filed e := by
  induction c with
  | nil =>
    intro e he
    obtain rfl := List.mem_singleton.1 he
    exact ⟨o, rfl, hid⟩
  | cons f rest ih =>
    obtain ⟨k, old⟩ := f
    have hrest := fun e he => hf e (List.mem_cons_of_mem _ he)
    intro e he
    rw [put] at he
    split at he
    · rename_i hk
      rcases List.mem_cons.1 he with rfl | he
      · obtain ⟨p, hp, -⟩ := hf _ (List.mem_cons_self ..)
        obtain rfl : k = .id p := hp
        exact ⟨p, rfl, by rw [hid, Value.id_eq_iff.1 hk]⟩
      · exact hrest e he
    · rcases List.mem_cons.1 he with rfl | he
      · exact hf _ (List.mem_cons_self ..)
      · exact ih hrest e he

/-- **Filing a document** that shares no value with the others keeps a collection sound. -/
theorem Sound.put (h : c.Sound paths) {o : ObjectId} {d : Document}
    (hid : Record.get? d "_id" = some (.id o))
    (hu : ∀ path ∈ paths, ∀ (p : ObjectId) (d' : Document), p ≠ o → get? c (.id p) = some d' →
      ¬ SharesValue path d d') : (put c (.id o) d).Sound paths := by
  refine Sound.of_get? (h.distinct.put _ _) (filed_put h.filed hid)
    fun path hpath p q d₁ d₂ hpq h₁ h₂ => ?_
  rw [get?_put rfl] at h₁ h₂
  split at h₁
  · rename_i hp
    obtain rfl := Value.id_eq_iff.1 hp
    cases h₁
    rw [if_neg fun hq => hpq (Value.id_eq_iff.1 hq)] at h₂
    exact hu path hpath q d₂ hpq.symm h₂
  · split at h₂
    · rename_i hq
      obtain rfl := Value.id_eq_iff.1 hq
      cases h₂
      exact fun hs => hu path hpath p d₁ hpq h₁ hs.symm
    · exact h.apart hpath hpq h₁ h₂

/-- Removing a document keeps a collection sound. -/
theorem Sound.erase (h : c.Sound paths) (id : Value) : (erase c id).Sound paths where
  distinct := h.distinct.erase id
  filed := fun e he => h.filed e ((erase_sublist c id).subset he)
  unique := fun path hpath e he f hf =>
    h.unique path hpath e ((erase_sublist c id).subset he) f ((erase_sublist c id).subset hf)

end Collection

/-! ## The check of unique paths -/

namespace MemoryStore

section Check

variable {c : Collection} {o : ObjectId} {d : Document}

/-- What the check of a value finds among filed documents. -/
theorem holdsValue_eq (hf : ∀ e ∈ c, Collection.Filed e) (values : List Value) (path : String) :
    holdsValue (.id o) values path c = .ok (c.any fun e =>
      !e.1.eq (.id o) && (resolve e.2 path).any fun v => v.isIn values) := by
  induction c with
  | nil => rfl
  | cons e rest ih =>
    obtain ⟨k, other⟩ := e
    obtain ⟨p, hp, hid⟩ := hf _ (List.mem_cons_self ..)
    obtain rfl : k = .id p := hp
    have ih := ih fun f hf' => hf f (List.mem_cons_of_mem _ hf')
    rw [holdsValue, hid]
    dsimp only
    rw [List.any_cons, ih]
    rcases (Value.id p).eq (.id o) with _ | _
    · rcases (resolve other path).any fun v => v.isIn values with _ | _ <;> rfl
    · rfl

/-- **The check of unique paths** passes when the document shares no value with another one, and
otherwise names a path. -/
theorem checkUnique_cases (hd : c.Distinct) (hf : ∀ e ∈ c, Collection.Filed e)
    (hid : Record.get? d "_id" = some (.id o)) (name : String) (paths : List String) :
    (checkUnique c name d paths = .ok () ∧ ∀ path ∈ paths, ∀ (p : ObjectId) (d' : Document), p ≠ o →
      c.get? (.id p) = some d' → ¬ SharesValue path d d') ∨
    ∃ path ∈ paths, checkUnique c name d paths =
      .error (Reason.duplicateValue name path).fault := by
  induction paths with
  | nil => exact .inl ⟨rfl, fun _ hpath => absurd hpath List.not_mem_nil⟩
  | cons path rest ih =>
    rw [checkUnique]
    have hfree : ∀ (hpath : ∀ (p : ObjectId) (d' : Document), p ≠ o → c.get? (.id p) = some d' →
          ¬ SharesValue path d d'),
        (checkUnique c name d rest = .ok () ∧ ∀ q ∈ path :: rest, ∀ (p : ObjectId) (d' : Document),
          p ≠ o → c.get? (.id p) = some d' → ¬ SharesValue q d d') ∨
        ∃ q ∈ path :: rest, checkUnique c name d rest =
          .error (Reason.duplicateValue name q).fault := by
      intro hpath
      rcases ih with ⟨hok, hrest⟩ | ⟨q, hq, herror⟩
      · refine .inl ⟨hok, fun q hq => ?_⟩
        rcases List.mem_cons.1 hq with rfl | hq
        · exact hpath
        · exact hrest q hq
      · exact .inr ⟨q, List.mem_cons_of_mem _ hq, herror⟩
    by_cases hskip : ((uniqueValues d path).isEmpty || c.isEmpty) = true
    · rw [if_pos hskip]
      refine hfree fun p d' _ hget hshares => ?_
      rcases Bool.or_eq_true_iff.1 hskip with hempty | hempty
      · obtain ⟨v, hv, -⟩ := hshares
        rw [List.isEmpty_iff.1 hempty] at hv
        cases hv
      · rw [List.isEmpty_iff.1 hempty] at hget
        cases hget
    rw [if_neg hskip, hid]
    dsimp only
    rw [holdsValue_eq hf, Outcome.ok_bind]
    split
    · exact .inr ⟨path, List.mem_cons_self .., rfl⟩
    · rename_i hnone
      refine hfree fun p d' hpo hget hshares => hnone ?_
      obtain ⟨v, hv, w, hw, hvw, -⟩ := hshares
      have hmem : (Value.id p, d') ∈ c := (Collection.mem_iff_get? hd hf).2 hget
      refine List.any_eq_true.2 ⟨_, hmem, Bool.and_eq_true_iff.2 ⟨?_, ?_⟩⟩
      · rw [Bool.not_eq_true', Bool.eq_false_iff]
        exact fun heq => hpo (Value.id_eq_iff.1 heq)
      · exact List.any_eq_true.2 ⟨w, (List.mem_filter.1 hw).1, List.any_eq_true.2 ⟨v, hv, hvw⟩⟩

end Check

/-! ## Identifiers under updates -/

/-- The update writes or removes the identifier. -/
def RewritesId (change : Value) : Prop :=
  ∃ parts, change = .object parts ∧
    ((∃ fs, Record.get? parts "$set" = some (.object fs) ∧ "_id" ∈ Record.keys fs) ∨
      ∃ paths, unsetPaths ((Record.get? parts "$unset").getD (.object [])) = .ok paths ∧
      "_id" ∈ paths)

/-- Writing at other paths leaves an entry with nothing inside. -/
theorem get?_setPaths {fs : List (String × Value)} {key : String} {d d' : Document} {u : Value}
    (hd : Record.get? d key = some u) (hu : u.fields? = none) (hnot : key ∉ Record.keys fs)
    (h : setPaths fs d = .ok d') : Record.get? d' key = some u := by
  induction fs generalizing d with
  | nil =>
    cases h
    exact hd
  | cons e rest ih =>
    obtain ⟨path, v⟩ := e
    obtain ⟨hpath, hrest⟩ := not_or.1 (mt List.mem_cons.2 hnot)
    rw [setPaths] at h
    obtain ⟨d₁, hd₁, h⟩ := bind_eq_ok h
    rcases entry_of_setSegments hd hu hd₁ with hsame | ⟨hsegments, -⟩
    · exact ih (hsame.trans hd) hrest h
    · exact absurd (Text.eq_of_split hsegments).symm hpath

/-- An update keeps the identifier, unless it rewrites it. -/
theorem get?_applyUpdate {change : Value} {d d' : Document} {u : Value}
    (hd : Record.get? d "_id" = some u) (hu : u.fields? = none) (hkeeps : ¬ RewritesId change)
    (h : applyUpdate change d = .ok d') : Record.get? d' "_id" = some u := by
  unfold applyUpdate at h
  cases change with
  | object parts =>
    dsimp only at h
    have hunset : ∀ d₁ : Document, Record.get? d₁ "_id" = some u → (do
        let paths ← unsetPaths ((Record.get? parts "$unset").getD (.object []))
        pure (paths.foldl unsetPath d₁) : Outcome Document) = .ok d' →
        Record.get? d' "_id" = some u := by
      intro d₁ hd₁ h
      obtain ⟨paths, hpaths, h⟩ := bind_eq_ok h
      cases h
      exact entry_of_unsetPaths hd₁ hu fun hm => hkeeps ⟨parts, rfl, .inr ⟨paths, hpaths, hm⟩⟩
    rcases hset : Record.get? parts "$set" with _ | w
    · rw [hset] at h
      exact hunset d hd h
    · rw [hset, Option.getD_some] at h
      cases w with
      | object fs =>
        obtain ⟨d₁, hd₁, h⟩ := bind_eq_ok h
        exact hunset d₁
          (get?_setPaths hd hu (fun hm => hkeeps ⟨parts, rfl, .inl ⟨fs, hset, hm⟩⟩) hd₁) h
      | _ => cases h
  | _ => cases h

end MemoryStore

end EntityGraph

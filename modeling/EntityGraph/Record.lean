/-!
# Records

A **record** maps text keys to values and remembers the order in which its keys were first written:
documents, argument trees, field tables and collections are all records. Writing a key that is
already there keeps its place. The lemmas say what reading a record gives after each operation.
-/

namespace EntityGraph

/-- A finite map from text keys to values, in the order in which the keys were first written. -/
abbrev Record (α : Type) := List (String × α)

namespace Record

variable {α β : Type}

/-- The value under `key`, if the record has that key. -/
def get? : Record α → String → Option α
  | [], _ => none
  | (k, v) :: rest, key => if k = key then some v else get? rest key

/-- Does the record have `key`? -/
def has (r : Record α) (key : String) : Bool := (get? r key).isSome

/-- The keys, in order. -/
def keys (r : Record α) : List String := r.map Prod.fst

/-- The values, in the order of their keys. -/
def values (r : Record α) : List α := r.map Prod.snd

/-- Write `value` under `key`: in place when the key is there, at the end otherwise. -/
def put : Record α → String → α → Record α
  | [], key, value => [(key, value)]
  | (k, v) :: rest, key, value =>
    if k = key then (k, value) :: rest else (k, v) :: put rest key value

/-- The record without `key`. -/
def erase : Record α → String → Record α
  | [], _ => []
  | (k, v) :: rest, key => if k = key then erase rest key else (k, v) :: erase rest key

/-- Write every entry of `other` over `r`, in the order of `other`. -/
def merge (r other : Record α) : Record α := other.foldl (fun acc e => put acc e.1 e.2) r

/-- The record that holds the given entries; a later entry of the same key wins. -/
def ofEntries (entries : List (String × α)) : Record α := merge [] entries

/-- Change every value, keeping the keys. -/
def mapValues (f : α → β) (r : Record α) : Record β := r.map fun e => (e.1, f e.2)

/-! ## Reading after an operation -/

@[simp] theorem get?_nil (key : String) : get? ([] : Record α) key = none := rfl

theorem get?_cons (k : String) (v : α) (rest : Record α) (key : String) :
    get? ((k, v) :: rest) key = if k = key then some v else get? rest key := rfl

/-- After a write the key holds the new value and every other key is as before. -/
theorem get?_put (r : Record α) (key other : String) (value : α) :
    get? (put r key value) other = if key = other then some value else get? r other := by
  induction r with
  | nil => simp [put, get?_cons]
  | cons e rest ih =>
    obtain ⟨k, v⟩ := e
    by_cases hk : k = key
    · subst hk
      by_cases ho : k = other <;> simp [put, get?_cons, ho]
    · by_cases ho : k = other
      · subst ho
        simp [put, get?_cons, hk, Ne.symm hk]
      · simp [put, get?_cons, hk, ho, ih]

@[simp] theorem get?_put_self (r : Record α) (key : String) (value : α) :
    get? (put r key value) key = some value := by simp [get?_put]

/-- After an erasure the key is gone and every other key is as before. -/
theorem get?_erase (r : Record α) (key other : String) :
    get? (erase r key) other = if key = other then none else get? r other := by
  induction r with
  | nil => simp [erase]
  | cons e rest ih =>
    obtain ⟨k, v⟩ := e
    by_cases hk : k = key
    · subst hk
      by_cases ho : k = other
      · simpa [erase, ho] using ih
      · simp [erase, get?_cons, ih, ho]
    · by_cases ho : k = other
      · subst ho
        simp [erase, get?_cons, hk, Ne.symm hk]
      · simp [erase, get?_cons, hk, ho, ih]

/-- A key is listed exactly when it can be read. -/
theorem mem_keys_iff (r : Record α) (key : String) : key ∈ keys r ↔ has r key = true := by
  induction r with
  | nil => simp [keys, has]
  | cons e rest ih =>
    obtain ⟨k, v⟩ := e
    unfold keys has at ih
    by_cases hk : k = key
    · subst hk
      simp [keys, has, get?_cons]
    · simp [keys, has, get?_cons, hk, Ne.symm hk, ← ih]

/-- A value that can be read is one of the entries. -/
theorem mem_of_get?_eq_some {r : Record α} {key : String} {v : α} (h : get? r key = some v) :
    (key, v) ∈ r := by
  induction r with
  | nil => simp at h
  | cons e rest ih =>
    obtain ⟨k, w⟩ := e
    by_cases hk : k = key
    · subst hk
      simp [get?_cons] at h
      simp [h]
    · simp [get?_cons, hk] at h
      exact List.mem_cons_of_mem _ (ih h)

/-- A value that can be read is smaller than the record. -/
theorem sizeOf_lt_of_get?_eq_some [SizeOf α] {r : Record α} {key : String} {v : α}
    (h : get? r key = some v) : sizeOf v < sizeOf r := by
  have hm := List.sizeOf_lt_of_mem (mem_of_get?_eq_some h)
  simp only [Prod.mk.sizeOf_spec] at hm
  omega

/-! ## Writing -/

/-- Where a record is written: in place, or at the end. -/
theorem put_cases (r : Record α) (key : String) :
    (get? r key = none ∧ ∀ v, put r key v = r ++ [(key, v)]) ∨
    ∃ before old after, get? r key = some old ∧ r = before ++ (key, old) :: after ∧
      ∀ v, put r key v = before ++ (key, v) :: after := by
  induction r with
  | nil => exact .inl ⟨rfl, fun _ => rfl⟩
  | cons e rest ih =>
    obtain ⟨k, w⟩ := e
    by_cases hk : k = key
    · subst hk
      refine .inr ⟨[], w, rest, ?_, rfl, fun v => ?_⟩
      · rw [get?_cons, if_pos rfl]
      · rw [put, if_pos rfl]
        rfl
    · rcases ih with ⟨hnone, hput⟩ | ⟨before, old, after, hget, hr, hput⟩
      · refine .inl ⟨by rw [get?_cons, if_neg hk, hnone], fun v => ?_⟩
        rw [put, if_neg hk, hput]
        rfl
      · refine .inr ⟨(k, w) :: before, old, after, ?_, by rw [hr]; rfl, fun v => ?_⟩
        · rw [get?_cons, if_neg hk, hget]
        · rw [put, if_neg hk, hput]
          rfl

/-- An entry of a record after a write. -/
theorem mem_put {r : Record α} {key : String} {v : α} {e : String × α} (h : e ∈ put r key v) :
    e ∈ r ∨ e = (key, v) := by
  rcases put_cases r key with ⟨-, hput⟩ | ⟨before, old, after, -, rfl, hput⟩
  · rw [hput] at h
    exact (List.mem_append.1 h).imp_right List.mem_singleton.1
  · rw [hput] at h
    rcases List.mem_append.1 h with h | h
    · exact .inl (List.mem_append_left _ h)
    · rcases List.mem_cons.1 h with rfl | h
      · exact .inr rfl
      · exact .inl (List.mem_append_right _ (List.mem_cons_of_mem _ h))

/-- Only the last write of a key is seen. -/
theorem put_put (r : Record α) (key : String) (v w : α) :
    put (put r key v) key w = put r key w := by
  induction r with
  | nil => simp [put]
  | cons e rest ih =>
    obtain ⟨k, u⟩ := e
    by_cases hk : k = key
    · simp [put, hk]
    · simp [put, hk, ih]

/-- Writing what is there already changes nothing. -/
theorem put_of_get? {r : Record α} {key : String} {v : α} (h : get? r key = some v) :
    put r key v = r := by
  rcases put_cases r key with ⟨hnone, -⟩ | ⟨before, old, after, hold, hr, hput⟩
  · rw [hnone] at h
    cases h
  · obtain rfl := Option.some.inj (hold.symm.trans h)
    rw [hput, ← hr]

/-- A write is forgotten when its key is erased. -/
theorem erase_put (r : Record α) (key : String) (v : α) :
    erase (put r key v) key = erase r key := by
  induction r with
  | nil => simp [put, erase]
  | cons e rest ih =>
    obtain ⟨k, w⟩ := e
    by_cases hk : k = key
    · simp [put, erase, hk]
    · simp [put, erase, hk, ih]

/-- Erasing a key that is not there changes nothing. -/
theorem erase_of_get? {r : Record α} {key : String} (h : get? r key = none) : erase r key = r := by
  induction r with
  | nil => rfl
  | cons e rest ih =>
    obtain ⟨k, v⟩ := e
    rw [get?_cons] at h
    split at h
    · cases h
    · rename_i hk
      rw [erase, if_neg hk, ih h]

/-- Erasing takes entries away. -/
theorem erase_sublist (r : Record α) (key : String) : (erase r key).Sublist r := by
  induction r with
  | nil => exact List.Sublist.refl _
  | cons e rest ih =>
    obtain ⟨k, v⟩ := e
    rw [erase]
    split
    · exact ih.cons _
    · exact ih.cons_cons _

/-! ## Keys -/

/-- A write under a key that is there keeps the keys. -/
theorem keys_put_of_get? {r : Record α} {key : String} {old : α} (h : get? r key = some old)
    (v : α) :
    keys (put r key v) = keys r := by
  rcases put_cases r key with ⟨hnone, -⟩ | ⟨before, old', after, -, rfl, hput⟩
  · rw [hnone] at h
    cases h
  · rw [hput]
    simp [keys]

/-- No key occurs twice after a write. -/
theorem nodup_keys_put {r : Record α} (h : (keys r).Nodup) (key : String) (v : α) :
    (keys (put r key v)).Nodup := by
  rcases hget : get? r key with _ | old
  · rcases put_cases r key with ⟨-, hput⟩ | ⟨before, old, after, hsome, -, -⟩
    · rw [hput, keys, List.map_append, List.nodup_append]
      refine ⟨h, List.pairwise_singleton .., fun a ha b hb => ?_⟩
      rintro rfl
      obtain rfl := List.mem_singleton.1 hb
      have hhas := (mem_keys_iff r a).1 ha
      rw [has, hget] at hhas
      cases hhas
    · rw [hget] at hsome
      cases hsome
  · rwa [keys_put_of_get? hget]

/-- When no key occurs twice, every entry is found under its key. -/
theorem get?_of_mem {r : Record α} (hr : (keys r).Nodup) {e : String × α} (he : e ∈ r) :
    get? r e.1 = some e.2 := by
  induction r with
  | nil => cases he
  | cons x rest ih =>
    obtain ⟨k, v⟩ := x
    obtain ⟨hk, hrest⟩ := List.nodup_cons.1 hr
    rcases List.mem_cons.1 he with rfl | he
    · rw [get?_cons, if_pos rfl]
    · have hkey : e.1 ∈ keys rest := List.mem_map_of_mem he
      have hne : k ≠ e.1 := fun hke => hk (by rwa [hke])
      rw [get?_cons, if_neg hne, ih hrest he]

/-! ## Changing every value -/

section Change

variable (f : α → β)

@[simp] theorem mapValues_cons (k : String) (v : α) (rest : Record α) :
    mapValues f ((k, v) :: rest) = (k, f v) :: mapValues f rest := rfl

@[simp] theorem get?_mapValues (r : Record α) (key : String) :
    get? (mapValues f r) key = (get? r key).map f := by
  induction r with
  | nil => rfl
  | cons e rest ih =>
    rw [mapValues_cons, get?_cons, get?_cons, ih]
    split <;> rfl

@[simp] theorem has_mapValues (r : Record α) (key : String) :
    has (mapValues f r) key = has r key := by
  rw [has, has, get?_mapValues, Option.isSome_map]

@[simp] theorem keys_mapValues (r : Record α) : keys (mapValues f r) = keys r := by
  rw [keys, keys, mapValues, List.map_map]
  rfl

theorem mapValues_put (r : Record α) (key : String) (v : α) :
    mapValues f (put r key v) = put (mapValues f r) key (f v) := by
  induction r with
  | nil => rfl
  | cons e rest ih =>
    rw [put, mapValues_cons, put]
    split
    · rfl
    · rw [mapValues_cons, ih]

theorem mapValues_erase (r : Record α) (key : String) :
    mapValues f (erase r key) = erase (mapValues f r) key := by
  induction r with
  | nil => rfl
  | cons e rest ih =>
    rw [erase, mapValues_cons, erase]
    split
    · exact ih
    · rw [mapValues_cons, ih]

theorem mapValues_merge (r other : Record α) :
    mapValues f (merge r other) = merge (mapValues f r) (mapValues f other) := by
  induction other generalizing r with
  | nil => rfl
  | cons e rest ih =>
    change mapValues f (merge (put r e.1 e.2) rest) = merge (put (mapValues f r) e.1 (f e.2)) _
    rw [ih, mapValues_put]
    rfl

/-- A change that leaves every value alone leaves the record alone. -/
theorem mapValues_eq_self {g : α → α} {r : Record α} (h : ∀ e ∈ r, g e.2 = e.2) :
    mapValues g r = r := by
  refine (List.map_congr_left fun e he => ?_).trans (List.map_id r)
  rw [h e he]
  rfl

end Change

end Record

end EntityGraph

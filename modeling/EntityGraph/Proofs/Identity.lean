import EntityGraph.Store.Memory
import Mathlib.Tactic.Ring
import Mathlib.Tactic.LinearCombination

/-!
# Identifiers and collections

A collection files documents under identifiers, and identifiers are compared by content. On values
that can be identifiers this comparison is symmetric and transitive, though not reflexive: a double
that is no number differs from itself. That is enough to say what a collection holds after a
document was filed or removed.
-/

namespace EntityGraph

namespace Decimal.Number

/-- The denominator is positive. -/
def Proper : Number → Prop
  | .ratio _ d => 0 < d
  | _ => True

/-- Numbers that are read are proper. -/
theorem proper_ofReading (r : Reading) : (ofReading r).Proper := by
  unfold ofReading
  split
  · trivial
  · trivial
  · dsimp only
    split
    · exact Nat.one_pos
    · exact Nat.pow_pos (by decide)

/-- Equality of numbers is symmetric. -/
theorem eq_symm {x y : Number} (h : x.eq y = true) : y.eq x = true := by
  cases x <;> cases y <;> simp only [eq, Bool.false_eq_true, beq_iff_eq] at h ⊢
  · exact h.symm
  · exact h.symm

/-- Equality of numbers is transitive around a proper one. -/
theorem eq_trans {x y z : Number} (hy : y.Proper) (h : x.eq y = true) (h' : y.eq z = true) :
    x.eq z = true := by
  cases x <;> cases y <;> cases z <;> simp only [eq, Bool.false_eq_true, beq_iff_eq] at h h' ⊢
  · exact h.trans h'
  · rename_i a b c d e f
    have hd : (d : Int) ≠ 0 := Int.natCast_ne_zero.2 (Nat.pos_iff_ne_zero.1 hy)
    refine Int.eq_of_mul_eq_mul_right hd ?_
    linear_combination (f : Int) * h + (b : Int) * h'

end Decimal.Number

namespace Moment

/-- Equality of moments is symmetric. -/
theorem eq_symm {m n : Moment} (h : m.eq n = true) : n.eq m = true := by
  unfold eq at h ⊢
  cases hm : m.instant? <;> cases hn : n.instant? <;>
    simp only [hm, hn, Bool.false_eq_true, beq_iff_eq] at h ⊢
  · exact h.symm
  · exact h.symm

/-- Equality of moments is transitive. -/
theorem eq_trans {m n o : Moment} (h : m.eq n = true) (h' : n.eq o = true) : m.eq o = true := by
  unfold eq at h h' ⊢
  cases hm : m.instant? <;> cases hn : n.instant? <;> cases ho : o.instant? <;>
    simp only [hm, hn, ho, Bool.false_eq_true, beq_iff_eq] at h h' ⊢
  · exact h.trans h'
  · exact h.trans h'

end Moment

namespace Value

open Decimal (Number)

/-- The number of a value is proper. -/
theorem proper_number? {v : Value} {x : Number} (h : v.number? = some x) : x.Proper := by
  unfold number? at h
  split at h
  · cases h
    exact Nat.one_pos
  · cases h
    exact Nat.one_pos
  · cases h
    exact Number.proper_ofReading _
  · cases h

/-- The ways in which an identifier can equal another value. -/
theorem eq_cases {v w : Value} (hv : v.isKey = true) (h : v.eq w = true) :
    v = w ∨ (∃ m n, v = .moment m ∧ w = .moment n ∧ m.eq n = true) ∨
      ∃ x y, v.number? = some x ∧ w.number? = some y ∧ x.eq y = true := by
  cases v with
  | null =>
    cases w <;> simp only [eq, Bool.false_eq_true] at h
    exact .inl rfl
  | text s =>
    cases w <;> simp only [eq, Bool.false_eq_true, beq_iff_eq] at h
    exact .inl (congrArg _ h)
  | id o =>
    cases w <;> simp only [eq, Bool.false_eq_true, beq_iff_eq] at h
    exact .inl (congrArg _ h)
  | member e n =>
    cases w <;> simp only [eq, Bool.false_eq_true, Bool.and_eq_true, beq_iff_eq] at h
    rw [h.1, h.2]
    exact .inl rfl
  | moment m =>
    cases w <;> simp only [eq, Bool.false_eq_true] at h
    exact .inr (.inl ⟨m, _, rfl, rfl, h⟩)
  | bool b =>
    obtain ⟨y, hy, hxy⟩ := (eq_iff_of_number rfl).1 h
    exact .inr (.inr ⟨_, y, rfl, hy, hxy⟩)
  | int i =>
    obtain ⟨y, hy, hxy⟩ := (eq_iff_of_number rfl).1 h
    exact .inr (.inr ⟨_, y, rfl, hy, hxy⟩)
  | float x =>
    obtain ⟨y, hy, hxy⟩ := (eq_iff_of_number rfl).1 h
    exact .inr (.inr ⟨_, y, rfl, hy, hxy⟩)
  | list _ => cases hv
  | object _ => cases hv

/-- Numbers can be keys. -/
theorem isKey_of_number {v : Value} {x : Number} (h : v.number? = some x) : v.isKey = true := by
  cases v <;> first | rfl | cases h

/-- What equals an identifier can be one. -/
theorem isKey_of_eq {v w : Value} (hv : v.isKey = true) (h : v.eq w = true) : w.isKey = true := by
  obtain rfl | ⟨m, n, -, rfl, -⟩ | ⟨x, y, -, hy, -⟩ := eq_cases hv h
  · exact hv
  · rfl
  · exact isKey_of_number hy

/-- Equality with a key is symmetric. -/
theorem eq_symm {v w : Value} (hv : v.isKey = true) (h : v.eq w = true) : w.eq v = true := by
  obtain rfl | ⟨m, n, rfl, rfl, hmn⟩ | ⟨x, y, hx, hy, hxy⟩ := eq_cases hv h
  · exact h
  · rw [eq]
    exact Moment.eq_symm hmn
  · exact (eq_iff_of_number hy).2 ⟨x, hx, Number.eq_symm hxy⟩

/-- Equality with a key is transitive. -/
theorem eq_trans {u v w : Value} (hu : u.isKey = true) (h : u.eq v = true) (h' : v.eq w = true) :
    u.eq w = true := by
  obtain rfl | ⟨m, n, rfl, rfl, hmn⟩ | ⟨x, y, hx, hy, hxy⟩ := eq_cases hu h
  · exact h'
  · cases w <;> simp only [eq, Bool.false_eq_true] at h' ⊢
    exact Moment.eq_trans hmn h'
  · obtain ⟨z, hz, hyz⟩ := (eq_iff_of_number hy).1 h'
    exact (eq_iff_of_number hx).2 ⟨z, hz, Number.eq_trans (proper_number? hy) hxy hyz⟩

/-- A value equals both of two equal identifiers or none of them. -/
theorem eq_congr {u v : Value} (w : Value) (hu : u.isKey = true) (h : u.eq v = true) :
    u.eq w = v.eq w := by
  have hv := isKey_of_eq hu h
  exact Bool.eq_iff_iff.2 ⟨eq_trans hv (eq_symm hu h), eq_trans hu h⟩

/-- What equals an identifier from the left. -/
theorem isKey_of_eq_right {v w : Value} (hw : w.isKey = true) (h : v.eq w = true) :
    v.isKey = true := by
  cases v with
  | list xs =>
    cases w <;> simp only [eq, Bool.false_eq_true] at h
    cases hw
  | object xs =>
    cases w <;> simp only [eq, Bool.false_eq_true] at h
    cases hw
  | _ => rfl

end Value

/-! ## One collection -/

namespace Collection

/-- No identifier is filed twice. -/
def Distinct (c : Collection) : Prop := c.Pairwise fun e f => e.1.eq f.1 = false

theorem distinct_nil : Distinct [] := List.Pairwise.nil

theorem get?_cons (k : Value) (d : Document) (rest : Collection) (id : Value) :
    get? ((k, d) :: rest) id = if k.eq id then some d else get? rest id := rfl

/-- What can be looked up is filed. -/
theorem exists_mem_of_get? {c : Collection} {id : Value} {d : Document} (h : get? c id = some d) :
    ∃ k, (k, d) ∈ c ∧ k.eq id = true := by
  induction c with
  | nil => cases h
  | cons e rest ih =>
    obtain ⟨k, d'⟩ := e
    rw [get?_cons] at h
    split at h
    · rename_i hk
      cases h
      exact ⟨k, List.mem_cons_self .., hk⟩
    · obtain ⟨k', hm, hk'⟩ := ih h
      exact ⟨k', List.mem_cons_of_mem _ hm, hk'⟩

/-- A document is not found where no key equals the identifier. -/
theorem get?_eq_none {c : Collection} {id : Value} (h : ∀ e ∈ c, e.1.eq id = false) :
    get? c id = none := by
  induction c with
  | nil => rfl
  | cons e rest ih =>
    obtain ⟨k, d⟩ := e
    rw [get?_cons, h (k, d) (List.mem_cons_self ..)]
    exact ih fun f hf => h f (List.mem_cons_of_mem _ hf)

/-- Equal identifiers name the same document. -/
theorem get?_congr (c : Collection) {id id' : Value} (hid : id.isKey = true)
    (h : id.eq id' = true) : get? c id = get? c id' := by
  have hkey : ∀ k : Value, k.eq id = k.eq id' := fun k => by
    refine Bool.eq_iff_iff.2 ⟨fun hk => ?_, fun hk => ?_⟩
    · exact Value.eq_trans (Value.isKey_of_eq_right hid hk) hk h
    · have hid' := Value.isKey_of_eq hid h
      exact Value.eq_trans (Value.isKey_of_eq_right hid' hk) hk (Value.eq_symm hid h)
  induction c with
  | nil => rfl
  | cons e rest ih =>
    obtain ⟨k, d⟩ := e
    rw [get?_cons, get?_cons, hkey k, ih]

/-- **Filing a document** changes what its identifier names, and nothing else. -/
theorem get?_put {c : Collection} {id : Value} (hid : id.isKey = true) (d : Document)
    (id' : Value) :
    get? (put c id d) id' = if id.eq id' then some d else get? c id' := by
  induction c with
  | nil => rfl
  | cons e rest ih =>
    obtain ⟨k, old⟩ := e
    rw [put]
    by_cases hk : k.eq id = true
    · rw [if_pos hk, get?_cons, get?_cons,
        Value.eq_congr id' (Value.isKey_of_eq_right hid hk) hk]
      split <;> rfl
    · rw [if_neg hk, get?_cons, get?_cons, ih]
      by_cases hk' : k.eq id' = true
      · have hid' : ¬ id.eq id' = true := fun h => hk <| by
          have hkey := Value.isKey_of_eq_right (Value.isKey_of_eq hid h) hk'
          exact Value.eq_trans hkey hk' (Value.eq_symm hid h)
        rw [if_pos hk', if_neg hid', if_pos hk']
      · rw [if_neg hk', if_neg hk']

/-- Removing a document leaves what other identifiers name. -/
theorem get?_erase_of_ne {c : Collection} {id : Value} (hid : id.isKey = true) {id' : Value}
    (h : id.eq id' = false) : get? (erase c id) id' = get? c id' := by
  induction c with
  | nil => rfl
  | cons e rest ih =>
    obtain ⟨k, old⟩ := e
    rw [erase]
    by_cases hk : k.eq id = true
    · rw [if_pos hk, get?_cons, Value.eq_congr id' (Value.isKey_of_eq_right hid hk) hk, h]
      rfl
    · rw [if_neg hk, get?_cons, get?_cons, ih]

/-- **Removing a document** leaves its identifier without one, and changes nothing else. What goes
is the only entry under the identifier. -/
theorem get?_erase {c : Collection} (hc : c.Distinct) {id : Value} (hid : id.isKey = true)
    (id' : Value) : get? (erase c id) id' = if id.eq id' then none else get? c id' := by
  by_cases h : id.eq id' = true
  · rw [if_pos h, ← get?_congr _ hid h]
    induction c with
    | nil => rfl
    | cons e rest ih =>
      obtain ⟨k, old⟩ := e
      obtain ⟨hne, hrest⟩ := List.pairwise_cons.1 hc
      rw [erase]
      by_cases hk : k.eq id = true
      · rw [if_pos hk]
        have hkey := Value.isKey_of_eq_right hid hk
        refine get?_eq_none fun f hf => Bool.eq_false_iff.2 fun hf' => ?_
        have hfk := Value.eq_trans hkey hk (Value.eq_symm (Value.isKey_of_eq_right hid hf') hf')
        rw [hne f hf] at hfk
        cases hfk
      · rw [if_neg hk, get?_cons, if_neg hk]
        exact ih hrest
  · rw [if_neg h]
    exact get?_erase_of_ne hid (Bool.eq_false_iff.2 h)

/-- Filing adds one document at most. -/
theorem mem_put {c : Collection} {id : Value} {d : Document} {e : Value × Document}
    (h : e ∈ put c id d) : e ∈ c ∨ e.2 = d := by
  induction c with
  | nil =>
    obtain rfl := List.mem_singleton.1 h
    exact .inr rfl
  | cons f rest ih =>
    obtain ⟨k, old⟩ := f
    rw [put] at h
    split at h
    · rcases List.mem_cons.1 h with rfl | hm
      · exact .inr rfl
      · exact .inl (List.mem_cons_of_mem _ hm)
    · rcases List.mem_cons.1 h with rfl | hm
      · exact .inl (List.mem_cons_self ..)
      · rcases ih hm with hm | hd
        · exact .inl (List.mem_cons_of_mem _ hm)
        · exact .inr hd

/-- Removing only takes away. -/
theorem erase_sublist (c : Collection) (id : Value) : (erase c id).Sublist c := by
  induction c with
  | nil => exact List.Sublist.refl _
  | cons e rest ih =>
    obtain ⟨k, old⟩ := e
    rw [erase]
    split
    · exact List.sublist_cons_self _ _
    · exact ih.cons_cons _

/-- The identifiers after filing a document: those before, and its own at the end when it is new. -/
theorem map_fst_put (c : Collection) (id : Value) (d : Document) :
    (put c id d).map Prod.fst = c.map Prod.fst ∨
      ((∀ e ∈ c, e.1.eq id = false) ∧ (put c id d).map Prod.fst = c.map Prod.fst ++ [id]) := by
  induction c with
  | nil => exact .inr ⟨fun e he => absurd he List.not_mem_nil, rfl⟩
  | cons e rest ih =>
    obtain ⟨k, old⟩ := e
    rw [put]
    split
    · exact .inl rfl
    · rename_i hk
      rcases ih with h | ⟨hne, h⟩
      · left
        rw [List.map_cons, h]
        rfl
      · right
        refine ⟨fun f hf => ?_, by rw [List.map_cons, h]; rfl⟩
        rcases List.mem_cons.1 hf with rfl | hf
        · exact Bool.eq_false_iff.2 hk
        · exact hne f hf

/-- A collection is distinct when its keys are. -/
theorem distinct_iff (c : Collection) :
    c.Distinct ↔ (c.map Prod.fst).Pairwise fun k l => k.eq l = false := by
  rw [List.pairwise_map]
  rfl

/-- Filing keeps a collection distinct. -/
theorem Distinct.put {c : Collection} (hc : c.Distinct) (id : Value) (d : Document) :
    (put c id d).Distinct := by
  rw [distinct_iff] at hc ⊢
  rcases map_fst_put c id d with h | ⟨hne, h⟩
  · rw [h]
    exact hc
  · rw [h, List.pairwise_append]
    refine ⟨hc, List.pairwise_singleton _ _, fun k hk l hl => ?_⟩
    obtain rfl := List.mem_singleton.1 hl
    obtain ⟨e, he, rfl⟩ := List.mem_map.1 hk
    exact hne e he

/-- So does removing. -/
theorem Distinct.erase {c : Collection} (hc : c.Distinct) (id : Value) : (erase c id).Distinct :=
  List.Pairwise.sublist (erase_sublist c id) hc

end Collection

end EntityGraph

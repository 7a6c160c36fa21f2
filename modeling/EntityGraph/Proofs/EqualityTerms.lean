import EntityGraph.Proofs.Pipeline

/-!
# Equality terms

A term that asks for equality, or names no operator, becomes the condition that its value is, once
identifiers and moments are read (`termCondition_of_isEquality`). The store tells a value to equal
from an object of operators by its keys. So a term selects by equality unless its value is an object
with a key like the name of an operator, and then by these operators (`equality_term_selects`): the
value of an equality is not opaque.
-/

namespace EntityGraph

/-- **A term that asks for equality**, or leaves its operator out. -/
def FilterTerm.IsEquality (t : FilterTerm) : Prop := t.operator = none ∨ t.operator = some .eq

/-- The condition of an equality is its value. -/
theorem termCondition_of_isEquality {t : FilterTerm} (ht : t.IsEquality) (f : FieldDef)
    (key : String) : termCondition f key t = coerceTerm f key t := by
  unfold termCondition
  rcases ht with ht | ht
  · rw [ht]
    exact bind_pure _
  · rw [ht]
    exact bind_pure _

/-! ## Which values an equality selects -/

/-- **Meeting a value**: one of the addressed values is equal to it, or is a list with an item equal
to it. A list is not met as a whole. Null is also met where nothing is addressed, or empty lists
only. -/
def Meets (values : List Value) (w : Value) : Prop :=
  (∃ u ∈ values, u.items? = none ∧ u.eq w = true) ∨
  (∃ items, .list items ∈ values ∧ w.isIn items = true) ∨
  (w.isNull = true ∧ ∀ u ∈ values, u = .list [])

/-- A value is addressed, or an item of a list that is. -/
theorem mem_flatten {values : List Value} {u : Value} :
    u ∈ flatten values ↔ (u ∈ values ∧ u.items? = none) ∨ ∃ items, .list items ∈ values ∧
      u ∈ items := by
  unfold flatten
  rw [List.mem_flatMap]
  constructor
  · rintro ⟨v, hv, hu⟩
    split at hu
    · exact .inr ⟨_, hv, hu⟩
    · rename_i hlist
      obtain rfl := List.mem_singleton.1 hu
      refine .inl ⟨hv, ?_⟩
      cases u <;> first | rfl | exact absurd rfl (hlist _)
  · rintro (⟨hu, hlist⟩ | ⟨items, hitems, hu⟩)
    · refine ⟨u, hu, ?_⟩
      cases u <;> first | exact List.mem_singleton.2 rfl | cases hlist
    · exact ⟨_, hitems, hu⟩

/-- Nothing is left when lists give way to their items exactly where all values are empty lists. -/
theorem flatten_eq_nil {values : List Value} :
    flatten values = [] ↔ ∀ u ∈ values, u = .list [] := by
  constructor
  · intro h u hu
    have hnot : ∀ v, v ∉ flatten values := fun v hv => by
      rw [h] at hv
      exact List.not_mem_nil hv
    rcases hitems : u.items? with _ | items
    · exact absurd (mem_flatten.2 (.inl ⟨hu, hitems⟩)) (hnot u)
    · obtain rfl : u = .list items := by
        cases u <;> first | cases hitems; rfl | cases hitems
      cases items with
      | nil => rfl
      | cons v rest =>
        exact absurd (mem_flatten.2 (.inr ⟨_, hu, List.mem_cons_self ..⟩)) (hnot v)
  · intro h
    refine List.eq_nil_iff_forall_not_mem.2 fun v hv => ?_
    rcases mem_flatten.1 hv with ⟨hv, hlist⟩ | ⟨items, hitems, hv⟩
    · rw [h v hv] at hlist
      cases hlist
    · cases h _ hitems
      exact List.not_mem_nil hv

/-- The store's test of equality is meeting the value. -/
theorem equalityHolds_iff {values : List Value} {w : Value} :
    equalityHolds (flatten values) w = true ↔ Meets values w := by
  rw [equalityHolds, Bool.or_eq_true, Bool.and_eq_true, List.isEmpty_iff, flatten_eq_nil, Meets,
    Value.isIn, List.any_eq_true]
  constructor
  · rintro (⟨u, hu, heq⟩ | hnull)
    · rcases mem_flatten.1 hu with ⟨hu, hlist⟩ | ⟨items, hitems, hu⟩
      · exact .inl ⟨u, hu, hlist, heq⟩
      · exact .inr (.inl ⟨items, hitems, List.any_eq_true.2 ⟨u, hu, heq⟩⟩)
    · exact .inr (.inr hnull)
  · rintro (⟨u, hu, hlist, heq⟩ | ⟨items, hitems, hin⟩ | hnull)
    · exact .inl ⟨u, mem_flatten.2 (.inl ⟨hu, hlist⟩), heq⟩
    · obtain ⟨u, hu, heq⟩ := List.any_eq_true.1 hin
      exact .inl ⟨u, mem_flatten.2 (.inr ⟨items, hitems, hu⟩), heq⟩
    · exact .inr hnull

/-- How a condition is asked that is no object of operators. -/
theorem conditionHolds_of_value {w : Value} (hw : isOperatorObject w = false)
    (values : List Value) :
    conditionHolds values w = .ok (equalityHolds (flatten values) w) := by
  unfold conditionHolds
  cases w with
  | object fs =>
    dsimp only
    rw [hw]
    rfl
  | _ => rfl

/-- How an object of operators is asked. -/
theorem conditionHolds_of_operators {fs : Document} (hw : isOperatorObject (.object fs) = true)
    (values : List Value) :
    conditionHolds values (.object fs) = operatorsHold (flatten values) fs := by
  unfold conditionHolds
  dsimp only
  rw [hw]
  rfl

/-! ## The field that a term is about -/

/-- The field at the end of names that lead from field to field, starting at an entity. -/
def fieldAt? (r : Registry) : Entity → List String → Option FieldDef
  | _, [] => none
  | current, name :: rest => do
    let f ← current.field? name
    if rest.isEmpty then some f
    else
      let target ← Clause.target? r f
      fieldAt? r target.entity rest

/-- **A filter of one term**, and the field that the term is about: the field itself, or the one at
the end of a path through relations. -/
inductive Filter.IsTerm (r : Registry) (f : FieldDef) : Filter → FilterTerm → FieldDef → Prop where
  | direct (t : FilterTerm) : IsTerm r f (.term t) t f
  | path {t : PathTerm} {target : Descriptor} {g : FieldDef}
    (htarget : Clause.target? r f = some target)
      (hg : fieldAt? r target.entity (Text.segments t.path) = some g) :
      IsTerm r f (.expression [t]) t.toFilterTerm g

namespace Clause

/-- The clause of a term asks its condition of the field at the end of its path. -/
theorem follow?_leaf {r : Registry} {t : FilterTerm} {names : List String} {current : Entity}
    {hop inside : List String} {c : Clause} (h : follow? r t current hop inside names = some c) :
    ∃ g, fieldAt? r current names = some g ∧ c.path.getLast? = some (leafKey g g.name) ∧
      termCondition g (leafKey g g.name) t = .ok c.condition := by
  induction names generalizing current hop inside c with
  | nil => cases h
  | cons name rest ih =>
    obtain ⟨f, hf, hcases⟩ := follow?_cases h
    have hname : f.name = name := by simpa using List.find?_some hf
    have hnext : ∀ {target : Descriptor} {hop' inside' : List String} {c' : Clause},
      target? r f = some target →
        follow? r t target.entity hop' inside' rest = some c' →
          fieldAt? r current (name :: rest) = fieldAt? r target.entity rest := by
      intro target hop' inside' c' htarget hc'
      cases rest with
      | nil => cases hc'
      | cons s more =>
        rw [fieldAt?, hf]
        change (Clause.target? r f).bind _ = _
        rw [htarget]
        rfl
    obtain ⟨target, htarget, -, hc⟩ | ⟨target, c', htarget, -, hc, rfl⟩ |
      ⟨condition, rfl, hcondition, rfl⟩ := hcases
    · rw [hnext htarget hc]
      exact ih hc
    · rw [hnext htarget hc]
      exact ih (c := c') hc
    · subst hname
      refine ⟨f, ?_, by simp, hcondition⟩
      rw [fieldAt?, hf]
      rfl

/-- The clause of a filter of one term. -/
theorem ofFilter?_isTerm {r : Registry} {f g : FieldDef} {filter : Filter} {t : FilterTerm}
    (hterm : filter.IsTerm r f t g) {cs : List Clause} (h : ofFilter? r f filter = some cs) :
    ∃ c, cs = [c] ∧ c.path.getLast? = some (leafKey g g.name) ∧
      termCondition g (leafKey g g.name) t = .ok c.condition := by
  cases hterm with
  | direct =>
    rw [ofFilter?] at h
    simp only [Option.bind_eq_bind, Option.bind_eq_some_iff, Option.some.injEq] at h
    obtain ⟨condition, hcondition, rfl⟩ := h
    exact ⟨_, rfl, rfl, toOption_termCondition hcondition⟩
  | @path t target _ htarget hg =>
    rw [ofFilter?, List.mapM_cons, List.mapM_nil] at h
    simp only [Option.bind_eq_bind, Option.bind_eq_some_iff, Option.pure_def,
      Option.some.injEq] at h
    obtain ⟨c, hc, _, rfl, rfl⟩ := h
    refine ⟨c, rfl, ?_⟩
    obtain ⟨target', htarget', hcases⟩ := ofPathTerm?_cases hc
    obtain rfl : target = target' := Option.some.inj (htarget.symm.trans htarget')
    have hleaf : ∃ g', fieldAt? r target.entity (Text.segments t.path) = some g' ∧
        c.path.getLast? = some (leafKey g' g'.name) ∧
        termCondition g' (leafKey g' g'.name) t.toFilterTerm = .ok c.condition := by
      obtain ⟨-, hleaf⟩ | ⟨c', -, hleaf, rfl⟩ := hcases
      · exact follow?_leaf hleaf
      · exact follow?_leaf (c := c') hleaf
    obtain ⟨g', hg', hpath, hcondition⟩ := hleaf
    obtain rfl : g = g' := Option.some.inj (hg.symm.trans hg')
    exact ⟨hpath, hcondition⟩

end Clause

/-! ## Selecting by an equality -/

/-- A clause alone gives a query with one condition. -/
theorem Plan.query_addClause_empty (c : Clause) :
    (Plan.empty.addClause c).query = [(dotted (rowPath c.hop c.path), c.condition)] := by
  have hquery : (c.hops.foldl (fun p h => p.join h.join) Plan.empty).query = [] :=
    query_foldl_join ..
  unfold addClause addCondition
  rw [hquery]
  rfl

/-- **Equality terms select by equality, unless they hold operators.** Let a filter of one equality
on a field compile. Its query has one condition: the value of the term, with identifiers and moments
read as for that field, asked at the path of the field. When the value is no object with an operator
among its keys, asking a row says whether what the path addresses meets the value. When it is, its
keys are taken for operators. -/
theorem equality_term_selects {r : Registry} {f g : FieldDef} {filter : Filter} {t : FilterTerm}
    {p : Plan} (hterm : filter.IsTerm r f t g) (ht : t.IsEquality)
    (hp : planFilter r f filter .empty = .ok p) :
    ∃ c, Clause.ofFilter? r f filter = some [c] ∧
      c.path.getLast? = some (Clause.leafKey g g.name) ∧
      coerceTerm g (Clause.leafKey g g.name) t = .ok c.condition ∧
      p.query = [(dotted (rowPath c.hop c.path), c.condition)] ∧
      (¬ IsCombinator (dotted (rowPath c.hop c.path)) → ∀ row : Document,
        (isOperatorObject c.condition = false → ∃ b, matchesQuery row (.object p.query) = .ok b ∧
          (b = true ↔ Meets (resolve row (dotted (rowPath c.hop c.path))) c.condition)) ∧
        (∀ fs, c.condition = .object fs → isOperatorObject c.condition = true →
          matchesQuery row (.object p.query) =
            operatorsHold (flatten (resolve row (dotted (rowPath c.hop c.path)))) fs)) := by
  obtain ⟨cs, hcs, rfl⟩ := planFilter_eq hp
  obtain ⟨c, rfl, hpath, hcondition⟩ := Clause.ofFilter?_isTerm hterm hcs
  rw [termCondition_of_isEquality ht] at hcondition
  have hquery : ([c].foldl Plan.addClause Plan.empty).query = _ := Plan.query_addClause_empty c
  refine ⟨c, hcs, hpath, hcondition, hquery, fun hkey row => ?_⟩
  rw [hquery, matchesQuery_single row hkey]
  refine ⟨fun hvalue => ?_, fun fs hfs hops => ?_⟩
  · exact ⟨_, conditionHolds_of_value hvalue _, equalityHolds_iff⟩
  · dsimp only
    rw [hfs] at hops ⊢
    exact conditionHolds_of_operators hops _

/-- The name of a book's author. -/
def authorName : FieldDef := ⟨"name", .scalar .string, false, true, false, false, none, .null⟩

/-- The relation of a book to its author. -/
def bookAuthor : FieldDef :=
  ⟨"author", .entity "Author", false, true, false, false, some ⟨false, "writer", .null⟩, .null⟩

/-- Books by Ada, and a row of a book with its author. -/
theorem byAda_selects : ∃ p c,
    planFilter shelf bookAuthor (.expression [⟨⟨none, .text "Ada"⟩, "name"⟩]) .empty = .ok p ∧
    Clause.ofFilter? shelf bookAuthor (.expression [⟨⟨none, .text "Ada"⟩, "name"⟩]) = some [c] ∧
    p.query = [("author.name", .text "Ada")] ∧
    ∃ b, matchesQuery [("_id", .int 1), ("author", .object [("name", .text "Ada")])]
        (.object p.query) = .ok b ∧ (b = true ↔ Meets [.text "Ada"] (.text "Ada")) := by
  obtain ⟨p, hp⟩ : ∃ p, planFilter shelf bookAuthor
      (.expression [⟨⟨none, .text "Ada"⟩, "name"⟩]) .empty = .ok p := ⟨_, rfl⟩
  have hterm : (Filter.expression [⟨⟨none, .text "Ada"⟩, "name"⟩]).IsTerm shelf bookAuthor
      ⟨none, .text "Ada"⟩ authorName :=
      .path (show Clause.target? shelf bookAuthor = some authorDescriptor from rfl) rfl
  obtain ⟨c, hc, -, -, hquery, hasks⟩ := equality_term_selects hterm (.inl rfl) hp
  obtain rfl : c = ⟨[⟨["author"], [], [], "writer", "authors", "_id"⟩], ["author"], ["name"],
    .text "Ada"⟩ := by
    cases hc
    rfl
  refine ⟨p, _, hp, hc, hquery, ?_⟩
  exact (hasks (by unfold IsCombinator; decide) _).1 rfl

/-- **An equality can hold operators.** The term that asks for a title equal to an object with the
key `$ne` selects the book with the title "Notes", which that object does not equal. -/
theorem operators_in_equality : ∃ p,
    planFilter shelf ⟨"title", .scalar .string, false, true, false, false, none, .null⟩
      (.term ⟨some .eq, .object [("$ne", .text "Letters")]⟩) .empty = .ok p ∧
    resolve [("_id", .int 1), ("title", .text "Notes")] "title" = [.text "Notes"] ∧
    (Value.text "Notes").eq (.object [("$ne", .text "Letters")]) = false ∧
    matchesQuery [("_id", .int 1), ("title", .text "Notes")] (.object p.query) = .ok true :=
  ⟨_, rfl, by rfl, by rfl, by rfl⟩

end EntityGraph

import EntityGraph.Proofs.EqualityTerms
import EntityGraph.Proofs.StoredForms

/-!
# Negated operators

Two operators negate two others: NE asks that a value is not met, and NIN that none of a list is. A
term and its negation compile to the same joins and to one condition each, on the same path, or are
refused alike (`negation_complements`). Of the values that the path addresses, one of the two
conditions holds and the other does not.

Null is the exception. A path that leads to nothing, or to empty lists only, meets null, and so the
term holds; but no value that it leads to is null, and so the negation holds as well
(`untitled_meets_both`).
-/

namespace EntityGraph

/-! ## Terms and their negations -/

/-- The filter that asks an operator with a value: of a field itself, or of what a path leads to
from there. -/
def Filter.asking (place : Option String) (operator : Operator) (v : Value) : Filter :=
  match place with
  | none => .term ⟨some operator, v⟩
  | some path => .expression [⟨⟨some operator, v⟩, path⟩]

/-- **An operator and its negation**, with a value that both take. -/
inductive Operator.Negates : Operator → Operator → Value → Prop where
  | equality {v : Value} (hv : isOperatorObject v = false) : Operator.Negates .eq .ne v
  | membership {items : List Value} : Operator.Negates .oneOf .noneOf (.list items)

/-- An operator with a value asks for null. -/
def Operator.AsksNull : Operator → Value → Prop
  | .oneOf, v => ∃ items, v = .list items ∧ .null ∈ items
  | _, v => v = .null

/-- Nothing is addressed, or empty lists only. -/
def IsVoid (values : List Value) : Prop := ∀ u ∈ values, u = .list []

/-- **Complements, but for null**: of any values one of two conditions holds and the other does not.
Where nothing is addressed, and null is asked for, both hold. -/
structure Opposed (null : Prop) (c c' : Value) : Prop where
  both : ∀ values, null → IsVoid values → conditionHolds values c = .ok true ∧
    conditionHolds values c' = .ok true
  either : ∀ values, ¬ (null ∧ IsVoid values) →
    ∃ b, conditionHolds values c = .ok b ∧ conditionHolds values c' = .ok !b

/-! ## Conditions -/

/-- Only null equals null. -/
theorem Value.eq_null_iff {v : Value} : v.eq .null = true ↔ v = .null := by
  cases v <;> simp [Value.eq, Value.eqNumber, Value.number?]

/-- Null is among the items that are null. -/
theorem null_isIn_iff {items : List Value} : Value.null.isIn items = true ↔ .null ∈ items := by
  rw [Value.isIn, List.any_eq_true]
  constructor
  · rintro ⟨v, hv, hnull⟩
    rwa [Value.eq_null_iff.1 hnull] at hv
  · exact fun h => ⟨.null, h, rfl⟩

theorem Value.isNull_iff {v : Value} : v.isNull = true ↔ v = .null := by
  cases v <;> simp [Value.isNull]

/-- An operator object with one operator asks it. -/
theorem conditionHolds_of_operator {operator : String} (h : isOperator operator = true)
    (operand : Value) (values : List Value) :
    conditionHolds values (.object [(operator, operand)]) =
      operatorHolds (flatten values) operator operand := by
  rw [conditionHolds_of_operators (by simp [isOperatorObject, h]), operatorsHold]
  rcases operatorHolds (flatten values) operator operand with e | _ | _ <;> rfl

/-- A value to equal, and the same value to differ from. -/
theorem opposed_equality {w : Value} (hw : isOperatorObject w = false) :
    Opposed (w = .null) w (.object [("$ne", w)]) := by
  have heq : ∀ values,
      conditionHolds values w = .ok (w.isIn (flatten values) || w.isNull &&
      (flatten values).isEmpty) :=
    conditionHolds_of_value hw
  have hne : ∀ values, conditionHolds values (.object [("$ne", w)]) =
      .ok !w.isIn (flatten values) :=
    conditionHolds_of_operator rfl w
  refine ⟨?_, fun values hnot => ⟨_, heq values, ?_⟩⟩
  · rintro values rfl hvoid
    rw [heq, hne, flatten_eq_nil.2 hvoid]
    exact ⟨rfl, rfl⟩
  · have hand : (w.isNull && (flatten values).isEmpty) = false := by
      rw [← Bool.not_eq_true, Bool.and_eq_true, Value.isNull_iff, List.isEmpty_iff, flatten_eq_nil]
      exact hnot
    rw [hne, hand, Bool.or_false]

/-- Membership of a list is membership of one of the candidates. -/
theorem anyIn_list (items candidates : List Value) :
    anyIn (.list items) candidates = .ok (candidates.any fun c => c.isIn items) := by
  induction candidates with
  | nil => rfl
  | cons c rest ih =>
    rw [anyIn, List.any_cons, ih, operandHas]
    cases c.isIn items <;> rfl

/-- A list to be in, and the same list to keep out of. -/
theorem opposed_membership (items : List Value) :
    Opposed (.null ∈ items) (.object [("$in", .list items)]) (.object [("$nin", .list items)]) := by
  have hin : ∀ values, conditionHolds values (.object [("$in", .list items)]) =
      .ok (((flatten values).any fun c => c.isIn items) || Value.null.isIn items &&
      (flatten values).isEmpty) := by
    intro values
    rw [conditionHolds_of_operator rfl, operatorHolds.eq_def, if_neg (by decide),
      if_neg (by decide), if_pos rfl, anyIn_list, operandHas]
    cases (flatten values).any fun c => c.isIn items <;> cases Value.null.isIn items <;> rfl
  have hnin : ∀ values, conditionHolds values (.object [("$nin", .list items)]) =
      .ok !(flatten values).any fun c => c.isIn items := by
    intro values
    rw [conditionHolds_of_operator rfl, operatorHolds.eq_def, if_neg (by decide),
      if_neg (by decide), if_neg (by decide), if_pos rfl, anyIn_list]
    rfl
  refine ⟨fun values hnull hvoid => ?_, fun values hnot => ⟨_, hin values, ?_⟩⟩
  · rw [hin, hnin, flatten_eq_nil.2 hvoid, null_isIn_iff.2 hnull]
    exact ⟨rfl, rfl⟩
  · have hand : (Value.null.isIn items && (flatten values).isEmpty) = false := by
      rw [← Bool.not_eq_true, Bool.and_eq_true, null_isIn_iff, List.isEmpty_iff, flatten_eq_nil]
      exact hnot
    rw [hnin, hand, Bool.or_false]

/-! ## Values as they are compared -/

/-- Converting identifiers makes null of null alone. -/
theorem convertIds_eq_null {v : Value} : convertIds v = .null ↔ v = .null := by
  cases v with
  | text s =>
    rw [convertIds]
    split <;> simp
  | _ => simp [convertIds]

theorem isOperatorObject_convertIds_eq {v : Value} :
    isOperatorObject (convertIds v) = isOperatorObject v := by
  cases v with
  | text s =>
    rw [convertIds]
    split <;> rfl
  | _ => simp [convertIds, isOperatorObject]

theorem null_mem_convertItems {items : List Value} :
    .null ∈ convertItems items ↔ .null ∈ items := by
  induction items with
  | nil => rfl
  | cons v rest ih =>
    rw [convertItems, List.mem_cons, List.mem_cons, ih, eq_comm, convertIds_eq_null, eq_comm]

/-- Reading moments makes null of null alone. -/
theorem coerceMoment_eq_null {type : String} {v w : Value} (h : coerceMoment type v = .ok w) :
    w = .null ↔ v = .null := by
  refine ⟨fun hw => by_contra fun hv => coerceMoment_ne_null hv h hw, ?_⟩
  rintro rfl
  rw [coerceMoment] at h
  cases h
  rfl

theorem null_mem_coerceMoments {type : String} {items ws : List Value}
    (h : coerceMoments type items = .ok ws) :
    .null ∈ ws ↔ .null ∈ items := by
  induction items generalizing ws with
  | nil =>
    cases h
    rfl
  | cons v rest ih =>
    rw [coerceMoments] at h
    obtain ⟨w, hw, h⟩ := bind_eq_ok h
    obtain ⟨us, hus, h⟩ := bind_eq_ok h
    cases h
    rw [List.mem_cons, List.mem_cons, ih hus, eq_comm, coerceMoment_eq_null hw, eq_comm]

/-- The value of a negated term is converted in the same way. -/
theorem coerceTerm_eq (f : FieldDef) (key : String) {o o' : Operator} {v : Value}
    (h : o.Negates o' v) :
    coerceTerm f key ⟨some o', v⟩ = coerceTerm f key ⟨some o, v⟩ := by
  cases h <;> rfl

/-- **How a value is compared**: as null when it is null, and as no object of operators when it is
none. -/
theorem coerceTerm_value {f : FieldDef} {key : String} {o : Option Operator} {v w : Value}
    (h : coerceTerm f key ⟨o, v⟩ = .ok w) :
    (w = .null ↔ v = .null) ∧ (isOperatorObject v = false → isOperatorObject w = false) := by
  unfold coerceTerm at h
  split at h
  · refine ⟨coerceMoment_eq_null h, fun _ => ?_⟩
    by_cases hw : w = .null
    · rw [hw]
      rfl
    · cases momentary_of_coerceMoment h hw <;> rfl
  split at h
  · cases h
    exact ⟨convertIds_eq_null, fun hv => isOperatorObject_convertIds_eq.trans hv⟩
  · cases h
    exact ⟨.rfl, id⟩

/-- A list is compared as a list, with null in it when it was in it before. -/
theorem coerceTerm_list {f : FieldDef} {key : String} {o : Option Operator} {items : List Value}
    {w : Value} (h : coerceTerm f key ⟨o, .list items⟩ = .ok w) :
    ∃ ws, w = .list ws ∧ (.null ∈ ws ↔ .null ∈ items) := by
  unfold coerceTerm at h
  split at h
  · rw [coerceMoment] at h
    obtain ⟨ws, hws, h⟩ := bind_eq_ok h
    cases h
    exact ⟨ws, rfl, null_mem_coerceMoments hws⟩
  split at h
  · cases h
    exact ⟨_, by rw [convertIds], null_mem_convertItems⟩
  · cases h
    exact ⟨items, rfl, .rfl⟩

theorem operandItems_list (items : List Value) : operandItems (.list items) = .ok items := by
  cases items <;> rfl

/-! ## Compiling a term and its negation -/

/-- **Refused alike**, or results that are related. -/
inductive Outcome.Both {α β : Type} (R : α → β → Prop) : Outcome α → Outcome β → Prop where
  | error (e : Fault) : Outcome.Both R (.error e) (.error e)
  | ok {a : α} {b : β} (h : R a b) : Outcome.Both R (.ok a) (.ok b)

namespace Outcome.Both

variable {α β γ δ : Type} {R : α → β → Prop} {Q : γ → δ → Prop}

/-- After the same computation. -/
theorem after {o : Outcome γ} {g : γ → Outcome α} {g' : γ → Outcome β}
    (h : ∀ v, Both R (g v) (g' v)) :
    Both R (o >>= g) (o >>= g') := by
  cases o with
  | error e => exact .error e
  | ok v => exact h v

theorem bind {o : Outcome γ} {o' : Outcome δ} {g : γ → Outcome α} {g' : δ → Outcome β}
    (ho : Both Q o o') (h : ∀ v v', Q v v' → Both R (g v) (g' v')) :
    Both R (o >>= g) (o' >>= g') := by
  cases ho with
  | error e => exact .error e
  | ok hq => exact h _ _ hq

/-- What both outcomes ensure can be said less precisely. -/
theorem mono {R' : α → β → Prop} {o : Outcome α} {o' : Outcome β} (h : Both R o o')
    (hR : ∀ a b, R a b → R' a b) :
    Both R' o o' := by
  cases h with
  | error e => exact .error e
  | ok h => exact .ok (hR _ _ h)

end Outcome.Both

/-- **The conditions of a term and its negation** are opposed. -/
theorem termCondition_opposed (f : FieldDef) (key : String) {o o' : Operator} {v : Value}
    (h : o.Negates o' v) :
    Outcome.Both (Opposed (o.AsksNull v)) (termCondition f key ⟨some o, v⟩)
    (termCondition f key ⟨some o', v⟩) := by
  unfold termCondition
  rw [coerceTerm_eq f key h]
  rcases hw : coerceTerm f key ⟨some o, v⟩ with e | w
  · exact .error e
  cases h with
  | equality hv =>
    obtain ⟨hnull, hplain⟩ := coerceTerm_value hw
    have hopposed := opposed_equality (hplain hv)
    rw [hnull] at hopposed
    exact .ok hopposed
  | @membership items =>
    obtain ⟨ws, rfl, hnull⟩ := coerceTerm_list hw
    have hopposed := opposed_membership ws
    have hasks : Operator.AsksNull .oneOf (.list items) ↔ .null ∈ ws := by
      rw [hnull, Operator.AsksNull]
      exact ⟨fun ⟨vs, hvs, hmem⟩ => (Value.list.inj hvs) ▸ hmem, fun hmem => ⟨items, rfl, hmem⟩⟩
    change Outcome.Both _ (buildCondition (some .oneOf) (.list ws))
      (buildCondition (some .noneOf) (.list ws))
    rw [buildCondition, buildCondition, operandItems_list, propext hasks]
    exact .ok hopposed

/-- **Plans that select complements, but for null**: they have the same joins, and one condition
each, which are asked of the same path and opposed. -/
def Plan.Opposed (null : Prop) (p p' : Plan) : Prop :=
  p'.joins = p.joins ∧ ∃ path c c', p.query = [(path, c)] ∧ p'.query = [(path, c')] ∧
    EntityGraph.Opposed null c c'

theorem Plan.opposed_ask {null : Prop} {p : Plan} (hp : p.query = []) (path : String) {c c' : Value}
    (h : EntityGraph.Opposed null c c') :
    Outcome.Both (Plan.Opposed null) (p.ask path c) (p.ask path c') := by
  have hask : ∀ condition, p.ask path condition = .ok (p.addCondition path condition) := by
    intro condition
    unfold ask
    rw [hp]
    rfl
  rw [hask, hask]
  refine .ok ⟨by rw [joins_addCondition, joins_addCondition], path, c, c', ?_, ?_, h⟩ <;>
    · unfold addCondition
      rw [hp]
      rfl

theorem Plan.query_join (p : Plan) (j : Join) : (p.join j).query = p.query := by
  unfold join
  split <;> rfl

section Compiling

variable {r : Registry} {o o' : Operator} {v : Value} {p : Plan}

/-- Following a path makes the same joins for a term and its negation, and asks the end of it for
either. -/
theorem followPath_opposed (h : o.Negates o' v) (root : FieldDef) (path : String)
    {names : List String} (hnames : names ≠ []) {current : Entity} {label : String}
    {embedded : List String} (hp : p.query = []) :
    Outcome.Both (Plan.Opposed (o.AsksNull v))
    (followPath r root ⟨⟨some o, v⟩, path⟩ current label embedded names p)
    (followPath r root ⟨⟨some o', v⟩, path⟩ current label embedded names p) := by
  induction names generalizing current label embedded p with
  | nil => exact absurd rfl hnames
  | cons name rest ih =>
    rw [followPath, followPath]
    cases current.field? name with
    | none => exact .error _
    | some f =>
      refine .after fun kind => ?_
      split
      · cases rest with
        | nil => exact (termCondition_opposed f _ h).bind fun c c' hc => Plan.opposed_ask hp _ hc
        | cons => exact .error _
      split
      · exact .error _
      rename_i hrest
      have hne : rest ≠ [] := fun hnil => hrest (by rw [hnil]; rfl)
      split
      · exact .after fun target => ih hne hp
      · exact .after fun j => .after fun target => ih hne ((p.query_join j).trans hp)

theorem planTerm_opposed (h : o.Negates o' v) (root : FieldDef) (path : String)
    (hp : p.query = []) :
    Outcome.Both (Plan.Opposed (o.AsksNull v)) (planTerm r root p ⟨⟨some o, v⟩, path⟩)
      (planTerm r root p ⟨⟨some o', v⟩, path⟩) := by
  unfold planTerm
  split <;> simp only [pure_bind]
  · exact .after fun target => followPath_opposed h root path (segments_ne_nil path) hp
  · exact .after fun j => .after fun target =>
      followPath_opposed h root path (segments_ne_nil path) ((p.query_join j).trans hp)

theorem planFilter_opposed (h : o.Negates o' v) (f : FieldDef) (place : Option String)
    (hp : p.query = []) :
    Outcome.Both (Plan.Opposed (o.AsksNull v)) (planFilter r f (.asking place o v) p)
      (planFilter r f (.asking place o' v) p) := by
  unfold planFilter
  refine .after fun kind => ?_
  cases place with
  | none =>
    split
    · exact .error _
    · exact (termCondition_opposed f _ h).bind fun c c' hc => Plan.opposed_ask hp _ hc
  | some path =>
    split
    · exact (planTerm_opposed h f path hp).bind fun _ _ hplans => .ok hplans
    · exact .error _

end Compiling

/-! ## Selecting by a term and by its negation -/

/-- **A negation selects what its term leaves out.** Ask a field, or a path from there, for an
operator with a value and for its negation. Either both terms are refused, with the same error, or
both compile: to the same joins, and to one condition each, on the same path. Of the rows of these
joins, whatever they hold, one term selects those that the other does not. Only where the path leads
to nothing, or to empty lists, and null is asked for, both terms select the row. -/
theorem negation_complements (r : Registry) (f : FieldDef) (place : Option String) {o o' : Operator}
    {v : Value} (h : o.Negates o' v) :
    Outcome.Both
      (fun p p' => p'.joins = p.joins ∧ ∃ path, Record.keys p.query = [path] ∧
        Record.keys p'.query = [path] ∧
        (¬ IsCombinator path → ∀ row : Document,
          (¬ (o.AsksNull v ∧ IsVoid (resolve row path)) →
            ∃ b, matchesQuery row (.object p.query) = .ok b ∧
            matchesQuery row (.object p'.query) = .ok !b) ∧
          (o.AsksNull v → IsVoid (resolve row path) →
            matchesQuery row (.object p.query) = .ok true ∧
            matchesQuery row (.object p'.query) = .ok true)))
      (planFilter r f (.asking place o v) .empty) (planFilter r f (.asking place o' v) .empty) := by
  refine (planFilter_opposed h f place rfl).mono fun p p' hopposed => ?_
  obtain ⟨hjoins, path, c, c', hp, hp', hconditions⟩ := hopposed
  refine ⟨hjoins, path, by rw [hp]; rfl, by rw [hp']; rfl, fun hpath row => ?_⟩
  rw [hp, hp', matchesQuery_single row hpath, matchesQuery_single row hpath]
  exact ⟨hconditions.either _, hconditions.both _⟩

/-- Of a book by Ada and a book without an author, one is selected by asking for Ada, the other by
asking for others. -/
theorem byAda_complements : ∃ p p',
    planFilter shelf bookAuthor (.asking (some "name") .eq (.text "Ada")) .empty = .ok p ∧
    planFilter shelf bookAuthor (.asking (some "name") .ne (.text "Ada")) .empty = .ok p' ∧
    (∃ b, matchesQuery [("author", .object [("name", .text "Ada")])] (.object p.query) = .ok b ∧
      matchesQuery [("author", .object [("name", .text "Ada")])] (.object p'.query) = .ok !b) ∧
    ∃ b, matchesQuery [("title", .text "Notes")] (.object p.query) = .ok b ∧
      matchesQuery [("title", .text "Notes")] (.object p'.query) = .ok !b := by
  have hplans :=
    negation_complements shelf bookAuthor (some "name")
      (Operator.Negates.equality (v := .text "Ada") rfl)
  obtain ⟨p, hp⟩ : ∃ p, planFilter shelf bookAuthor (.asking (some "name") .eq (.text "Ada"))
      .empty = .ok p :=
    ⟨_, rfl⟩
  obtain ⟨p', hp'⟩ : ∃ p', planFilter shelf bookAuthor (.asking (some "name") .ne (.text "Ada"))
      .empty = .ok p' :=
    ⟨_, rfl⟩
  rw [hp, hp'] at hplans
  cases hplans
  rename_i hselect
  obtain ⟨-, path, hpath, -, hrows⟩ := hselect
  obtain rfl : path = "author.name" := by
    cases hp
    exact (List.singleton_inj.1 hpath).symm
  have hrow := hrows (by unfold IsCombinator; decide)
  refine ⟨p, p', hp, hp', ?_, ?_⟩ <;> exact (hrow _).1 fun hnull => by cases hnull.1

/-- **Null where there is nothing.** A book without a title is selected by asking for the title
null, and by asking for other titles than null. -/
theorem untitled_meets_both : ∃ p p',
    planFilter shelf ⟨"title", .scalar .string, false, true, false, false, none, .null⟩
      (.asking none .eq .null) .empty = .ok p ∧
    planFilter shelf ⟨"title", .scalar .string, false, true, false, false, none, .null⟩
      (.asking none .ne .null) .empty = .ok p' ∧
    matchesQuery [("_id", .int 1)] (.object p.query) = .ok true ∧
    matchesQuery [("_id", .int 1)] (.object p'.query) = .ok true :=
  ⟨_, _, rfl, rfl, by rfl, by rfl⟩

end EntityGraph

import EntityGraph.Proofs.Ranges

/-!
# Conditions in combination

The query of a plan is an object, so that it has room for one condition on each key. The first
condition on a key stands under the key, and all further ones go into one list under `$and`,
whatever keys they are on and whatever new keys come in between. None of them is lost: the query
matches a document when each of the conditions, asked alone, matches it, in whichever order they
were given (`Plan.askAll_matches`). That a plan is clear carries the proof from one condition to the
next, and a clear plan selects by its conditions and by nothing else.
-/

namespace EntityGraph

/-- **The condition of a term** on a key: the key is not the name of an operator, and the condition
is made of an operator and a value that has no operators for keys. -/
structure IsTermCondition (e : String × Value) : Prop where
  key : isOperator e.1 = false
  made : ∃ operator v, isOperatorObject v = false ∧ buildCondition operator v = .ok e.2

theorem not_isCombinator_of_isOperator {key : String} (h : isOperator key = false) :
    ¬ IsCombinator key := by
  rintro (rfl | rfl) <;> cases h

theorem IsTermCondition.decided {e : String × Value} (h : IsTermCondition e) : Decided e.2 := by
  obtain ⟨operator, v, hv, hmade⟩ := h.made
  exact decided_buildCondition (fun _ => hv) hmade

namespace Plan

/-- Ask for several conditions, one after the other. -/
def askAll (p : Plan) (conditions : List (String × Value)) : Outcome Plan :=
  conditions.foldlM (fun p e => p.ask e.1 e.2) p

variable {p : Plan} {conditions : List (String × Value)}

/-- **Several conditions more**: a clear plan takes them all, and selects the rows of before that
meet each of them. -/
theorem Clear.askAll (hp : p.Clear) (h : ∀ e ∈ conditions, IsTermCondition e) :
    ∃ q, p.askAll conditions = .ok q ∧ q.Clear ∧ q.joins = p.joins ∧ ∀ row, q.Selects row ↔
      p.Selects row ∧ ∀ e ∈ conditions, conditionHolds (resolve row e.1) e.2 = .ok true := by
  induction conditions generalizing p with
  | nil =>
    exact ⟨p, rfl, hp, rfl, fun row =>
      ⟨fun hrow => ⟨hrow, fun e he => absurd he List.not_mem_nil⟩, And.left⟩⟩
  | cons e rest ih =>
    have he := h e (List.mem_cons_self ..)
    obtain ⟨hclear, hselects⟩ := hp.addCondition (not_isCombinator_of_isOperator he.key) he.decided
    obtain ⟨q, hq, hqclear, hjoins, hqselects⟩ :=
      ih hclear fun e' he' => h e' (List.mem_cons_of_mem _ he')
    refine ⟨q, ?_, hqclear, hjoins.trans (joins_addCondition ..), fun row => ?_⟩
    · rw [Plan.askAll, List.foldlM_cons, hp.ask]
      exact hq
    · rw [hqselects, hselects, List.forall_mem_cons, and_assoc]

/-- **No condition is lost.** Whatever conditions of terms a plan is asked for, on whatever keys and
however often on each of them, it takes them all, and its query is asked of every document without
fail: it matches those that each of the conditions, as a query of its own, matches. So conditions in
another order match the same documents. -/
theorem askAll_matches (h : ∀ e ∈ conditions, IsTermCondition e) :
    ∃ p, empty.askAll conditions = .ok p ∧ p.joins = [] ∧
      (∀ document, ∃ b, matchesQuery document (.object p.query) = .ok b ∧
        (b = true ↔ ∀ e ∈ conditions, matchesQuery document (.object [e]) = .ok true)) ∧
      (∀ document, ∀ e ∈ conditions, ∃ b, matchesQuery document (.object [e]) = .ok b) ∧
      ∀ others : List (String × Value), others.Perm conditions →
        ∃ p', empty.askAll others = .ok p' ∧
        ∀ document, matchesQuery document (.object p'.query) =
          matchesQuery document (.object p.query) := by
  have hsingle : ∀ document, ∀ e ∈ conditions,
      matchesQuery document (.object [e]) = conditionHolds (resolve document e.1) e.2 :=
      fun document e he =>
    matchesQuery_single document (not_isCombinator_of_isOperator (h e he).key)
  obtain ⟨p, hp, hclear, hjoins, hselects⟩ := clear_empty.askAll h
  have hempty : ∀ row, empty.Selects row := fun row e he => absurd he List.not_mem_nil
  refine ⟨p, hp, hjoins, fun document => ?_, fun document e he => ?_, fun others hperm => ?_⟩
  · obtain ⟨b, hb, hiff⟩ := hclear.matchesQuery document
    refine ⟨b, hb, hiff.trans ((hselects document).trans ⟨fun hall e he => ?_, fun hall => ?_⟩)⟩
    · rw [hsingle document e he]
      exact hall.2 e he
    · exact ⟨hempty document, fun e he => (hsingle document e he).symm.trans (hall e he)⟩
  · rw [hsingle document e he]
    exact (h e he).decided _
  · obtain ⟨p', hp', hclear', hjoins', hselects'⟩ := clear_empty.askAll fun e he =>
      h e (hperm.mem_iff.1 he)
    have halike : p.Alike p' := ⟨hjoins'.trans hjoins.symm, hclear, hclear', fun row => by
      rw [hselects, hselects']
      exact and_congr_right fun _ => forall_congr' fun e => by rw [hperm.mem_iff]⟩
    refine ⟨p', hp', fun document => ?_⟩
    obtain ⟨b, hb, hiff⟩ := hclear.matchesQuery document
    obtain ⟨b', hb', hiff'⟩ := hclear'.matchesQuery document
    rw [hb, hb', Bool.eq_iff_iff.2 ((hiff'.trans (halike.selects document)).trans hiff.symm)]

end Plan

/-! ## Prices of tea -/

/-- Teas that cost from two to nine but not five: the price is asked for three times, and the name
in between. -/
def midPricedTeas : List (String × Value) :=
  [("price", .object [("$gte", .int 2)]), ("name", .text "Tea"),
    ("price", .object [("$lte", .int 9)]), ("price", .object [("$ne", .int 5)])]

/-- A tea and its price. -/
def teaFor (price : Int) : Document := [("name", .text "Tea"), ("price", .int price)]

/-- The conditions on prices are combined: a tea for seven meets them all, and a tea for five misses
the last. They match the same documents when they are given the other way round. -/
theorem midPricedTeas_combined : (∀ e ∈ midPricedTeas, IsTermCondition e) ∧
    ∃ p p', Plan.empty.askAll midPricedTeas = .ok p ∧
      Plan.empty.askAll midPricedTeas.reverse = .ok p' ∧
      matchesQuery (teaFor 7) (.object p.query) = .ok true ∧ matchesQuery (teaFor 5)
      (.object p.query) = .ok false ∧
      ∀ document, matchesQuery document (.object p'.query) =
        matchesQuery document (.object p.query) := by
  have hconditions : ∀ e ∈ midPricedTeas, IsTermCondition e := by
    intro e he
    simp only [midPricedTeas, List.mem_cons, List.not_mem_nil, or_false] at he
    rcases he with rfl | rfl | rfl | rfl
    · exact ⟨rfl, some .gte, .int 2, rfl, rfl⟩
    · exact ⟨rfl, none, .text "Tea", rfl, rfl⟩
    · exact ⟨rfl, some .lte, .int 9, rfl, rfl⟩
    · exact ⟨rfl, some .ne, .int 5, rfl, rfl⟩
  obtain ⟨p, hp, -, hmatches, -, hperm⟩ := Plan.askAll_matches hconditions
  obtain ⟨p', hp', hsame⟩ := hperm _ (List.reverse_perm midPricedTeas)
  refine ⟨hconditions, p, p', hp, hp', ?_, ?_, hsame⟩
  · obtain ⟨b, hb, hiff⟩ := hmatches (teaFor 7)
    rw [hb, hiff.2 fun e he => ?_]
    simp only [midPricedTeas, List.mem_cons, List.not_mem_nil, or_false] at he
    rcases he with rfl | rfl | rfl | rfl <;> cbv
  · obtain ⟨b, hb, hiff⟩ := hmatches (teaFor 5)
    have hmissed : matchesQuery (teaFor 5) (.object [("price", .object [("$ne", .int 5)])]) =
      .ok false := by cbv
    have hfails : b = false := Bool.eq_false_iff.2 fun hall => by
      have hmet := hiff.1 hall ("price", .object [("$ne", .int 5)]) (by simp [midPricedTeas])
      cases hmissed.symm.trans hmet
    rw [hb, hfails]

end EntityGraph

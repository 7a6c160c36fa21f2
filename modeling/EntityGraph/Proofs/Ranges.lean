import EntityGraph.Proofs.Scoping

/-!
# Ranges

A term that asks for values between two bounds is compiled to one condition with two operators. Two
terms, one for each bound, are compiled to two conditions at the same place, of which the second is
combined with the query by way of `$and`. Both select the same rows (`conditionHolds_range`): also
the range asks for each bound on its own, so that one value may meet the first and another one the
second.

Other filters and terms may stand before, between and behind. So plans are compared as a whole:
**alike** plans have the same joins and select the same rows (`Plan.Alike`), every further term
keeps them alike (`Spot.alike_ask`), and they cannot be told apart by running them
(`Plan.Alike.runStages`).
-/

namespace EntityGraph

/-! ## Conditions that can be asked of anything -/

/-- **A decided condition** holds of any values, or does not; asking it never fails. -/
def Decided (c : Value) : Prop := ∀ values, ∃ b, conditionHolds values c = .ok b

theorem decided_of_value {w : Value} (h : isOperatorObject w = false) : Decided w :=
  fun values => ⟨_, conditionHolds_of_value h values⟩

theorem decided_of_operator {operator : String} {operand : Value}
    (hname : isOperator operator = true)
    (h : ∀ candidates, ∃ b, operatorHolds candidates operator operand = .ok b) :
    Decided (.object [(operator, operand)]) :=
  fun values => (h (flatten values)).imp fun _ hb =>
    (conditionHolds_of_operator hname operand values).trans hb

/-- An operator that compares. -/
theorem operatorHolds_comparison {operator : String} (h : isComparison operator = true)
    (candidates : List Value) (operand : Value) : operatorHolds candidates operator operand =
      .ok (candidates.any fun c => !c.isNull && (comparison? operator c operand).getD false) := by
  have hcases : operator = "$lt" ∨ operator = "$lte" ∨ operator = "$gt" ∨ operator = "$gte" := by
    simpa [isComparison] using h
  rcases hcases with rfl | rfl | rfl | rfl <;> rfl

theorem decided_comparison {operator : String} (h : isComparison operator = true)
    (operand : Value) :
    Decided (.object [(operator, operand)]) := by
  have hname : isOperator operator = true := by
    have hcases : operator = "$lt" ∨ operator = "$lte" ∨ operator = "$gt" ∨ operator = "$gte" := by
      simpa [isComparison] using h
    rcases hcases with rfl | rfl | rfl | rfl <;> rfl
  exact decided_of_operator hname fun candidates =>
    ⟨_, operatorHolds_comparison h candidates operand⟩

/-- **A range asks for its bounds one after the other.** -/
theorem conditionHolds_range (low high : Value) (values : List Value) :
    conditionHolds values (.object [("$gte", low), ("$lte", high)]) =
      (do
        if ← conditionHolds values (.object [("$gte", low)])
        then conditionHolds values (.object [("$lte", high)])
        else pure false) := by
  have hoperators : isOperatorObject (.object [("$gte", low), ("$lte", high)]) = true := by
    simp [isOperatorObject, isOperator]
  rw [@conditionHolds_of_operator "$gte" rfl, @conditionHolds_of_operator "$lte" rfl,
    conditionHolds_of_operators hoperators, operatorsHold, operatorsHold]
  rcases operatorHolds (flatten values) "$gte" low with e | _ | _
  · rfl
  · rfl
  · rcases operatorHolds (flatten values) "$lte" high with e | _ | _ <;> rfl

theorem decided_range (low high : Value) : Decided (.object [("$gte", low), ("$lte", high)]) := by
  intro values
  rw [conditionHolds_range]
  obtain ⟨b, hb⟩ := @decided_comparison "$gte" rfl low values
  rw [hb]
  cases b with
  | false => exact ⟨false, rfl⟩
  | true => exact @decided_comparison "$lte" rfl high values

/-- **Conditions that are made of an operator and a value** are decided, unless an equality is asked
of operators. -/
theorem decided_buildCondition {o : Option Operator} {v c : Value}
    (hv : o = none ∨ o = some .eq → isOperatorObject v = false) (h : buildCondition o v = .ok c) :
    Decided c := by
  rcases o with _ | o
  · cases h
    exact decided_of_value (hv (.inl rfl))
  cases o with
  | eq =>
    cases h
    exact decided_of_value (hv (.inr rfl))
  | ne =>
    cases h
    exact decided_of_operator rfl fun candidates => ⟨_, rfl⟩
  | lt | gt | lte | gte =>
    cases h
    exact decided_comparison rfl _
  | btw =>
    obtain ⟨⟨low, high⟩, -, h⟩ := bind_eq_ok h
    cases h
    exact decided_range low high
  | oneOf =>
    obtain ⟨items, -, h⟩ := bind_eq_ok h
    cases h
    refine decided_of_operator rfl fun candidates => ?_
    rw [operatorHolds.eq_def, if_neg (by decide), if_neg (by decide), if_pos rfl, anyIn_list,
      operandHas]
    cases candidates.any fun c => c.isIn items <;> cases Value.null.isIn items <;> exact ⟨_, rfl⟩
  | noneOf =>
    obtain ⟨items, -, h⟩ := bind_eq_ok h
    cases h
    refine decided_of_operator rfl fun candidates => ?_
    rw [operatorHolds.eq_def, if_neg (by decide), if_neg (by decide), if_neg (by decide),
      if_pos rfl, anyIn_list]
    exact ⟨_, rfl⟩
  | like =>
    cases h
    exact decided_of_operator rfl fun candidates => ⟨_, rfl⟩

/-- **Conditions of terms are decided**, unless a term of equality holds operators. -/
theorem decided_termCondition {f : FieldDef} {key : String} {t : FilterTerm} {c : Value}
    (ht : t.IsEquality → isOperatorObject t.value = false) (h : termCondition f key t = .ok c) :
    Decided c := by
  obtain ⟨v, hv, h⟩ := bind_eq_ok h
  exact decided_buildCondition (fun ho => (coerceTerm_value hv).2 (ht ho)) h

/-- **The conditions of a range and of its bounds**: either all are refused, at the bound that
cannot be read, or the range has the operators of both. -/
theorem termCondition_range (f : FieldDef) (key : String) (a b : Value) :
    (∃ e, termCondition f key ⟨some .btw, .list [a, b]⟩ = .error e ∧
      (termCondition f key ⟨some .gte, a⟩ = .error e ∨
        ∃ c, termCondition f key ⟨some .gte, a⟩ = .ok c ∧
          termCondition f key ⟨some .lte, b⟩ = .error e)) ∨
    ∃ low high, termCondition f key ⟨some .btw, .list [a, b]⟩ =
      .ok (.object [("$gte", low), ("$lte", high)]) ∧
      termCondition f key ⟨some .gte, a⟩ = .ok (.object [("$gte", low)]) ∧
      termCondition f key ⟨some .lte, b⟩ = .ok (.object [("$lte", high)]) := by
  simp only [termCondition, coerceTerm, comparesIds]
  cases f.momentType? with
  | none => exact .inr ⟨a, b, rfl, rfl, rfl⟩
  | some type =>
    dsimp only
    rw [coerceMoment, coerceMoments, coerceMoments, coerceMoments]
    rcases coerceMoment type.name a with e | low
    · exact .inl ⟨e, rfl, .inl rfl⟩
    rcases coerceMoment type.name b with e | high
    · exact .inl ⟨e, rfl, .inr ⟨_, rfl, rfl⟩⟩
    · exact .inr ⟨low, high, rfl, rfl, rfl⟩

/-! ## Plans that select alike -/

namespace Plan

/-- **A clear plan**: its conditions can be read off the query, and asked of anything. -/
structure Clear (p : Plan) : Prop where
  planned : ∀ e ∈ p.query, IsPlanned e
  decided : ∀ e ∈ conditionsOf p.query, Decided e.2

/-- A plan **selects** a row when all its conditions hold of it. -/
def Selects (p : Plan) (row : Document) : Prop :=
  ∀ e ∈ conditionsOf p.query, conditionHolds (resolve row e.1) e.2 = .ok true

variable {p p' : Plan} {key : String} {c : Value}

theorem clear_empty : empty.Clear :=
    ⟨fun _ h => absurd h List.not_mem_nil, fun _ h => absurd h List.not_mem_nil⟩

/-- A clear query tells of any row whether it is selected. -/
theorem Clear.matchesQuery (hp : p.Clear) (row : Document) :
    ∃ b, EntityGraph.matchesQuery row (.object p.query) = .ok b ∧ (b = true ↔ p.Selects row) := by
  rw [EntityGraph.matchesQuery, matchesAll_eq row hp.planned]
  rcases allHold_cases row (conditionsOf p.query) with ⟨h, hall⟩ | ⟨h, e, he, hfalse⟩ |
    ⟨f, -, e, he, herror⟩
  · exact ⟨true, h, fun _ => hall, fun _ => rfl⟩
  · refine ⟨false, h, ⟨fun hb => absurd hb Bool.false_ne_true, fun hall => ?_⟩⟩
    cases (hall e he).symm.trans hfalse
  · obtain ⟨b, hb⟩ := hp.decided e he (resolve row e.1)
    cases hb.symm.trans herror

/-- Of a clear plan anything can be asked in addition. -/
theorem Clear.ask (hp : p.Clear) (key : String) (c : Value) :
    p.ask key c = .ok (p.addCondition key c) := by
  have hcombines : p.combines = true := by
    unfold combines
    cases hget : Record.get? p.query "$and" with
    | none => rfl
    | some v =>
      rcases hp.planned _ (Record.mem_of_get?_eq_some hget) with h | ⟨-, ks, hks, -⟩
      · exact absurd (.inl rfl) h
      · obtain rfl : v = _ := hks
        rfl
  unfold Plan.ask
  rw [hcombines, Bool.not_true, Bool.and_false]
  rfl

theorem Clear.addCondition (hp : p.Clear) (hkey : ¬ IsCombinator key) (hc : Decided c) :
    (p.addCondition key c).Clear ∧ ∀ row, (p.addCondition key c).Selects row ↔
      p.Selects row ∧ conditionHolds (resolve row key) c = .ok true := by
  obtain ⟨hplanned, hmem⟩ := planned_addCondition hp.planned hkey c
  refine ⟨⟨hplanned, fun e he => ?_⟩, fun row => ⟨fun h => ⟨fun e he => ?_, ?_⟩, fun h e he => ?_⟩⟩
  · rcases (hmem e).1 he with he | rfl
    · exact hp.decided e he
    · exact hc
  · exact h e ((hmem e).2 (.inl he))
  · exact h (key, c) ((hmem _).2 (.inr rfl))
  · rcases (hmem e).1 he with he | rfl
    · exact h.1 e he
    · exact h.2

/-- **Plans alike** have the same joins and select the same rows. -/
structure Alike (p p' : Plan) : Prop where
  joins : p'.joins = p.joins
  clear : p.Clear
  clear' : p'.Clear
  selects : ∀ row, p'.Selects row ↔ p.Selects row

theorem Clear.alike (hp : p.Clear) : p.Alike p := ⟨rfl, hp, hp, fun _ => .rfl⟩

/-- One condition more keeps plans alike. -/
theorem Alike.addCondition (h : p.Alike p') (hkey : ¬ IsCombinator key) (hc : Decided c) :
    (p.addCondition key c).Alike (p'.addCondition key c) := by
  obtain ⟨hclear, hselects⟩ := h.clear.addCondition hkey hc
  obtain ⟨hclear', hselects'⟩ := h.clear'.addCondition hkey hc
  refine ⟨?_, hclear, hclear', fun row => ?_⟩
  · rw [joins_addCondition, joins_addCondition, h.joins]
  · rw [hselects, hselects', h.selects]

/-- One join more keeps plans alike. -/
theorem Alike.join (h : p.Alike p') (j : Join) : (p.join j).Alike (p'.join j) := by
  have hquery := p.query_join j
  have hquery' := p'.query_join j
  refine ⟨?_, ⟨?_, ?_⟩, ⟨?_, ?_⟩, fun row => ?_⟩
  · unfold Plan.join
    rw [h.joins]
    split <;> simp only [h.joins]
  · rw [hquery]
    exact h.clear.planned
  · rw [hquery]
    exact h.clear.decided
  · rw [hquery']
    exact h.clear'.planned
  · rw [hquery']
    exact h.clear'.decided
  · unfold Selects
    rw [hquery, hquery']
    exact h.selects row

/-- **Plans alike cannot be told apart** by what they match. -/
theorem Alike.matching (h : p.Alike p') (docs : List Document) :
    EntityGraph.matching (.object p'.query) docs = EntityGraph.matching (.object p.query) docs := by
  induction docs with
  | nil => rfl
  | cons d rest ih =>
    obtain ⟨b, hb, hiff⟩ := h.clear.matchesQuery d
    obtain ⟨b', hb', hiff'⟩ := h.clear'.matchesQuery d
    have hsame : b' = b := Bool.eq_iff_iff.2 ((hiff'.trans (h.selects d)).trans hiff.symm)
    rw [EntityGraph.matching, EntityGraph.matching, ih, hb, hb', hsame]

/-- Running a plan joins, and then keeps what the query matches. -/
theorem runStages_stages (view : Collections) (p : Plan) (rest : List Value)
    (docs : List Document) :
    EntityGraph.runStages view (p.stages.map Stage.toValue ++ rest) docs =
      (do
        let joined ← EntityGraph.runStages view
          ((p.joins.flatMap Join.stages).map Stage.toValue) docs
        let kept ← EntityGraph.matching (.object p.query) joined
        EntityGraph.runStages view rest kept) := by
  have hstages : p.stages = p.joins.flatMap Join.stages ++
    (if p.query.isEmpty then [] else [.select p.query]) := rfl
  rw [hstages, List.map_append, List.append_assoc, runStages_append]
  refine bind_congr fun joined => ?_
  split
  · rename_i hquery
    rw [List.isEmpty_iff.1 hquery, matching_nil]
    rfl
  · rfl

/-- **Plans alike cannot be told apart** by running them. -/
theorem Alike.runStages (h : p.Alike p') (view : Collections) (rest : List Value)
    (docs : List Document) :
    EntityGraph.runStages view (p'.stages.map Stage.toValue ++ rest) docs =
      EntityGraph.runStages view (p.stages.map Stage.toValue ++ rest) docs := by
  simp only [runStages_stages, h.joins, h.matching]

end Plan

/-! ## Further terms -/

section Compiling

variable {r : Registry} {p p' : Plan} {f : FieldDef}

theorem Plan.Alike.joined (h : p.Alike p') (s : Spot) : (s.joined p).Alike (s.joined p') := by
  unfold Spot.joined
  induction s.joins generalizing p p' with
  | nil => exact h
  | cons j rest ih => exact ih (h.join j)

/-- **A term more keeps plans alike**, or is refused by both. -/
theorem Spot.alike_ask (h : p.Alike p') {s : Spot} (hkey : ¬ IsCombinator s.key) {t : FilterTerm}
    (ht : t.IsEquality → isOperatorObject t.value = false) :
    Outcome.Both Plan.Alike (s.ask t p) (s.ask t p') := by
  have hjoined := h.joined s
  unfold ask
  rcases hc : termCondition s.field s.leaf t with e | c
  · exact .error e
  change Outcome.Both _ ((s.joined p).ask s.key c) ((s.joined p').ask s.key c)
  rw [hjoined.clear.ask, hjoined.clear'.ask]
  exact .ok (hjoined.addCondition hkey (decided_termCondition ht hc))

/-- The joins of a spot are made once. -/
theorem Spot.joined_of_joins {s : Spot} {q : Plan} (hq : q.joins = (s.joined p).joins) :
    s.joined q = q := by
  refine Plan.foldl_join_eq_self fun j hj => ?_
  rw [Plan.labels, hq]
  exact (Plan.mem_labels_foldl_join s.joins).2 (.inr (List.mem_map_of_mem hj))

/-- **Asking for a range, or for one bound and then the other**, keeps plans alike, or is refused
alike. -/
theorem Spot.alike_range (h : p.Alike p') {s : Spot} (hkey : ¬ IsCombinator s.key) (a b : Value) :
    Outcome.Both Plan.Alike (s.ask ⟨some .btw, .list [a, b]⟩ p)
      (do
        let q ← s.ask ⟨some .gte, a⟩ p'
        s.ask ⟨some .lte, b⟩ q) := by
  have hjoined := h.joined s
  unfold ask
  rcases termCondition_range s.field s.leaf a b with
    ⟨e, hrange, hlow | ⟨c, hlow, hhigh⟩⟩ | ⟨low, high, hrange, hlow, hhigh⟩
  · rw [hrange, hlow]
    exact .error e
  · rw [hrange, hlow, hhigh]
    change Outcome.Both _ (.error e) ((s.joined p').ask s.key c >>= fun _ => .error e)
    rw [hjoined.clear'.ask]
    exact .error e
  · rw [hrange, hlow, hhigh]
    change Outcome.Both _ ((s.joined p).ask s.key _)
      ((s.joined p').ask s.key (.object [("$gte", low)]) >>= fun q =>
      (s.joined q).ask s.key (.object [("$lte", high)]))
    rw [hjoined.clear.ask, hjoined.clear'.ask]
    have hboth := hjoined.clear.addCondition hkey (decided_range low high)
    have hfrom := hjoined.clear'.addCondition hkey (@decided_comparison "$gte" rfl low)
    have hto := hfrom.1.addCondition hkey (@decided_comparison "$lte" rfl high)
    have hsame : s.joined ((s.joined p').addCondition s.key (.object [("$gte", low)])) =
        (s.joined p').addCondition s.key (.object [("$gte", low)]) :=
        joined_of_joins (Plan.joins_addCondition ..)
    change Outcome.Both _ (.ok _) ((s.joined ((s.joined p').addCondition s.key _)).ask s.key _)
    rw [hsame, hfrom.1.ask]
    refine .ok ⟨?_, hboth.1, hto.1, fun row => ?_⟩
    · simp only [Plan.joins_addCondition, hjoined.joins]
    · rw [hto.2, hfrom.2, hboth.2, hjoined.selects, conditionHolds_range, and_assoc]
      refine and_congr_right fun _ => ?_
      obtain ⟨x, hx⟩ := @decided_comparison "$gte" rfl low (resolve row s.key)
      rw [hx]
      cases x with
      | false => exact ⟨fun hand => (nomatch hand.1), fun hrange => (nomatch hrange)⟩
      | true => exact ⟨And.right, fun hhigh => ⟨rfl, hhigh⟩⟩

/-- **A plain term**: when it asks for equality, then not with operators in its value. -/
def FilterTerm.IsPlain (t : FilterTerm) : Prop := t.IsEquality → isOperatorObject t.value = false

/-- **A plain filter** of a name: its terms are plain, and a term on the field itself does not stand
under the name of a combination of queries. -/
def Filter.IsPlain (name : String) : Filter → Prop
  | .term t => ¬ IsCombinator name ∧ t.IsPlain
  | .expression terms => ∀ t ∈ terms, t.toFilterTerm.IsPlain

theorem alike_planTerm (h : p.Alike p') {t : PathTerm} (ht : t.toFilterTerm.IsPlain) :
    Outcome.Both Plan.Alike (planTerm r f p t) (planTerm r f p' t) := by
  rw [planTerm_eq_spot, planTerm_eq_spot]
  rcases hs : Spot.ofPath r f t.path with e | s
  · exact .error e
  · exact Spot.alike_ask h (Spot.not_isCombinator_of_ofPath hs) ht

/-- The terms of a range and of its bounds find the same spot. -/
theorem alike_planTerm_range (h : p.Alike p') (path : String) (a b : Value) :
    Outcome.Both Plan.Alike (planTerm r f p ⟨⟨some .btw, .list [a, b]⟩, path⟩)
      (do
        let q ← planTerm r f p' ⟨⟨some .gte, a⟩, path⟩
        planTerm r f q ⟨⟨some .lte, b⟩, path⟩) := by
  simp only [planTerm_eq_spot]
  rcases hs : Spot.ofPath r f path with e | s
  · exact .error e
  · exact Spot.alike_range h (Spot.not_isCombinator_of_ofPath hs) a b

theorem alike_foldlM_planTerm (h : p.Alike p') {terms : List PathTerm}
    (hterms : ∀ t ∈ terms, t.toFilterTerm.IsPlain) :
    Outcome.Both Plan.Alike (terms.foldlM (planTerm r f) p) (terms.foldlM (planTerm r f) p') := by
  induction terms generalizing p p' with
  | nil => exact .ok h
  | cons t rest ih =>
    rw [List.foldlM_cons, List.foldlM_cons]
    exact (alike_planTerm h (hterms t (List.mem_cons_self ..))).bind fun q q' hq =>
      ih hq fun u hu => hterms u (List.mem_cons_of_mem _ hu)

theorem alike_planFilter (h : p.Alike p') {filter : Filter} (hfilter : filter.IsPlain f.name) :
    Outcome.Both Plan.Alike (planFilter r f filter p) (planFilter r f filter p') := by
  cases filter with
  | term t =>
    rw [planFilter_term, planFilter_term]
    rcases hs : Spot.find r f none with e | s
    · exact .error e
    · exact Spot.alike_ask h (Spot.not_isCombinator_key hs fun _ => hfilter.1) hfilter.2
  | expression terms =>
    unfold planFilter
    refine .after fun kind => ?_
    split
    · exact alike_foldlM_planTerm h hfilter
    · exact .error _

theorem alike_planFilters {e : Entity} (h : p.Alike p') {filters : List (String × Filter)}
    (hfilters : ∀ entry ∈ filters, entry.2.IsPlain entry.1) :
    Outcome.Both Plan.Alike (planFilters r e filters p) (planFilters r e filters p') := by
  induction filters generalizing p p' with
  | nil => exact .ok h
  | cons entry rest ih =>
    obtain ⟨name, filter⟩ := entry
    rw [planFilters, planFilters]
    cases hf : e.field? name with
    | none => exact .error _
    | some f =>
      have hname : f.name = name := by simpa using List.find?_some hf
      have hplain := hfilters _ (List.mem_cons_self ..)
      exact (alike_planFilter h (hname.symm ▸ hplain)).bind fun q q' hq =>
        ih hq fun entry hentry => hfilters entry (List.mem_cons_of_mem _ hentry)

/-! ## One range among other terms -/

/-- Terms one after the other. -/
theorem planFilters_append {e : Entity} (xs ys : List (String × Filter)) (p : Plan) :
    planFilters r e (xs ++ ys) p = planFilters r e xs p >>= planFilters r e ys := by
  induction xs generalizing p with
  | nil => rfl
  | cons entry rest ih =>
    obtain ⟨name, filter⟩ := entry
    rw [List.cons_append, planFilters, planFilters]
    cases e.field? name with
    | none => rfl
    | some f =>
      dsimp only
      rw [bind_assoc]
      exact bind_congr fun q => ih q

/-- **List arguments with a range**, among whatever other terms, filters, order and page, and with
the two bounds in its place. -/
inductive ListArguments.Splits : ListArguments → ListArguments → Prop where
  | mk (before after : Record Filter) (name path : String) (xs ys : List PathTerm) (a b : Value)
      (sort : Option (List SortTerm)) (pagination : Option Pagination) :
      Splits
        ⟨before ++ (name, .expression (xs ++ ⟨⟨some .btw, .list [a, b]⟩, path⟩ :: ys)) ::
        after, sort, pagination⟩ ⟨before ++
        (name, .expression (xs ++ ⟨⟨some .gte, a⟩, path⟩ :: ⟨⟨some .lte, b⟩, path⟩ :: ys)) :: after,
          sort, pagination⟩

/-- **A range and its bounds are compiled alike**, whatever stands around them. -/
theorem ListArguments.Splits.planFilters {args args' : ListArguments} (h : args.Splits args')
    (e : Entity) (hplain : ∀ entry ∈ args.filters, entry.2.IsPlain entry.1) :
    Outcome.Both Plan.Alike (EntityGraph.planFilters r e args.filters .empty)
      (EntityGraph.planFilters r e args'.filters .empty) := by
  obtain ⟨before, after, name, path, xs, ys, a, b, sort, pagination⟩ := h
  dsimp only at hplain ⊢
  rw [planFilters_append, planFilters_append]
  have hbefore : ∀ entry ∈ before, entry.2.IsPlain entry.1 := fun entry hentry =>
    hplain entry (List.mem_append_left _ hentry)
  have hafter : ∀ entry ∈ after, entry.2.IsPlain entry.1 := fun entry hentry =>
    hplain entry (List.mem_append_right _ (List.mem_cons_of_mem _ hentry))
  have hterms : ∀ t ∈ xs ++ ⟨⟨some .btw, .list [a, b]⟩, path⟩ :: ys, t.toFilterTerm.IsPlain :=
    hplain (name, _) (List.mem_append_right _ (List.mem_cons_self ..))
  refine (alike_planFilters Plan.clear_empty.alike hbefore).bind fun p p' h => ?_
  rw [EntityGraph.planFilters, EntityGraph.planFilters]
  cases e.field? name with
  | none => exact .error _
  | some f =>
    refine Outcome.Both.bind (Q := Plan.Alike) ?_ fun q q' hq => alike_planFilters hq hafter
    unfold planFilter
    refine .after fun kind => ?_
    split
    · dsimp only
      rw [List.foldlM_append, List.foldlM_append]
      refine (alike_foldlM_planTerm h fun t ht => hterms t (List.mem_append_left _ ht)).bind
        fun q q' hq => ?_
      have hys : ∀ t ∈ ys, t.toFilterTerm.IsPlain := fun t ht =>
        hterms t (List.mem_append_right _ (List.mem_cons_of_mem _ ht))
      simp only [List.foldlM_cons]
      rw [← bind_assoc]
      exact (alike_planTerm_range hq path a b).bind fun _ _ hrange =>
        alike_foldlM_planTerm hrange hys
    · exact .error _

end Compiling

end EntityGraph

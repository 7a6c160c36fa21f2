import EntityGraph.Proofs.FilterMeaning

/-!
# Filters become plans

Compiling filters collects the joins and the conditions of their clauses, in order
(`planFilters_eq`). A join stands for a hop, under the label of its path (`Hop.join`), and a
condition is asked of the row in which the joined documents stand under their labels (`rowPath`).
-/

namespace EntityGraph

/-! ## Plans from clauses -/

/-- Where a row keeps what a path addresses after the hop of another path. -/
def rowPath (hop path : List String) : List String :=
  if hop = [] then path else labelOf hop :: path

/-- Names at the end of a path stand at the end of the path in the row. -/
theorem rowPath_append (hop path more : List String) :
    rowPath hop (path ++ more) = rowPath hop path ++ more := by
  unfold rowPath
  split
  · rfl
  · rw [List.cons_append]

/-- The join that a hop becomes. -/
def Hop.join (h : Hop) : Join :=
  ⟨h.collection, h.foreignField, dotted (rowPath h.source h.inside ++ [h.localField]),
    labelOf h.path⟩

/-- The label of a path, put together from the label of the hop before. -/
theorem labelOf_rowPath (hop inside : List String) (name : String) :
    Text.join "_" (rowPath hop inside ++ [name]) = labelOf (hop ++ inside ++ [name]) := by
  unfold rowPath labelOf
  split
  · rename_i h
    rw [h, List.nil_append]
  · rename_i h
    rw [List.cons_append, Text.join_join h, List.append_assoc]

namespace Plan

/-- Add the joins and the condition of a clause. -/
def addClause (p : Plan) (c : Clause) : Plan :=
  (c.hops.foldl (fun p h => p.join h.join) p).addCondition
    (dotted (rowPath c.hop c.path)) c.condition

/-- A condition that can be asked for is added. -/
theorem ask_eq {p p' : Plan} {key : String} {condition : Value} (h : p.ask key condition = .ok p') :
    p' = p.addCondition key condition := by
  unfold ask at h
  split at h
  · cases h
  · exact (Except.ok.inj h).symm

end Plan

/-! ## Compiling -/

section Compiling

variable {r : Registry}

/-- Who is required is registered under the name of the target. -/
theorem require_eq {target : Option String} {referrer : String} {d : Descriptor}
    (h : r.require target referrer = .ok d) : target.bind (Record.get? r.descriptors) = some d := by
  unfold Registry.require at h
  split at h
  · cases h
  · split at h
    · rename_i hd
      split at h
      · cases h
      · cases h
        exact hd
    · cases h

theorem kind?_eq {f : FieldDef} {kind : FieldKind} (h : f.kind = .ok kind) :
    f.kind? = some kind := by
  rw [FieldDef.kind?, h]
  rfl

/-- A referenced relation is joined by the join of its hop. -/
theorem relationJoin_eq {f : FieldDef} {hop inside : List String} {name : String} {j : Join}
    (h : relationJoin r f (rowPath hop inside) (labelOf (hop ++ inside ++ [name])) = .ok j) :
    ∃ target, Clause.target? r f = some target ∧
      j = (Hop.ofField f target.collection hop inside name).join := by
  unfold relationJoin at h
  rcases ht : r.require f.target f.name with e | target
  · rw [ht] at h
    cases h
  · rw [ht] at h
    refine ⟨target, require_eq ht, ?_⟩
    unfold Hop.ofField
    change (if f.many then _ else _ : Outcome Join) = .ok j at h
    split at h
    · rename_i hmany
      cases h
      rw [if_pos hmany]
      rfl
    · rename_i hmany
      cases h
      rw [if_neg hmany]
      rfl

/-- **Following a path** adds the clause of the term. After a hop the path starts again, at the
label of the join. -/
theorem followPath_eq {root : FieldDef} {term : PathTerm} {names : List String} {current : Entity}
    {label : String} {embedded hop inside : List String} {p p' : Plan} (hnames : names ≠ [])
    (hrow : label :: embedded = rowPath hop inside)
    (h : followPath r root term current label embedded names p = .ok p') :
    ∃ c, Clause.follow? r term.toFilterTerm current hop inside names = some c ∧
      p' = p.addClause c := by
  induction names generalizing current label embedded hop inside p with
  | nil => exact absurd rfl hnames
  | cons name rest ih =>
    rw [followPath] at h
    rw [Clause.follow?]
    rcases hf : current.field? name with _ | f
    · rw [hf] at h
      cases h
    rw [hf] at h
    dsimp only at h
    obtain ⟨kind, hk, h⟩ := bind_eq_ok h
    simp only [kind?_eq hk, Option.bind_eq_bind, Option.bind_some]
    rcases hobj : kind.isObject with _ | _
    · simp only [hobj, Bool.not_false, if_true, Bool.false_eq_true, if_false] at h ⊢
      rcases hrest : rest.isEmpty with _ | _
      · rw [hrest] at h
        cases h
      · rw [hrest] at h
        obtain ⟨condition, hc, h⟩ := bind_eq_ok h
        obtain rfl := Plan.ask_eq h
        have hc' : (termCondition f (Clause.leafKey f name) term.toFilterTerm).toOption =
            some condition := by
          rw [Clause.leafKey, hc]
          rfl
        refine ⟨⟨[], hop, inside ++ [Clause.leafKey f name], condition⟩, ?_, ?_⟩
        · simp only [if_true, hc', Option.bind_some]
        · rw [hrow, ← rowPath_append]
          rfl
    · simp only [hobj, Bool.not_true, Bool.false_eq_true, if_false, if_true] at h ⊢
      have hne : rest ≠ [] := by
        rintro rfl
        cases h
      rw [if_neg (by simpa using hne)] at h
      split at h
      · rename_i hemb
        obtain ⟨target, ht, h⟩ := bind_eq_ok h
        have ht' : Clause.target? r f = some target := require_eq ht
        simp only [ht', Option.bind_some, hemb, if_true]
        refine ih hne ?_ h
        rw [rowPath_append, ← hrow, List.cons_append]
      · rename_i hemb
        obtain ⟨j, hj, h⟩ := bind_eq_ok h
        obtain ⟨target, ht, h⟩ := bind_eq_ok h
        have ht' : Clause.target? r f = some target := require_eq ht
        rw [hrow, labelOf_rowPath] at hj
        obtain ⟨target', ht'', rfl⟩ := relationJoin_eq hj
        obtain rfl : target' = target := Option.some.inj (ht''.symm.trans ht')
        have hnext : [Text.join "_" (label :: embedded ++ [name])] =
            rowPath (Hop.ofField f target'.collection hop inside name).path [] := by
          rw [hrow, labelOf_rowPath, Hop.path_ofField, rowPath, if_neg (by simp)]
        obtain ⟨c, hc, rfl⟩ := ih hne hnext h
        refine ⟨c.after (Hop.ofField f target'.collection hop inside name), ?_, rfl⟩
        simp only [ht', Option.bind_some, hemb, Bool.false_eq_true, if_false, hc]

theorem segments_ne_nil (path : String) : Text.segments path ≠ [] := by
  rw [Text.segments, Text.split]
  exact List.cons_ne_nil _ _

/-- **Planning a term** adds its clause. -/
theorem planTerm_eq {root : FieldDef} {term : PathTerm} {p p' : Plan}
    (h : planTerm r root p term = .ok p') :
    ∃ c, Clause.ofPathTerm? r root term = some c ∧ p' = p.addClause c := by
  unfold planTerm at h
  rw [Clause.ofPathTerm?]
  rcases hemb : root.isEmbedded with _ | _
  · simp only [hemb, Bool.false_eq_true, if_false] at h ⊢
    obtain ⟨j, hj, h⟩ := bind_eq_ok h
    rw [pure_bind] at h
    obtain ⟨target, ht, h⟩ := bind_eq_ok h
    have ht' : Clause.target? r root = some target := require_eq ht
    have hj' : relationJoin r root (rowPath [] []) (labelOf ([] ++ [] ++ [root.name])) = .ok j := hj
    obtain ⟨target', ht'', rfl⟩ := relationJoin_eq hj'
    obtain rfl : target' = target := Option.some.inj (ht''.symm.trans ht')
    have hrow : [root.name] =
        rowPath (Hop.ofField root target'.collection [] [] root.name).path [] := by
      rw [Hop.path_ofField]
      rfl
    obtain ⟨c, hc, rfl⟩ := followPath_eq (segments_ne_nil _) hrow h
    refine ⟨c.after (Hop.ofField root target'.collection [] [] root.name), ?_, rfl⟩
    simp only [ht', Option.bind_eq_bind, Option.bind_some, hc]
  · simp only [hemb, if_true] at h ⊢
    rw [pure_bind] at h
    obtain ⟨target, ht, h⟩ := bind_eq_ok h
    have ht' : Clause.target? r root = some target := require_eq ht
    have hrow : [root.name] = rowPath [] [root.name] := rfl
    obtain ⟨c, hc, rfl⟩ := followPath_eq (segments_ne_nil _) hrow h
    refine ⟨c, ?_, rfl⟩
    simp only [ht', Option.bind_eq_bind, Option.bind_some, hc]

/-- Planning terms adds their clauses, in order. -/
theorem foldlM_planTerm_eq {root : FieldDef} {terms : List PathTerm} {p p' : Plan}
    (h : terms.foldlM (planTerm r root) p = .ok p') :
    ∃ cs, terms.mapM (Clause.ofPathTerm? r root) = some cs ∧ p' = cs.foldl Plan.addClause p := by
  induction terms generalizing p with
  | nil =>
    cases h
    exact ⟨[], rfl, rfl⟩
  | cons t rest ih =>
    rw [List.foldlM_cons] at h
    obtain ⟨p₁, hp₁, h⟩ := bind_eq_ok h
    obtain ⟨c, hc, rfl⟩ := planTerm_eq hp₁
    obtain ⟨cs, hcs, rfl⟩ := ih h
    refine ⟨c :: cs, ?_, rfl⟩
    rw [List.mapM_cons, hc, hcs]
    rfl

/-- Planning a filter adds its clauses. -/
theorem planFilter_eq {f : FieldDef} {filter : Filter} {p p' : Plan}
    (h : planFilter r f filter p = .ok p') :
    ∃ cs, Clause.ofFilter? r f filter = some cs ∧ p' = cs.foldl Plan.addClause p := by
  unfold planFilter at h
  obtain ⟨kind, -, h⟩ := bind_eq_ok h
  split at h
  · cases filter with
    | term t => cases h
    | expression terms => exact foldlM_planTerm_eq h
  · cases filter with
    | expression terms => cases h
    | term t =>
      obtain ⟨condition, hc, h⟩ := bind_eq_ok h
      obtain rfl := Plan.ask_eq h
      have hc' : (termCondition f (Clause.leafKey f f.name) t).toOption = some condition := by
        rw [Clause.leafKey, hc]
        rfl
      refine ⟨[⟨[], [], [Clause.leafKey f f.name], condition⟩], ?_, rfl⟩
      rw [Clause.ofFilter?, hc']
      rfl

/-- **Compiling filters** collects the joins and the conditions of their clauses. -/
theorem planFilters_eq {entity : Entity} {filters : List (String × Filter)} {p p' : Plan}
    (h : planFilters r entity filters p = .ok p') :
    ∃ cs, Clause.ofFilters? r entity filters = some cs ∧ p' = cs.foldl Plan.addClause p := by
  induction filters generalizing p with
  | nil =>
    cases h
    exact ⟨[], rfl, rfl⟩
  | cons e rest ih =>
    obtain ⟨name, filter⟩ := e
    rw [planFilters] at h
    rcases hf : entity.field? name with _ | f
    · rw [hf] at h
      cases h
    rw [hf] at h
    dsimp only at h
    obtain ⟨p₁, hp₁, h⟩ := bind_eq_ok h
    obtain ⟨first, hfirst, rfl⟩ := planFilter_eq hp₁
    obtain ⟨others, hothers, rfl⟩ := ih h
    refine ⟨first ++ others, ?_, List.foldl_append.symm⟩
    rw [Clause.ofFilters?, hf, hothers]
    simp [hfirst]

end Compiling

/-! ## The joins of a plan -/

/-- Different paths have different labels. -/
def Hop.DistinctLabels (hops : List Hop) : Prop :=
  ∀ g ∈ hops, ∀ h ∈ hops, labelOf g.path = labelOf h.path → g.path = h.path

theorem Hop.DistinctLabels.mono {hops hops' : List Hop} (hl : DistinctLabels hops)
    (hsub : ∀ h ∈ hops', h ∈ hops) : DistinctLabels hops' :=
  fun g hg h hh => hl g (hsub g hg) h (hsub h hh)

/-- Entering hops adds none but these. -/
theorem Hop.mem_foldl_enter {hs hops : List Hop} {h : Hop} (hm : h ∈ hs.foldl enter hops) :
    h ∈ hops ++ hs := by
  induction hs generalizing hops with
  | nil => rwa [List.append_nil]
  | cons g rest ih =>
    rcases List.mem_append.1 (ih hm) with hg | hrest
    · unfold enter at hg
      split at hg
      · exact List.mem_append_left _ hg
      · rw [List.append_cons]
        exact List.mem_append_left _ hg
    · exact List.mem_append_right _ (List.mem_cons_of_mem _ hrest)

namespace Plan

@[simp] theorem joins_addCondition (p : Plan) (key : String) (condition : Value) :
    (p.addCondition key condition).joins = p.joins := by
  unfold addCondition
  split <;> rfl

/-- Hops are joined once for each path. Labels stand for paths, so that a plan has the label exactly
when the path is among the hops. -/
theorem joins_foldl_join {hs hops : List Hop} {p : Plan} (hp : p.joins = hops.map Hop.join)
    (hl : Hop.DistinctLabels (hops ++ hs)) :
    (hs.foldl (fun p h => p.join h.join) p).joins = (hs.foldl Hop.enter hops).map Hop.join := by
  induction hs generalizing hops p with
  | nil => exact hp
  | cons h rest ih =>
    have hany : (p.joins.any fun k => k.label == h.join.label) = true ↔
        h.path ∈ Hop.paths hops := by
      rw [hp, List.any_map, List.any_eq_true]
      constructor
      · rintro ⟨g, hg, hlabel⟩
        have hpath := hl g (List.mem_append_left _ hg) h
          (List.mem_append_right _ (List.mem_cons_self ..)) (beq_iff_eq.1 hlabel)
        exact List.mem_map.2 ⟨g, hg, hpath⟩
      · intro hm
        obtain ⟨g, hg, hpath⟩ := List.mem_map.1 hm
        exact ⟨g, hg, beq_iff_eq.2 (congrArg labelOf hpath)⟩
    rw [List.foldl_cons, List.foldl_cons]
    unfold join Hop.enter
    by_cases hm : h.path ∈ Hop.paths hops
    · rw [if_pos (hany.2 hm), if_pos hm]
      refine ih hp (hl.mono fun g hg => ?_)
      exact List.mem_append.2 ((List.mem_append.1 hg).imp_right (List.mem_cons_of_mem _))
    · rw [if_neg (mt hany.1 hm), if_neg hm]
      refine ih (by rw [hp, List.map_append]; rfl) ?_
      rw [List.append_assoc]
      exact hl

/-- **The joins of a plan** are those of the hops that the clauses use. -/
theorem joins_foldl_addClause {cs : List Clause} {hops : List Hop} {p : Plan}
    (hp : p.joins = hops.map Hop.join) (hl : Hop.DistinctLabels (hops ++ cs.flatMap Clause.hops)) :
    (cs.foldl addClause p).joins =
      ((cs.flatMap Clause.hops).foldl Hop.enter hops).map Hop.join := by
  induction cs generalizing hops p with
  | nil => exact hp
  | cons c rest ih =>
    rw [List.flatMap_cons, ← List.append_assoc] at hl
    rw [List.flatMap_cons, List.foldl_cons, List.foldl_append]
    refine ih ?_ (hl.mono fun g hg => ?_)
    · rw [addClause, joins_addCondition]
      exact joins_foldl_join hp (hl.mono fun g hg => List.mem_append_left _ hg)
    · rcases List.mem_append.1 hg with hg | hg
      · exact List.mem_append_left _ (Hop.mem_foldl_enter hg)
      · exact List.mem_append_right _ hg

end Plan

/-! ## The conditions of a plan -/

/-- A key that combines queries. -/
def IsCombinator (key : String) : Prop := key = "$and" ∨ key = "$or"

/-- Ask conditions one after the other. -/
def allHold (row : Document) : List (String × Value) → Outcome Bool
  | [] => pure true
  | (key, condition) :: rest => do
    if ← conditionHolds (resolve row key) condition then allHold row rest else pure false

/-- The conditions that an entry of a query stands for. -/
def entryConditions (e : String × Value) : List (String × Value) :=
  if e.1 = "$and" then
    match e.2 with
    | .list queries => queries.flatMap fun
      | .object fs => fs
      | _ => []
    | _ => []
  else [e]

/-- The conditions of a query, those that it combines included. -/
def conditionsOf (query : Document) : List (String × Value) := query.flatMap entryConditions

/-- An entry as plans write them: a condition, or the combination of some. -/
def IsPlanned (e : String × Value) : Prop :=
  ¬ IsCombinator e.1 ∨ e.1 = "$and" ∧ ∃ ks : List (String × Value),
    e.2 = .list (ks.map fun k => .object [k]) ∧ ∀ k ∈ ks, ¬ IsCombinator k.1

/-- Conditions hold together when the first ones do, and then the others. -/
theorem allHold_append (row : Document) (xs ys : List (String × Value)) :
    allHold row (xs ++ ys) =
      (do if ← allHold row xs then allHold row ys else pure false) := by
  induction xs with
  | nil => rfl
  | cons e rest ih =>
    obtain ⟨key, condition⟩ := e
    rw [List.cons_append, allHold, allHold]
    rcases conditionHolds (resolve row key) condition with e | _ | _
    · rfl
    · rfl
    · exact ih

/-- A query asks its first condition before the rest. -/
theorem matchesAll_cons (row : Document) {key : String} (hk : ¬ IsCombinator key)
    (condition : Value) (rest : Document) :
    matchesAll row ((key, condition) :: rest) =
      (do if ← conditionHolds (resolve row key) condition then matchesAll row rest
          else pure false) := by
  rw [IsCombinator, not_or] at hk
  rw [matchesAll.eq_def]
  dsimp only
  rw [if_neg hk.1, if_neg hk.2]

theorem matchesAll_and (row : Document) (queries : List Value) (rest : Document) :
    matchesAll row (("$and", .list queries) :: rest) =
      (do if ← everyMatches row queries then matchesAll row rest else pure false) := by
  rw [matchesAll.eq_def]
  dsimp only
  rw [if_pos rfl]

theorem matchesQuery_single (row : Document) {k : String × Value} (hk : ¬ IsCombinator k.1) :
    matchesQuery row (.object [k]) = conditionHolds (resolve row k.1) k.2 := by
  obtain ⟨key, condition⟩ := k
  rw [matchesQuery, matchesAll_cons row hk]
  rcases conditionHolds (resolve row key) condition with e | _ | _ <;> rfl

theorem everyMatches_map (row : Document) {ks : List (String × Value)}
    (hks : ∀ k ∈ ks, ¬ IsCombinator k.1) :
    everyMatches row (ks.map fun k => .object [k]) = allHold row ks := by
  induction ks with
  | nil => rfl
  | cons k rest ih =>
    rw [List.map_cons, everyMatches, matchesQuery_single row (hks k (List.mem_cons_self ..)),
      ih fun k' hk' => hks k' (List.mem_cons_of_mem _ hk')]
    obtain ⟨key, condition⟩ := k
    rfl

theorem entryConditions_and (ks : List (String × Value)) :
    entryConditions ("$and", .list (ks.map fun k => .object [k])) = ks := by
  simp only [entryConditions, if_true, List.flatMap_map]
  exact List.flatMap_singleton' ks

/-- **Matching a planned query** asks its conditions in order. -/
theorem matchesAll_eq (row : Document) {query : Document} (hq : ∀ e ∈ query, IsPlanned e) :
    matchesAll row query = allHold row (conditionsOf query) := by
  induction query with
  | nil => rfl
  | cons e rest ih =>
    have ih := ih fun e' he' => hq e' (List.mem_cons_of_mem _ he')
    obtain ⟨key, condition⟩ := e
    have hcons : conditionsOf ((key, condition) :: rest) =
        entryConditions (key, condition) ++ conditionsOf rest := List.flatMap_cons
    rw [hcons, allHold_append, ← ih]
    rcases hq (key, condition) (List.mem_cons_self ..) with hk | ⟨hk, ks, hks, hkeys⟩
    · rw [matchesAll_cons row hk, entryConditions, if_neg (not_or.1 hk).1, allHold]
      rcases conditionHolds (resolve row key) condition with e | _ | _ <;> rfl
    · obtain rfl : key = "$and" := hk
      obtain rfl : condition = .list (ks.map fun k => .object [k]) := hks
      rw [matchesAll_and, entryConditions_and, everyMatches_map row hkeys]

/-- How asking conditions in order ends. -/
theorem allHold_cases (row : Document) (conditions : List (String × Value)) :
    (allHold row conditions = .ok true ∧
      ∀ e ∈ conditions, conditionHolds (resolve row e.1) e.2 = .ok true) ∨
    (allHold row conditions = .ok false ∧
      ∃ e ∈ conditions, conditionHolds (resolve row e.1) e.2 = .ok false) ∨
    ∃ f, allHold row conditions = .error f ∧
      ∃ e ∈ conditions, conditionHolds (resolve row e.1) e.2 = .error f := by
  induction conditions with
  | nil => exact .inl ⟨rfl, fun e he => absurd he List.not_mem_nil⟩
  | cons e rest ih =>
    obtain ⟨key, condition⟩ := e
    rw [allHold]
    rcases hc : conditionHolds (resolve row key) condition with f | _ | _
    · exact .inr (.inr ⟨f, rfl, _, List.mem_cons_self .., hc⟩)
    · exact .inr (.inl ⟨rfl, _, List.mem_cons_self .., hc⟩)
    · rcases ih with ⟨hall, hrest⟩ | ⟨hall, e, he, hrest⟩ | ⟨f, hall, e, he, hrest⟩
      · refine .inl ⟨hall, fun e he => ?_⟩
        rcases List.mem_cons.1 he with rfl | he
        · exact hc
        · exact hrest e he
      · exact .inr (.inl ⟨hall, e, List.mem_cons_of_mem _ he, hrest⟩)
      · exact .inr (.inr ⟨f, hall, e, List.mem_cons_of_mem _ he, hrest⟩)

namespace Plan

/-- A condition more: the query stays as plans write them, and asks for one condition more. -/
theorem planned_addCondition {p : Plan} (hq : ∀ e ∈ p.query, IsPlanned e) {key : String}
    (hkey : ¬ IsCombinator key) (condition : Value) :
    (∀ e ∈ (p.addCondition key condition).query, IsPlanned e) ∧
      ∀ e, e ∈ conditionsOf (p.addCondition key condition).query ↔
        e ∈ conditionsOf p.query ∨ e = (key, condition) := by
  have hone : IsPlanned ("$and", .list [.object [(key, condition)]]) := by
    refine .inr ⟨rfl, [(key, condition)], rfl, fun k hk => ?_⟩
    obtain rfl := List.mem_singleton.1 hk
    exact hkey
  unfold addCondition
  split
  · dsimp only
    rcases Record.put_cases p.query "$and" with
      ⟨hget, hput⟩ | ⟨before, old, after, hget, hquery, hput⟩
    · rw [extraQueries, hget, hput]
      refine ⟨fun e he => ?_, fun e => ?_⟩
      · rcases List.mem_append.1 he with he | he
        · exact hq e he
        · obtain rfl := List.mem_singleton.1 he
          exact hone
      · simp [conditionsOf, entryConditions]
    · rw [extraQueries, hget, hput]
      have hold := hq ("$and", old) (by rw [hquery]; simp)
      obtain ⟨-, ks, hks, hkeys⟩ := hold.resolve_left fun h => h (.inl rfl)
      obtain rfl : old = .list (ks.map fun k => .object [k]) := hks
      have hnew : ks.map (fun k => Value.object [k]) ++ [.object [(key, condition)]] =
          (ks ++ [(key, condition)]).map fun k => .object [k] := by simp
      dsimp only
      rw [hnew]
      refine ⟨fun e he => ?_, fun e => ?_⟩
      · rcases List.mem_append.1 he with he | he
        · exact hq e (by rw [hquery]; exact List.mem_append_left _ he)
        · rcases List.mem_cons.1 he with rfl | he
          · refine .inr ⟨rfl, ks ++ [(key, condition)], rfl, fun k hk => ?_⟩
            rcases List.mem_append.1 hk with hk | hk
            · exact hkeys k hk
            · obtain rfl := List.mem_singleton.1 hk
              exact hkey
          · exact hq e (by rw [hquery]; exact List.mem_append_right _ (List.mem_cons_of_mem _ he))
      · rw [hquery]
        simp only [conditionsOf, List.flatMap_append, List.flatMap_cons, entryConditions_and,
          List.mem_append, List.mem_singleton]
        tauto
  · rename_i hnew
    rcases Record.put_cases p.query key with ⟨-, hput⟩ | ⟨_, _, _, hget, -, -⟩
    · dsimp only
      rw [hput]
      refine ⟨fun e he => ?_, fun e => ?_⟩
      · rcases List.mem_append.1 he with he | he
        · exact hq e he
        · obtain rfl := List.mem_singleton.1 he
          exact .inl hkey
      · simp [conditionsOf, entryConditions, (not_or.1 hkey).1]
    · exact absurd (by rw [Record.has, hget]; rfl) hnew

theorem query_foldl_join (hs : List Hop) (p : Plan) :
    (hs.foldl (fun p h => p.join h.join) p).query = p.query := by
  induction hs generalizing p with
  | nil => rfl
  | cons h rest ih =>
    rw [List.foldl_cons, ih]
    unfold join
    split <;> rfl

/-- **The conditions of a plan** are those of the clauses, on the rows. -/
theorem planned_foldl_addClause {cs : List Clause} {p : Plan} (hq : ∀ e ∈ p.query, IsPlanned e)
    (hkeys : ∀ c ∈ cs, ¬ IsCombinator (dotted (rowPath c.hop c.path))) :
    (∀ e ∈ (cs.foldl addClause p).query, IsPlanned e) ∧
      ∀ e, e ∈ conditionsOf (cs.foldl addClause p).query ↔
        e ∈ conditionsOf p.query ∨
          ∃ c ∈ cs, e = (dotted (rowPath c.hop c.path), c.condition) := by
  induction cs generalizing p with
  | nil => exact ⟨hq, fun e => by simp⟩
  | cons c rest ih =>
    have hq' : ∀ e ∈ (c.hops.foldl (fun p h => p.join h.join) p).query, IsPlanned e := by
      rw [query_foldl_join]
      exact hq
    obtain ⟨hplanned, hmem⟩ :=
      planned_addCondition hq' (hkeys c (List.mem_cons_self ..)) c.condition
    obtain ⟨hplanned', hmem'⟩ := ih hplanned fun d hd => hkeys d (List.mem_cons_of_mem _ hd)
    refine ⟨hplanned', fun e => ?_⟩
    rw [List.foldl_cons, addClause, hmem' e, hmem e, query_foldl_join]
    simp [or_assoc]

end Plan

end EntityGraph

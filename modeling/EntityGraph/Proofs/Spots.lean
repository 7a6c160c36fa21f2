import EntityGraph.Proofs.JoinLabels
import EntityGraph.Proofs.Negation

/-!
# Spots

A path leads to a spot, whatever is asked there: to a field, to the place where a row keeps its
values, and to the joins on the way. So a term is compiled in two steps. The first finds the spot,
and depends on the path alone. The second turns operator and value into a condition as the field has
it, and adds joins and condition to the plan (`planTerm_eq_spot`, `planFilter_asking`).
-/

namespace EntityGraph

/-- **A spot**: a field at the end of a path. -/
structure Spot where
  /-- the joins on the way, in order -/
  joins : List Join
  field : FieldDef
  /-- what leads to the value in a row -/
  before : List String
  /-- the key under which it stands there -/
  leaf : String

namespace Spot

/-- Where a row keeps the value. -/
def key (s : Spot) : String := dotted (s.before ++ [s.leaf])

/-- Add the joins on the way to a plan. -/
def joined (s : Spot) (p : Plan) : Plan := s.joins.foldl Plan.join p

/-- Ask the condition of a term at the spot. -/
def ask (s : Spot) (t : FilterTerm) (p : Plan) : Outcome Plan := do
  let condition ← termCondition s.field s.leaf t
  (s.joined p).ask s.key condition

/-- The spot with one more join in front. -/
def after (j : Join) (s : Spot) : Spot := { s with joins := j :: s.joins }

/-- The spot that segments lead to from `current`, whose documents are found at `label` and, inside
them, at `embedded`. -/
def follow (r : Registry) (root : FieldDef) (path : String) :
    Entity → String → List String → List String → Outcome Spot
  | _, _, _, [] => throw .illTyped
  | current, label, embedded, segment :: rest =>
    match current.field? segment with
    | none => throw (Reason.noFieldOnPath current.name segment root.name path).fault
    | some f => do
      let kind ← f.kind
      if !kind.isObject then
        if !rest.isEmpty then throw (Reason.notARelation segment root.name path).fault
        else pure ⟨[], f, label :: embedded, Clause.leafKey f segment⟩
      else if rest.isEmpty then throw (Reason.pathEndsAtRelation root.name path).fault
      else if f.isEmbedded then
        let target ← r.require f.target (current.name ++ "." ++ segment)
        follow r root path target.entity label (embedded ++ [segment]) rest
      else
        let next := Text.join "_" (label :: embedded ++ [segment])
        let j ← relationJoin r f (label :: embedded) next
        let target ← r.require f.target (current.name ++ "." ++ segment)
        let s ← follow r root path target.entity next [] rest
        pure (s.after j)

/-- The spot that a path leads to from a relation. -/
def ofPath (r : Registry) (root : FieldDef) (path : String) : Outcome Spot :=
  if root.isEmbedded then do
    let target ← r.require root.target root.name
    follow r root path target.entity root.name [] (Text.segments path)
  else do
    let j ← relationJoin r root [] root.name
    let target ← r.require root.target root.name
    let s ← follow r root path target.entity root.name [] (Text.segments path)
    pure (s.after j)

/-- The spot of a field itself. -/
def ofField (f : FieldDef) : Spot := ⟨[], f, [], Clause.leafKey f f.name⟩

/-- The spot of a field that holds no objects, or the one that a path leads to from a relation. -/
def find (r : Registry) (f : FieldDef) (place : Option String) : Outcome Spot := do
  let kind ← f.kind
  match place with
  | none => if kind.isObject then throw (Reason.termsExpected f.name).fault else pure (ofField f)
  | some path => if kind.isObject then ofPath r f path else throw (Reason.termExpected f.name).fault

end Spot

section Finding

variable {r : Registry} {root : FieldDef}

/-- Following a path with a term is finding its spot, and asking there. -/
theorem followPath_eq_spot (term : PathTerm) {names : List String} (hnames : names ≠ [])
    {current : Entity} {label : String} {embedded : List String} (p : Plan) :
    followPath r root term current label embedded names p =
      (do
        let s ← Spot.follow r root term.path current label embedded names
        s.ask term.toFilterTerm p) := by
  induction names generalizing current label embedded p with
  | nil => exact absurd rfl hnames
  | cons name rest ih =>
    rw [followPath, Spot.follow]
    cases current.field? name with
    | none => rfl
    | some f =>
      dsimp only
      rw [bind_assoc]
      congr 1
      funext kind
      rcases hobj : kind.isObject with _ | _
      · cases rest <;> rfl
      · cases rest with
        | nil => rfl
        | cons next more =>
          have ih := fun {current label embedded} =>
            @ih (List.cons_ne_nil _ _) current label embedded
          rcases hemb : f.isEmbedded with _ | _
          · simp only [Bool.not_true, Bool.false_eq_true, if_false, List.isEmpty_cons, bind_assoc,
              pure_bind]
            congr 1
            funext j
            congr 1
            funext target
            exact ih _
          · simp only [Bool.not_true, Bool.false_eq_true, if_false, List.isEmpty_cons, if_true,
              bind_assoc]
            congr 1
            funext target
            exact ih _

/-- **A term on a path** is compiled by finding the spot of the path, and asking there. -/
theorem planTerm_eq_spot (p : Plan) (term : PathTerm) :
    planTerm r root p term =
      (do
        let s ← Spot.ofPath r root term.path
        s.ask term.toFilterTerm p) := by
  unfold planTerm Spot.ofPath
  split
  · simp only [bind_assoc, pure_bind]
    congr 1
    funext target
    exact followPath_eq_spot term (segments_ne_nil _) p
  · simp only [bind_assoc, pure_bind]
    congr 1
    funext j
    congr 1
    funext target
    exact followPath_eq_spot term (segments_ne_nil _) _

/-- A term on a field is asked at the spot of the field. -/
theorem planFilter_term (f : FieldDef) (t : FilterTerm) (p : Plan) :
    planFilter r f (.term t) p =
      (do
        let s ← Spot.find r f none
        s.ask t p) := by
  unfold planFilter Spot.find
  rw [bind_assoc]
  congr 1
  funext kind
  cases kind.isObject <;> rfl

/-- **A filter that asks one operator** is compiled by finding its spot, and asking there. -/
theorem planFilter_asking (f : FieldDef) (place : Option String) (o : Operator) (v : Value)
    (p : Plan) :
    planFilter r f (.asking place o v) p =
      (do
        let s ← Spot.find r f place
        s.ask ⟨some o, v⟩ p) := by
  cases place with
  | none => exact planFilter_term f _ p
  | some path =>
    unfold planFilter Spot.find
    rw [bind_assoc]
    congr 1
    funext kind
    cases kind.isObject with
    | false => rfl
    | true =>
      exact (bind_pure _).trans (planTerm_eq_spot p _)

end Finding

/-! ## Asking at a spot -/

namespace Spot

@[simp] theorem query_joined (s : Spot) (p : Plan) : (s.joined p).query = p.query := by
  unfold joined
  induction s.joins generalizing p with
  | nil => rfl
  | cons j rest ih => rw [List.foldl_cons, ih, Plan.query_join]

/-- A condition that is asked alone is the query. -/
theorem ask_empty {s : Spot} {t : FilterTerm} {condition : Value}
    (h : termCondition s.field s.leaf t = .ok condition) :
    ∃ p, s.ask t .empty = .ok p ∧ p.joins = (s.joined .empty).joins ∧
      p.query = [(s.key, condition)] := by
  have hquery : (s.joined .empty).query = [] := s.query_joined .empty
  refine ⟨(s.joined .empty).addCondition s.key condition, ?_, Plan.joins_addCondition .., ?_⟩
  · unfold ask Plan.ask
    rw [h, hquery]
    rfl
  · unfold Plan.addCondition
    rw [hquery]
    rfl

/-! ## The place of a spot -/

/-- **Where a segment leads**: to a field that holds no objects at the end of the path, into the
object that a field embeds, or to the documents that a relation joins. -/
theorem follow_cases {r : Registry} {root : FieldDef} {path : String} {name : String}
    {rest : List String} {current : Entity} {label : String} {embedded : List String} {s : Spot}
    (h : follow r root path current label embedded (name :: rest) = .ok s) :
    ∃ f, s = ⟨[], f, label :: embedded, Clause.leafKey f name⟩ ∨
      (∃ target, follow r root path target label (embedded ++ [name]) rest = .ok s) ∨
      ∃ j target s', relationJoin r f (label :: embedded)
      (Text.join "_" (label :: embedded ++ [name])) = .ok j ∧
        follow r root path target (Text.join "_" (label :: embedded ++ [name]))
        [] rest = .ok s' ∧ s = s'.after j := by
  rw [follow] at h
  cases hf : current.field? name with
  | none =>
    rw [hf] at h
    cases h
  | some f =>
    rw [hf] at h
    refine ⟨f, ?_⟩
    obtain ⟨kind, -, h⟩ := bind_eq_ok h
    split at h
    · split at h
      · cases h
      · cases h
        exact .inl rfl
    split at h
    · cases h
    split at h
    · obtain ⟨target, -, h⟩ := bind_eq_ok h
      exact .inr (.inl ⟨target.entity, h⟩)
    · obtain ⟨j, hj, h⟩ := bind_eq_ok h
      obtain ⟨target, -, h⟩ := bind_eq_ok h
      obtain ⟨s', hs', h⟩ := bind_eq_ok h
      cases h
      exact .inr (.inr ⟨j, target.entity, s', hj, hs', rfl⟩)

/-- A path leads to a place inside an object. -/
theorem before_ne_nil_of_follow {r : Registry} {root : FieldDef} {path : String}
    {names : List String} {current : Entity} {label : String} {embedded : List String} {s : Spot}
    (h : follow r root path current label embedded names = .ok s) : s.before ≠ [] := by
  induction names generalizing current label embedded s with
  | nil => cases h
  | cons name rest ih =>
    obtain ⟨f, rfl | ⟨target, hrest⟩ | ⟨j, target, s', -, hrest, rfl⟩⟩ := follow_cases h
    · exact List.cons_ne_nil _ _
    · exact ih hrest
    · exact ih (s := s') hrest

/-- The place that a path leads to has a dot, and so does not combine queries. -/
theorem not_isCombinator_of_ofPath {r : Registry} {root : FieldDef} {path : String} {s : Spot}
    (h : ofPath r root path = .ok s) : ¬ IsCombinator s.key := by
  have hbefore : s.before ≠ [] := by
    unfold ofPath at h
    split at h
    · obtain ⟨target, -, h⟩ := bind_eq_ok h
      exact before_ne_nil_of_follow h
    · obtain ⟨j, -, h⟩ := bind_eq_ok h
      obtain ⟨target, -, h⟩ := bind_eq_ok h
      obtain ⟨s', hs', h⟩ := bind_eq_ok h
      cases h
      exact before_ne_nil_of_follow (s := s') hs'
  refine not_isCombinator_dotted ?_
  rw [List.length_append, List.length_singleton]
  have := List.length_pos_iff.2 hbefore
  omega

theorem not_isCombinator_leafKey {f : FieldDef} (h : ¬ IsCombinator f.name) :
    ¬ IsCombinator (Clause.leafKey f f.name) := by
  unfold Clause.leafKey
  split
  · unfold IsCombinator
    decide
  · exact h

/-- A spot does not combine queries, unless it is a field with such a name. -/
theorem not_isCombinator_key {r : Registry} {f : FieldDef} {place : Option String} {s : Spot}
    (h : find r f place = .ok s) (hname : place = none → ¬ IsCombinator f.name) :
    ¬ IsCombinator s.key := by
  unfold find at h
  obtain ⟨kind, -, h⟩ := bind_eq_ok h
  cases place with
  | none =>
    dsimp only at h
    split at h
    · cases h
    · cases h
      exact not_isCombinator_leafKey (hname rfl)
  | some path =>
    dsimp only at h
    split at h
    · exact not_isCombinator_of_ofPath h
    · cases h

end Spot

end EntityGraph

import EntityGraph.Query.Condition
import EntityGraph.Registry
import EntityGraph.Text.Split

/-!
# Compiling list arguments

List arguments become a pipeline: pairs of a join and its unwinding in the order of first use, then
one selection, then order and cuts, or the count. A path through referenced relations joins each hop
under a label that is put together from the hops before it, so paths with the same beginning share
their joins; embedded hops only extend the path inside the joined document.
-/

namespace EntityGraph

/-- A stage of a pipeline. -/
inductive Stage where
  /-- join with the documents of `source` whose `foreignPath` meets the `localPath` -/
  | lookup (source foreignPath localPath label : String)
  /-- one row for each joined document; rows without one stay -/
  | unwind (label : String)
  | select (query : Document)
  | sort (keys : Record Bool)
  | limit (n : Int)
  | skip (n : Nat)
  | count (name : String)

namespace Stage

/-- A stage as the store reads it. -/
def toValue : Stage → Value
  | lookup source foreignPath localPath label =>
    .object [("$lookup", .object [("from", .text source), ("foreignField", .text foreignPath),
      ("localField", .text localPath), ("as", .text label)])]
  | unwind label =>
    .object [("$unwind", .object [("path", .text ("$" ++ label)),
      ("preserveNullAndEmptyArrays", .bool true)])]
  | select query => .object [("$match", .object query)]
  | sort keys =>
    .object [("$sort", .object (Record.mapValues (fun d => .int (if d then -1 else 1)) keys))]
  | limit n => .object [("$limit", .int n)]
  | skip n => .object [("$skip", .int n)]
  | count name => .object [("$count", .text name)]

end Stage

/-- A join: where it looks, and under which label it puts what it finds. -/
structure Join where
  source : String
  foreignPath : String
  localPath : String
  label : String
  deriving DecidableEq

/-- The joins and conditions collected from the filters. -/
structure Plan where
  joins : List Join
  query : Document

namespace Plan

/-- The plan without joins and conditions. -/
def empty : Plan := ⟨[], []⟩

/-- Add a join, unless its label is there already. -/
def join (p : Plan) (j : Join) : Plan :=
  if p.joins.any fun k => k.label == j.label then p else { p with joins := p.joins ++ [j] }

/-- The queries that a query combines besides its own conditions. -/
def extraQueries (query : Document) : List Value :=
  match Record.get? query "$and" with
  | some (.list qs) => qs
  | _ => []

/-- Add a condition. A second condition on a key is combined with the first. -/
def addCondition (p : Plan) (key : String) (condition : Value) : Plan :=
  if Record.has p.query key then
    { p with query :=
        Record.put p.query "$and" (.list (extraQueries p.query ++ [.object [(key, condition)]])) }
  else { p with query := Record.put p.query key condition }

/-- Can further conditions be combined with those of the query? A field may go by the name of the
combination. -/
def combines (p : Plan) : Bool :=
  match Record.get? p.query "$and" with
  | none | some (.list _) => true
  | some _ => false

/-- Add a condition, if it can be combined with one on the same key. -/
def ask (p : Plan) (key : String) (condition : Value) : Outcome Plan :=
  if Record.has p.query key && !p.combines then throw .illTyped else
    pure (p.addCondition key condition)

/-- The stages that join and select. -/
def stages (p : Plan) : List Stage :=
  p.joins.flatMap (fun j => [.lookup j.source j.foreignPath j.localPath j.label,
    .unwind j.label]) ++ (if p.query.isEmpty then [] else [.select p.query])

end Plan

/-- A path with the segments joined by dots. -/
def dotted (segments : List String) : String := Text.join "." segments

/-- The join of a referenced relation, from documents found at `prefixPath`. A list is found by the
identifier of its owner, a single object by the connection field on its owner. -/
def relationJoin (r : Registry) (f : FieldDef) (prefixPath : List String) (label : String) :
    Outcome Join := do
  let target ← r.require f.target f.name
  if f.many then pure ⟨target.collection, f.connectionField, dotted (prefixPath ++ ["_id"]), label⟩
  else pure ⟨target.collection, "_id", dotted (prefixPath ++ [f.connectionField]), label⟩

/-- Is the relation of the field embedded? -/
def FieldDef.isEmbedded (f : FieldDef) : Bool := (f.relation.map (·.embedded)).getD false

/-- Follow the segments of a term's path from `current`, whose documents are found at `label` and,
inside them, at `embedded`. -/
def followPath (r : Registry) (root : FieldDef) (term : PathTerm) :
    Entity → String → List String → List String → Plan → Outcome Plan
  | _, _, _, [], p => pure p
  | current, label, embedded, segment :: rest, p =>
    match current.field? segment with
    | none => throw (Reason.noFieldOnPath current.name segment root.name term.path).fault
    | some f => do
      let kind ← f.kind
      if !kind.isObject then
        if !rest.isEmpty then throw (Reason.notARelation segment root.name term.path).fault
        let leaf := if f.isIdentifier then "_id" else segment
        let condition ← termCondition f leaf term.toFilterTerm
        p.ask (dotted (label :: embedded ++ [leaf])) condition
      else if rest.isEmpty then throw (Reason.pathEndsAtRelation root.name term.path).fault
      else if f.isEmbedded then
        let target ← r.require f.target (current.name ++ "." ++ segment)
        followPath r root term target.entity label (embedded ++ [segment]) rest p
      else
        let next := Text.join "_" (label :: embedded ++ [segment])
        let j ← relationJoin r f (label :: embedded) next
        let target ← r.require f.target (current.name ++ "." ++ segment)
        followPath r root term target.entity next [] rest (p.join j)

/-- Add the joins and the condition of a term on a relation. -/
def planTerm (r : Registry) (root : FieldDef) (p : Plan) (term : PathTerm) : Outcome Plan := do
  let p ←
    if root.isEmbedded then pure p
    else do
      let j ← relationJoin r root [] root.name
      pure (p.join j)
  let target ← r.require root.target root.name
  followPath r root term target.entity root.name [] (Text.segments term.path) p

/-- Add the joins and conditions of one filter. -/
def planFilter (r : Registry) (f : FieldDef) (filter : Filter) (p : Plan) : Outcome Plan := do
  let kind ← f.kind
  if kind.isObject then
    match filter with
    | .expression terms => terms.foldlM (planTerm r f) p
    | .term _ => throw (Reason.termsExpected f.name).fault
  else
    match filter with
    | .term t =>
      let key := if f.isIdentifier then "_id" else f.name
      let condition ← termCondition f key t
      p.ask key condition
    | .expression _ => throw (Reason.termExpected f.name).fault

/-- Add the joins and conditions of all filters, in order. -/
def planFilters (r : Registry) (entity : Entity) : List (String × Filter) → Plan → Outcome Plan
  | [], p => pure p
  | (name, filter) :: rest, p =>
    match entity.field? name with
    | none => throw (Reason.noField entity.name name).fault
    | some f => do
      let p ← planFilter r f filter p
      planFilters r entity rest p

/-- The sort keys of a list. The first segment of each must be a field of the entity. -/
def sortKeys (entity : Entity) : List SortTerm → Record Bool → Outcome (Record Bool)
  | [], keys => pure keys
  | t :: rest, keys =>
    let head := (Text.segments t.field).headD ""
    match entity.field? head with
    | none => throw (Reason.noSortField entity.name head).fault
    | some _ =>
      let key := if t.field = "id" then "_id" else t.field
      sortKeys entity rest (Record.put keys key t.descending)

/-- The cuts of a page. The limit counts from the start of the list and comes before the skip. -/
def cuts (defaultLimit : Int) : Option Pagination → List Stage
  | none => [.limit defaultLimit, .skip 0]
  | some p =>
    let skip := p.size * (p.page - 1)
    [.limit (p.size + skip : Nat), .skip skip]

/-- The name of the count in its row. -/
def countField : String := "size"

/-- The largest number of rows of a list without page, unless set otherwise. -/
def standardLimit : Int := 100

/-- The pipeline of a list. It is empty when nothing in particular is asked for. -/
def listPipeline (r : Registry) (defaultLimit : Int) (d : Descriptor) (args : ListArguments) :
    Outcome (List Stage) := do
  if args.isEmpty then pure []
  else
    let plan ← planFilters r d.entity args.filters .empty
    let order ← match args.sort with
      | none => pure []
      | some terms =>
        if terms.isEmpty then pure []
        else do
          let keys ← sortKeys d.entity terms []
          pure [Stage.sort keys]
    pure (plan.stages ++ order ++ cuts defaultLimit args.pagination)

/-- The pipeline that counts a list. -/
def countPipeline (r : Registry) (d : Descriptor) (args : ListArguments) :
    Outcome (List Stage) := do
  if args.isEmpty then pure [.count countField]
  else
    let plan ← planFilters r d.entity args.filters .empty
    pure (plan.stages ++ [.count countField])

end EntityGraph

import EntityGraph.Store.Match

/-!
# Aggregation

A pipeline is a list of stages, each an object with one operator. The documents of a collection go
through the stages in order: joins (`$lookup`, `$unwind`), selection (`$match`), order (`$sort`),
cuts (`$limit`, `$skip`) and `$count`. Joins look into the collections as the caller sees them.
-/

namespace EntityGraph

/-- A collection: documents by their identifiers, in the order in which they were first written. -/
abbrev Collection := List (Value × Document)

/-- The documents of a collection. -/
def Collection.documents (c : Collection) : List Document := c.map Prod.snd

/-- Collections by name. -/
abbrev Collections := Record Collection

/-- The entries of a collection; a collection that was never written has none. -/
def Collections.get (cs : Collections) (name : String) : Collection := (Record.get? cs name).getD []

/-! ## Joins -/

/-- Is one of the values at a path of a foreign document among the local values? -/
def joins (localValues : List Value) (foreignPath : String) (foreign : Document) : Bool :=
  (flatten (resolve foreign foreignPath)).any fun v => v.isIn localValues

/-- Add, under `name`, the foreign documents that a document joins with. -/
def lookupOne (foreign : List Document) (localPath foreignPath name : String) (d : Document) :
    Document :=
  let localValues := flatten (resolve d localPath)
  Record.put d name (.list ((foreign.filter (joins localValues foreignPath)).map .object))

/-- A text among the entries of a stage. -/
def entryText (spec : Document) (key : String) : Outcome String :=
  match Record.get? spec key with
  | some (.text s) => pure s
  | _ => throw .illTyped

/-- The `$lookup` stage. What the stage names is only looked at as far as documents ask for it. -/
def lookupStage (view : Collections) (spec : Value) (docs : List Document) :
    Outcome (List Document) :=
  match spec with
  | .object fs =>
    match Record.get? fs "from" with
    | none => throw .illTyped
    | some source =>
      if !source.isKey then throw .illTyped
      else if docs.isEmpty then pure []
      else do
        let foreign := match source with
          | .text name => (view.get name).documents
          | _ => []
        let localPath ← entryText fs "localField"
        let foreignPath ← if foreign.isEmpty then pure "" else entryText fs "foreignField"
        let name ← entryText fs "as"
        pure (docs.map (lookupOne foreign localPath foreignPath name))
  | _ => throw .illTyped

/-- The text without the `$` signs in front. -/
def dropSigns (path : String) : String := String.ofList (path.toList.dropWhile (· = '$'))

/-- A document unwound at a field: one for each item of its list. A document without value there
stays when `preserve` is set; an empty list is then dropped. -/
def unwindOne (field : String) (preserve : Bool) (d : Document) : List Document :=
  match Record.get? d field with
  | none => if preserve then [d] else []
  | some .null => if preserve then [d] else []
  | some (.list []) => if preserve then [Record.erase d field] else []
  | some (.list items) => items.map fun v => Record.put d field v
  | some _ => [d]

/-- The `$unwind` stage. -/
def unwindStage (spec : Value) (docs : List Document) : Outcome (List Document) :=
  match spec with
  | .text path => pure (docs.flatMap (unwindOne (dropSigns path) false))
  | .object fs => do
    let path ← entryText fs "path"
    let preserve := ((Record.get? fs "preserveNullAndEmptyArrays").map Value.truthy).getD false
    pure (docs.flatMap (unwindOne (dropSigns path) preserve))
  | _ => throw .illTyped

/-! ## Order -/

/-- The value by which a document is sorted: the first that the path addresses, or null. -/
def sortValue (path : String) (d : Document) : Value := (resolve d path).headD .null

/-- Is the first value sorted before the second? Null comes first; `none` when they have no
order. -/
def sortsBefore? (a b : Value) : Option Bool :=
  match a.isNull, b.isNull with
  | true, true => some false
  | true, false => some true
  | false, true => some false
  | false, false => if a.eq b then some false else a.lt? b

/-- Do any two of the values have an order? -/
def sortable : List Value → Bool
  | [] => true
  | a ::
  rest => rest.all (fun b => (sortsBefore? a b).isSome && (sortsBefore? b a).isSome) &&
  sortable rest

/-- May the first value stand before the second in ascending order? -/
def inOrder (a b : Value) : Bool := !(sortsBefore? b a).getD false

/-- Sort by one path, keeping the order of documents that are equal there. -/
def sortByPath (path : String) (descending : Bool) (docs : List Document) :
    Outcome (List Document) :=
  if sortable (docs.map (sortValue path)) then
    pure (docs.mergeSort fun a b =>
      if descending then inOrder (sortValue path b) (sortValue path a)
      else inOrder (sortValue path a) (sortValue path b))
  else throw .illTyped

/-- Does a direction ask for descending order? -/
def isDescending (direction : Value) : Bool := direction.eq (.int (-1))

/-- Sort by the last key first, so that the first key decides in the end. -/
def sortByKeys : List (String × Value) → List Document → Outcome (List Document)
  | [], docs => pure docs
  | (path, direction) :: rest, docs => do
    let docs ← sortByKeys rest docs
    sortByPath path (isDescending direction) docs

/-- The `$sort` stage. -/
def sortStage (spec : Value) (docs : List Document) : Outcome (List Document) :=
  match spec with
  | .object fs => sortByKeys fs docs
  | _ => throw .illTyped

/-! ## Cuts -/

/-- A position in a list of `length` items; negative ones count from the end. -/
def position (n : Int) (length : Nat) : Nat :=
  if n < 0 then (n + length).toNat else n.toNat

/-- The number that a value gives for a cut. -/
def cutNumber? : Value → Option Int
  | .int i => some i
  | .bool b => some (if b then 1 else 0)
  | _ => none

/-- The `$limit` stage. -/
def limitStage (spec : Value) (docs : List Document) : Outcome (List Document) :=
  match spec with
  | .null => pure docs
  | _ =>
    match cutNumber? spec with
    | some n => pure (docs.take (position n docs.length))
    | none => throw .illTyped

/-- The `$skip` stage. -/
def skipStage (spec : Value) (docs : List Document) : Outcome (List Document) :=
  match spec with
  | .null => pure docs
  | _ =>
    match cutNumber? spec with
    | some n => pure (docs.drop (position n docs.length))
    | none => throw .illTyped

/-- The `$count` stage: one document with the number of documents, or none when there are none. -/
def countStage (spec : Value) (docs : List Document) : Outcome (List Document) :=
  if docs.isEmpty then pure []
  else match spec with
    | .text name => pure [[(name, .int docs.length)]]
    | _ => throw .illTyped

/-! ## Pipelines -/

/-- Run one stage. -/
def runStage (view : Collections) (operator : String) (spec : Value) (docs : List Document) :
    Outcome (List Document) :=
  if operator = "$lookup" then lookupStage view spec docs
  else if operator = "$unwind" then unwindStage spec docs
  else if operator = "$match" then matching spec docs
  else if operator = "$sort" then sortStage spec docs
  else if operator = "$limit" then limitStage spec docs
  else if operator = "$skip" then skipStage spec docs
  else if operator = "$count" then countStage spec docs
  else throw (.badValue ("Unsupported aggregation stage: " ++ operator))

/-- Run stages in order. -/
def runStages (view : Collections) : List Value → List Document → Outcome (List Document)
  | [], docs => pure docs
  | .object [(operator, spec)] :: rest, docs => do
    let docs ← runStage view operator spec docs
    runStages view rest docs
  | _ :: _, _ => throw .illTyped

/-- Run a pipeline on a collection. -/
def aggregate (view : Collections) (collection : String) (pipeline : List Value) :
    Outcome (List Document) :=
  runStages view pipeline (view.get collection).documents

end EntityGraph

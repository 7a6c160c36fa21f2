import EntityGraph.Decimal.Reader
import EntityGraph.Schema.Entity

/-!
# List arguments

A list is asked for by filters, one per field, by sort terms and by a page. A scalar field is
filtered by a term, an operator with a value; a relation by a list of terms on paths that start at
it. Reading raw arguments collects every objection to an argument, in the order of its parts.
-/

namespace EntityGraph

open Decimal (Number)

/-- The comparisons of filter terms. -/
inductive Operator where
  | eq
  | lt
  | gt
  | lte
  | gte
  /-- between two bounds -/
  | btw
  | ne
  /-- one of a list -/
  | oneOf
  /-- none of a list -/
  | noneOf
  /-- contains a text -/
  | like
  deriving DecidableEq, Repr

namespace Operator

/-- The name of a comparison. -/
def name : Operator → String
  | eq => "EQ"
  | lt => "LT"
  | gt => "GT"
  | lte => "LTE"
  | gte => "GTE"
  | btw => "BTW"
  | ne => "NE"
  | oneOf => "IN"
  | noneOf => "NIN"
  | like => "LIKE"

/-- All comparisons. -/
def all : List Operator := [eq, lt, gt, lte, gte, btw, ne, oneOf, noneOf, like]

/-- The comparison of a name. -/
def ofName? (text : String) : Option Operator := all.find? fun o => o.name == text

end Operator

/-- A filter on a scalar field. Without operator it asks for equality. -/
structure FilterTerm where
  operator : Option Operator
  value : Value

/-- A filter on a path inside a related entity. -/
structure PathTerm extends FilterTerm where
  path : String

/-- The filter of one field. -/
inductive Filter where
  | term (t : FilterTerm)
  | expression (terms : List PathTerm)

/-- A sort key. -/
structure SortTerm where
  field : String
  descending : Bool

/-- A page of a list, and whether the size of the whole list is asked for. -/
structure Pagination where
  page : Nat
  size : Nat
  count : Bool

/-- The arguments of a list. -/
structure ListArguments where
  filters : Record Filter
  sort : Option (List SortTerm)
  pagination : Option Pagination

/-- Do the arguments ask for nothing in particular? -/
def ListArguments.isEmpty (a : ListArguments) : Bool :=
  a.filters.isEmpty && a.sort.isNone && a.pagination.isNone

/-! ## Reading -/

/-- A reading of an argument, with the objections to it. -/
structure Reading (α : Type) where
  value : α
  objections : List Objection

namespace Reading

/-- An argument without objections. -/
def good {α : Type} (v : α) : Reading α := ⟨v, []⟩

/-- An argument that cannot be used; the value stands in for it. -/
def bad {α : Type} (v : α) (type : String) : Reading α := ⟨v, [⟨[], type, none⟩]⟩

/-- A reading of a part, with its objections placed at the part. -/
def under {α : Type} (step : Step) (r : Reading α) : Reading α :=
  { r with objections := r.objections.map fun o => { o with path := step :: o.path } }

end Reading

/-- Read an operator. -/
def readOperator : Option Value → Reading (Option Operator)
  | none => .good none
  | some .null => .good none
  | some (.text s) =>
    match Operator.ofName? s with
    | some o => .good (some o)
    | none => .bad none "enum"
  | some _ => .bad none "enum"

/-- Read a text that must be there. -/
def readText : Option Value → Reading String
  | none => .bad "" "missing"
  | some (.text s) => .good s
  | some _ => .bad "" "string_type"

/-- Read a sort order. -/
def readDescending : Option Value → Reading Bool
  | none => .bad false "missing"
  | some (.text s) =>
    if s = "ASC" then .good false else if s = "DESC" then .good true else .bad false "enum"
  | some _ => .bad false "enum"

/-- The objection to the value of a term that its operator does not go with. -/
def valueObjection? (operator : Option Operator) (v : Value) : Option String :=
  match operator, v with
  | some .btw, .list [_, _] => none
  | some .btw, _ => some "BTW expects a two-element value"
  | some .oneOf, .list _ => none
  | some .oneOf, _ => some "IN expects a list value"
  | some .noneOf, .list _ => none
  | some .noneOf, _ => some "NIN expects a list value"
  | _, _ => none

/-- The objections to a term: those to its parts, or else the one to its value. -/
def termObjections (parts : List Objection) (operator : Option Operator) (v : Value) :
    List Objection :=
  if parts.isEmpty then
    match valueObjection? operator v with
    | some why => [⟨[], "value_error", some ("Value error, " ++ why)⟩]
    | none => []
  else parts

/-- Read a term. -/
def readTerm : Value → Reading FilterTerm
  | .object fs =>
    let operator := (readOperator (Record.get? fs "operator")).under (.key "operator")
    let v := (Record.get? fs "value").getD .null
    ⟨⟨operator.value, v⟩, termObjections operator.objections operator.value v⟩
  | _ => .bad ⟨none, .null⟩ "model_type"

/-- Read a term on a path. -/
def readPathTerm : Value → Reading PathTerm
  | .object fs =>
    let operator := (readOperator (Record.get? fs "operator")).under (.key "operator")
    let v := (Record.get? fs "value").getD .null
    let path := (readText (Record.get? fs "path")).under (.key "path")
    ⟨⟨⟨operator.value, v⟩, path.value⟩,
      termObjections (operator.objections ++ path.objections) operator.value v⟩
  | _ => .bad ⟨⟨none, .null⟩, ""⟩ "model_type"

/-- Read a sort key. -/
def readSortTerm : Value → Reading SortTerm
  | .object fs =>
    let field := (readText (Record.get? fs "field")).under (.key "field")
    let order := (readDescending (Record.get? fs "order")).under (.key "order")
    ⟨⟨field.value, order.value⟩, field.objections ++ order.objections⟩
  | _ => .bad ⟨"", false⟩ "model_type"

/-- Read items one after the other; they are counted from `index`. -/
def readItems {α : Type} (read : Value → Reading α) : Nat → List Value → Reading (List α)
  | _, [] => .good []
  | index, v :: rest =>
    let first := (read v).under (.item index)
    let others := readItems read (index + 1) rest
    ⟨first.value :: others.value, first.objections ++ others.objections⟩

/-- Read an object with a list of terms, which may be left out. -/
def readTerms {α : Type} (read : Value → Reading α) : Value → Reading (List α)
  | .object fs =>
    match Record.get? fs "terms" with
    | none => .good []
    | some (.list items) => (readItems read 0 items).under (.key "terms")
    | some _ => (Reading.bad [] "list_type").under (.key "terms")
  | _ => .bad [] "model_type"

/-- Characters that may surround a written number. -/
def isBlank (c : Char) : Bool :=
  let n := c.toNat
  (9 ≤ n && n ≤ 13) || n = 32 || n = 133 || n = 160 || n = 5760 || (8192 ≤ n && n ≤ 8202) ||
    n = 8232 || n = 8233 || n = 8239 || n = 8287 || n = 12288

/-- The characters without blanks at either end. -/
def trimBlanks (cs : List Char) : List Char :=
  ((cs.dropWhile isBlank).reverse.dropWhile isBlank).reverse

/-- The characters without a fraction of zeros at the end. -/
def dropZeroFraction (cs : List Char) : List Char :=
  let (whole, rest) := cs.span (· != '.')
  match rest with
  | _ :: zeros => if zeros.all (· == '0') then whole else cs
  | [] => cs

/-- Read a text as an integer. -/
def integerText? (s : String) : Option Int := do
  let cs ← Decimal.dropUnderscores? (dropZeroFraction (trimBlanks s.toList))
  Decimal.integer? cs

/-- The size from which a double is not read as an integer, nor an integer as a truth value. -/
def wordLimit : Nat := Nat.pow 2 63

/-- Read an integer that must be at least one. -/
def readCount : Option Value → Reading Nat
  | none => .bad 1 "missing"
  | some (.bool b) => atLeastOne (if b then 1 else 0)
  | some (.int i) => atLeastOne i
  | some (.float x) =>
    match Number.ofFloat x with
    | .ratio a b =>
      if a % b ≠ 0 then .bad 1 "int_from_float"
      else if (a / b).natAbs < wordLimit then atLeastOne (a / b)
      else .bad 1 "int_parsing_size"
    | _ => .bad 1 "finite_number"
  | some (.text s) =>
    match integerText? s with
    | some i => atLeastOne i
    | none => .bad 1 "int_parsing"
  | some _ => .bad 1 "int_type"
where
  /-- Refuse numbers below one. -/
  atLeastOne (i : Int) : Reading Nat :=
    if 1 ≤ i then .good i.toNat else .bad 1 "greater_than_equal"

/-- Words that stand for yes. -/
def yesWords : List String := ["1", "on", "t", "true", "y", "yes"]

/-- Words that stand for no. -/
def noWords : List String := ["0", "off", "f", "false", "n", "no"]

/-- Read a truth value, which may be left out. -/
def readFlag : Option Value → Reading Bool
  | none => .good false
  | some (.bool b) => .good b
  | some (.int i) => ofInteger i
  | some (.float x) =>
    match (Number.ofFloat x).integral? with
    | some i => ofInteger i
    | none => .bad false "bool_type"
  | some (.text s) =>
    let word := Decimal.lowerAscii s.toList
    if yesWords.contains word then .good true
    else if noWords.contains word then .good false
    else .bad false "bool_parsing"
  | some _ => .bad false "bool_type"
where
  /-- Zero stands for no and one for yes. -/
  ofInteger (i : Int) : Reading Bool :=
    if i = 0 then .good false
    else if i = 1 then .good true
    else if i.natAbs < wordLimit then .bad false "bool_parsing"
    else .bad false "bool_type"

/-- Read a page. -/
def readPagination : Value → Reading Pagination
  | .object fs =>
    let page := (readCount (Record.get? fs "page")).under (.key "page")
    let size := (readCount (Record.get? fs "size")).under (.key "size")
    let count := (readFlag (Record.get? fs "count")).under (.key "count")
    ⟨⟨page.value, size.value, count.value⟩,
      page.objections ++ size.objections ++ count.objections⟩
  | _ => .bad ⟨1, 1, false⟩ "model_type"

/-- The value of a reading, refused when there are objections. -/
def Reading.accept {α : Type} (entity : String) (r : Reading α) : Outcome α :=
  if r.objections.isEmpty then pure r.value
  else throw (Reason.malformedArguments entity r.objections).fault

/-- The arguments that are no filters. -/
def reservedArguments : List String := ["sort", "pagination"]

/-- Read the filters in the order in which they are given. -/
def readFilters (entity : Entity) : List (String × Value) → Outcome (Record Filter)
  | [] => pure []
  | (key, v) :: rest => do
    if reservedArguments.contains key then readFilters entity rest
    else
      match entity.field? key with
      | none => throw (Reason.noField entity.name key).fault
      | some f =>
        let kind ← f.kind
        let filter ←
          if kind.isObject then do
            let terms ← (readTerms readPathTerm v).accept entity.name
            pure (Filter.expression terms)
          else do
            let t ← (readTerm v).accept entity.name
            pure (Filter.term t)
        let others ← readFilters entity rest
        pure ((key, filter) :: others)

/-- Read an argument that counts as absent when its value counts as false. -/
def readOptional {α : Type} (entity : String) (read : Value → Reading α) (raw : Document)
    (key : String) : Outcome (Option α) :=
  match Record.get? raw key with
  | some v =>
    if v.truthy then do
      let a ← (read v).accept entity
      pure (some a)
    else pure none
  | none => pure none

/-- Read raw list arguments: filters first, then sort terms, then the page. -/
def ListArguments.read (entity : Entity) (raw : Value) : Outcome ListArguments := do
  let fs ← match raw with
    | .object fs => pure fs
    | v => if v.truthy then throw .illTyped else pure []
  let filters ← readFilters entity fs
  let sort ← readOptional entity.name (readTerms readSortTerm) fs "sort"
  let pagination ← readOptional entity.name readPagination fs "pagination"
  pure ⟨filters, sort, pagination⟩

end EntityGraph

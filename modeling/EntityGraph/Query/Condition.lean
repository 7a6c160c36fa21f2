import EntityGraph.Query.Term
import EntityGraph.Text.Pattern

/-!
# Conditions

A filter term becomes a match condition: the value itself for equality, an object of operators
otherwise. Before that, values for calendar and clock fields become moments and values for
identifiers become references, as they do on the way into the store.
-/

namespace EntityGraph

/-- The items that a membership condition lists: of a list its items, of a text its characters, of
an object its keys. Values that count as false list nothing. -/
def operandItems (v : Value) : Outcome (List Value) :=
  if !v.truthy then pure []
  else match v with
    | .list items => pure items
    | .text s => pure (s.toList.map fun c => .text (String.ofList [c]))
    | .object fs => pure ((Record.keys fs).map .text)
    | _ => throw .illTyped

/-- The two bounds of a range. -/
def bounds (v : Value) : Outcome (Value × Value) :=
  match v with
  | .list (a :: b :: _) => pure (a, b)
  | .text s =>
    match s.toList with
    | a :: b :: _ => pure (.text (String.ofList [a]), .text (String.ofList [b]))
    | _ => throw .illTyped
  | _ => throw .illTyped

/-- The match condition of an operator with a value. -/
def buildCondition (operator : Option Operator) (v : Value) : Outcome Value :=
  match operator with
  | none => pure v
  | some .eq => pure v
  | some .lt => pure (.object [("$lt", v)])
  | some .gt => pure (.object [("$gt", v)])
  | some .lte => pure (.object [("$lte", v)])
  | some .gte => pure (.object [("$gte", v)])
  | some .ne => pure (.object [("$ne", v)])
  | some .btw => do
    let (low, high) ← bounds v
    pure (.object [("$gte", low), ("$lte", high)])
  | some .oneOf => do
    let items ← operandItems v
    pure (.object [("$in", .list items)])
  | some .noneOf => do
    let items ← operandItems v
    pure (.object [("$nin", .list items)])
  | some .like => pure (.object [("$regex", .text (Text.containsPattern v.plain))])

/-- The match condition of an operator given by name. -/
def buildNamedCondition (operator : Option String) (v : Value) : Outcome Value :=
  match operator with
  | none => buildCondition none v
  | some name =>
    match Operator.ofName? name with
    | some o => buildCondition (some o) v
    | none => throw (Reason.unknownOperator name).fault

/-- Is a key named like an identifier? -/
def isIdShaped (key : String) : Bool := ['_', 'i', 'd'].isSuffixOf key.toList

/-- Does an operator compare identifiers as such? -/
def comparesIds : Option Operator → Bool
  | none => true
  | some .eq => true
  | some .ne => true
  | some .oneOf => true
  | some .noneOf => true
  | _ => false

mutual

/-- Turn the texts of identifiers into references, in lists too. -/
def convertIds : Value → Value
  | .list items => .list (convertItems items)
  | .text s =>
    match ObjectId.ofHex? s with
    | some o => .id o
    | none => .text s
  | v => v

/-- Turn the texts of identifiers among the items into references. -/
def convertItems : List Value → List Value
  | [] => []
  | v :: rest => convertIds v :: convertItems rest

end

/-- The value of a term as it is compared with the field stored under `key`. -/
def coerceTerm (f : FieldDef) (key : String) (t : FilterTerm) : Outcome Value :=
  match f.momentType? with
  | some type => coerceMoment type.name t.value
  | none =>
    if comparesIds t.operator && (f.isIdTyped || isIdShaped key) then pure (convertIds t.value)
    else pure t.value

/-- The match condition of a term on the field stored under `key`. -/
def termCondition (f : FieldDef) (key : String) (t : FilterTerm) : Outcome Value := do
  let v ← coerceTerm f key t
  buildCondition t.operator v

end EntityGraph

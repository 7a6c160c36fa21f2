import EntityGraph.Moment.Reader
import EntityGraph.Reason

/-!
# Scalar types

The types of values that are stored as they are. Identifiers are stored as references and all
calendar and clock values as moments, so arguments and filters go through the same two conversions:
`toReference` and `coerceMoment`.
-/

namespace EntityGraph

/-- The scalar types. -/
inductive ScalarType where
  | id
  | string
  | int
  | float
  | boolean
  | dateTime
  | date
  | time
  | json
  deriving DecidableEq, Repr

namespace ScalarType

/-- The name of a scalar type. -/
def name : ScalarType → String
  | id => "ID"
  | string => "String"
  | int => "Int"
  | float => "Float"
  | boolean => "Boolean"
  | dateTime => "DateTime"
  | date => "Date"
  | time => "Time"
  | json => "JSON"

/-- All scalar types. -/
def all : List ScalarType := [id, string, int, float, boolean, dateTime, date, time, json]

/-- The scalar type of a name. -/
def ofName? (text : String) : Option ScalarType := all.find? fun t => t.name == text

/-- Calendar and clock types. -/
def isMoment : ScalarType → Bool
  | dateTime => true
  | date => true
  | time => true
  | _ => false

theorem ofName?_name (t : ScalarType) : ofName? t.name = some t := by
  cases t <;> decide +kernel

end ScalarType

/-- The moment that a single value stands for under a type; any type other than `Date` and `Time` is
read as a date with time. Truth values are no numbers here. -/
def readMoment? (type : String) (v : Value) : Option Moment :=
  let whole : Option Moment := match v with
    | .text s => Moment.ofText? s
    | .int i => Moment.ofNumber? (.ofInt i)
    | .float x => Moment.ofDouble? (.ofFloat x)
    | _ => none
  if type = ScalarType.date.name then whole.bind Moment.dateOf?
  else if type = ScalarType.time.name then
    match v with
    | .text s => Moment.timeOfText? s
    | .int i => Moment.timeOfNumber? (.ofInt i)
    | .float x => Moment.timeOfNumber? (.ofFloat x)
    | _ => none
  else whole

mutual

/-- Convert a value of a calendar or clock type to a moment. Lists are converted item by item; null
and moments stay as they are. -/
def coerceMoment (type : String) : Value → Outcome Value
  | .list items => do
    let converted ← coerceMoments type items
    pure (.list converted)
  | .null => pure .null
  | .moment m => pure (.moment m)
  | .bool b => unreadable type (.bool b)
  | .int i => single type (.int i)
  | .float x => single type (.float x)
  | .text s => single type (.text s)
  | .id o => unreadable type (.id o)
  | .object fs => unreadable type (.object fs)
  | .member e n => unreadable type (.member e n)
where
  /-- The refusal of a value. -/
  unreadable (type : String) (v : Value) : Outcome Value :=
    throw (Reason.unreadableMoment type v).fault
  /-- Convert a number or a text. -/
  single (type : String) (v : Value) : Outcome Value :=
    match readMoment? type v with
    | some m => pure (.moment m)
    | none => unreadable type v

/-- Convert the items of a list. -/
def coerceMoments (type : String) : List Value → Outcome (List Value)
  | [] => pure []
  | v :: rest => do
    let w ← coerceMoment type v
    let ws ← coerceMoments type rest
    pure (w :: ws)

end

/-- The identifier that a value is or spells. -/
def readId? : Value → Option ObjectId
  | .id o => some o
  | .text s => ObjectId.ofHex? s
  | _ => none

/-- Convert a value to a reference. An object stands for its entry `id`. -/
def toReference (v : Value) : Outcome ObjectId :=
  let inner : Value := match v with
    | .object fs => (Record.get? fs "id").getD v
    | _ => v
  match readId? inner with
  | some o => pure o
  | none => throw (Reason.unreadableId inner).fault

/-- Is the value an identifier or the text of one? -/
def isReferenceLike (v : Value) : Bool := (readId? v).isSome

end EntityGraph

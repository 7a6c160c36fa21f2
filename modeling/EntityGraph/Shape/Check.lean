import EntityGraph.Shape

/-!
# Checking arguments

`checkInput` decides whether an argument tree conforms to a shape: an object with no unknown key,
every required field present, lists where lists are expected, and members of enumerations. The
values of scalars are converted later. A refusal names the offending place, counted from the root.
-/

namespace EntityGraph

/-- Where the shapes that fields refer to are found. -/
abbrev ShapeTable := ShapeRef → Option InputShape

/-- The shape of a type, if it is one of objects. -/
def InputType.shape? (table : ShapeTable) : InputType → Option InputShape
  | .nested s => some s
  | .shape r => table r
  | _ => none

/-- The place of a field inside a place. -/
def fieldPath (path name : String) : String := if path = "" then name else path ++ "." ++ name

/-- The place of an item inside a place. -/
def itemPath (path : String) (index : Nat) : String := path ++ "[" ++ toString index ++ "]"

/-- Keys that a shape does not have. -/
def unknownKeys (s : InputShape) (args : Document) : List String :=
  (Record.keys args).filter fun k => !s.has k

/-- Check that a value is one of the texts of an enumeration. -/
def checkMember (type : InputType) (path : String) (v : Value) : Outcome Unit :=
  match type with
  | .enumeration e =>
    match v with
    | .text s =>
      if e.values.contains s then pure () else throw (Reason.notAMember path v e.name).fault
    | _ => throw (Reason.notAMember path v e.name).fault
  | _ => throw .illTyped

mutual

/-- Check an argument tree against a shape. -/
def checkInput (table : ShapeTable) (s : InputShape) (path : String) (args : Value) :
    Outcome Unit :=
  let place := if path = "" then s.name else path
  match args with
  | .object fs =>
    match unknownKeys s fs with
    | [] => checkFields table path fs s.fields
    | unknown => throw (Reason.unknownArguments place (sortTexts unknown)).fault
  | _ => throw (Reason.notAnObject place s.name).fault
termination_by (sizeOf args, 0, 0)

/-- Check the declared fields in order. -/
def checkFields (table : ShapeTable) (path : String) (fs : Document) :
    List (String × InputField) → Outcome Unit
  | [] => pure ()
  | (name, f) :: rest => do
    match h : Record.get? fs name with
    | none =>
      if f.nullable then pure ()
      else throw (Reason.missingArgument (fieldPath path name) f.declaration).fault
    | some .null =>
      if f.nullable then pure ()
      else throw (Reason.missingArgument (fieldPath path name) f.declaration).fault
    | some v =>
      have := Record.sizeOf_lt_of_get?_eq_some h
      checkValue table f (fieldPath path name) v
    checkFields table path fs rest
termination_by fields => (sizeOf fs, 2, fields.length)

/-- Check the value of a field. -/
def checkValue (table : ShapeTable) (f : InputField) (path : String) (v : Value) : Outcome Unit :=
  match f.kind with
  | .scalar => pure ()
  | .enumeration => checkMember f.type path v
  | .scalarList =>
    match v with
    | .list _ => pure ()
    | _ => throw (Reason.notAList path).fault
  | .objectList =>
    match v with
    | .list items => checkItems table f.type path 0 items
    | _ => throw (Reason.notAList path).fault
  | .id => checkObject table f.type path v
  | .object => checkObject table f.type path v
  | .delta => checkObject table f.type path v
termination_by (sizeOf v, 2, 0)

/-- Check a value against the shape of a type. -/
def checkObject (table : ShapeTable) (type : InputType) (path : String) (v : Value) :
    Outcome Unit :=
  match type.shape? table with
  | some s => checkInput table s path v
  | none => throw .illTyped
termination_by (sizeOf v, 1, 0)

/-- Check the items of a list, which are counted from `index`. -/
def checkItems (table : ShapeTable) (type : InputType) (path : String) (index : Nat) :
    List Value → Outcome Unit
  | [] => pure ()
  | v :: rest => do
    checkObject table type (itemPath path index) v
    checkItems table type path (index + 1) rest
termination_by items => (sizeOf items, 0, 0)

end

end EntityGraph

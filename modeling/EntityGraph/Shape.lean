import EntityGraph.Schema.Entity
import EntityGraph.Text.Name

/-!
# Input shapes

A **shape** is a named, ordered set of input fields: what the arguments of a write may look like.
Shapes refer to each other, in cycles too, so a field's type names the shape it refers to
(`ShapeRef`); only hand-made shapes are nested. A shape is open while fields are attached to it and
sealed afterwards.
-/

namespace EntityGraph

/-- The kinds of input fields. -/
inductive InputKind where
  | scalar
  | enumeration
  | scalarList
  /-- a reference to a document by its identifier -/
  | id
  /-- an embedded object -/
  | object
  | objectList
  /-- changes to a list of related documents -/
  | delta
  deriving DecidableEq, Repr

namespace InputKind

/-- The name of a kind. -/
def name : InputKind → String
  | scalar => "scalar"
  | enumeration => "enum"
  | scalarList => "scalar_list"
  | id => "id"
  | object => "object"
  | objectList => "object_list"
  | delta => "delta"

/-- All kinds. -/
def all : List InputKind := [scalar, enumeration, scalarList, id, object, objectList, delta]

/-- The kind of a name. -/
def ofName? (text : String) : Option InputKind := all.find? fun k => k.name == text

/-- Kinds whose values are lists. -/
def isList : InputKind → Bool
  | scalarList => true
  | objectList => true
  | _ => false

end InputKind

/-- A shape that belongs to the service as a whole. -/
inductive ShapeRef where
  /-- the shape of a reference -/
  | reference
  /-- the arguments that create an entity -/
  | add (entity : String)
  /-- the arguments that update an entity -/
  | update (entity : String)
  /-- the changes to a list of related documents, in the arguments that create or update its
  owner -/
  | delta (inUpdate : Bool) (entity field : String)
  deriving DecidableEq

/-- An input field, with types from `τ`. -/
structure InputFieldOf (τ : Type) where
  name : String
  kind : InputKind
  type : τ
  nullable : Bool
  description : Value

/-- A shape whose fields have types from `τ`. -/
structure ShapeOf (τ : Type) where
  name : String
  fields : List (String × InputFieldOf τ)
  isSealed : Bool

/-- What an input field accepts. -/
inductive InputType where
  | named (name : String)
  | enumeration (e : Enumeration)
  | nested (shape : ShapeOf InputType)
  | shape (ref : ShapeRef)

/-- A field of a shape. -/
abbrev InputField := InputFieldOf InputType

/-- A named, ordered set of input fields. -/
abbrev InputShape := ShapeOf InputType

/-! ## Names -/

/-- The name of the changes to a list of related documents. -/
def deltaName (kindLetter entity field : String) : String :=
  "OneToMany" ++ kindLetter ++ entity ++ Text.pascalCase field

/-- The letter that tells the changes inside an update from those inside a creation. -/
def deltaLetter (inUpdate : Bool) : String := if inUpdate then "U" else "A"

/-- The name of a shape. -/
def ShapeRef.name : ShapeRef → String
  | reference => "IdInput"
  | add e => e ++ "Input"
  | update e => e ++ "InputForUpdate"
  | delta u e f => deltaName (deltaLetter u) e f

/-- The name of a type. -/
def InputType.name : InputType → String
  | named n => n
  | enumeration e => e.name
  | nested s => s.name
  | shape r => r.name

/-- The declaration of a field in a schema definition. -/
def InputField.declaration (f : InputField) : String :=
  let type := if f.kind.isList then "[" ++ f.type.name ++ "]" else f.type.name
  f.name ++ ": " ++ type ++ (if f.nullable then "" else "!")

namespace InputShape

/-- A shape without fields, still open. -/
def empty (name : String) : InputShape := ⟨name, [], false⟩

/-- Add a field, or replace the field of its name. A sealed shape takes none. -/
def addField (s : InputShape) (f : InputField) : Outcome InputShape :=
  if s.isSealed then throw (Reason.shapeSealed s.name).fault
  else pure { s with fields := Record.put s.fields f.name f }

/-- The shape with the given fields, still open. -/
def ofFields (name : String) (fields : List InputField) : InputShape :=
  ⟨name, fields.foldl (fun acc f => Record.put acc f.name f) [], false⟩

/-- The shape, closed to further fields. -/
def close (s : InputShape) : InputShape := { s with isSealed := true }

/-- Does the shape have a field? -/
def has (s : InputShape) (name : String) : Bool := Record.has s.fields name

/-- The field of a name. -/
def field? (s : InputShape) (name : String) : Option InputField := Record.get? s.fields name

/-- The shape as an input block of a schema definition. -/
def definition (s : InputShape) : String :=
  Text.join "\n" (("input " ++ s.name ++ " \x7b") ::
    s.fields.map (fun e => "  " ++ InputField.declaration e.2) ++ ["\x7d"])

/-- The shape in one line. -/
def summary (s : InputShape) : String :=
  "InputShape(" ++ Text.quoted s.name ++ ", fields=" ++
    Text.quotedList (Record.keys s.fields) ++ ")"

/-- The shape of a reference: an object with an identifier. -/
def reference : InputShape :=
  close (ofFields "IdInput"
    [⟨"id", .scalar, .named ScalarType.string.name, false, .null⟩])

/-- The changes to a list of related documents: items to add, to update and to delete. -/
def delta (kindLetter entity field : String) (add update : InputType) : InputShape :=
  close (ofFields (deltaName kindLetter entity field)
    [⟨"added", .objectList, add, true, .null⟩,
     ⟨"updated", .objectList, update, true, .null⟩,
     ⟨"deleted", .scalarList, .named ScalarType.id.name, true, .null⟩])

end InputShape

end EntityGraph

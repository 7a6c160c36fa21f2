import EntityGraph.Schema.Scalar

/-!
# Entities

An entity is a named list of fields with distinct names. A field holds scalars, members of an
enumeration, or objects of another entity; object fields carry a relation, which says whether the
objects live inside the owner's document or in a collection of their own. `FieldDef.kind` sorts
fields into the seven kinds on which everything else branches.
-/

namespace EntityGraph

/-- A named list of allowed texts. -/
structure Enumeration where
  name : String
  values : List String
  deriving DecidableEq

/-- What a field holds. -/
inductive FieldType where
  | scalar (type : ScalarType)
  | enumeration (e : Enumeration)
  /-- objects of the named entity -/
  | entity (name : String)
  /-- a value that names no type, such as null: the objects of an entity that nobody knows -/
  | unnamed (v : Value)

/-- The field type that a type name stands for: a scalar type, or else an entity. -/
def FieldType.ofName (name : String) : FieldType :=
  match ScalarType.ofName? name with
  | some t => .scalar t
  | none => .entity name

/-- The relation of an object field. -/
structure Relation where
  /-- do the objects live inside the owner's document? -/
  embedded : Bool
  /-- the key that links documents: on the owner for a single object, on the related documents for a
  list -/
  connectionField : String
  /-- the field of the related entity that stands for it on display -/
  displayField : Value

/-- A field of an entity. -/
structure FieldDef where
  name : String
  type : FieldType
  many : Bool
  nullable : Bool
  readOnly : Bool
  unique : Bool
  relation : Option Relation
  description : Value

/-- The kinds of fields. -/
inductive FieldKind where
  | scalar
  | enumeration
  | scalarList
  | embeddedObject
  | referencedObject
  | embeddedList
  | referencedList
  deriving DecidableEq, Repr

namespace FieldKind

/-- The name of a kind. -/
def name : FieldKind → String
  | scalar => "scalar"
  | enumeration => "enum"
  | scalarList => "scalar_list"
  | embeddedObject => "embedded_object"
  | referencedObject => "referenced_object"
  | embeddedList => "embedded_list"
  | referencedList => "referenced_list"

/-- All kinds. -/
def all : List FieldKind :=
  [scalar, enumeration, scalarList, embeddedObject, referencedObject, embeddedList, referencedList]

/-- Kinds of fields that hold objects of another entity. -/
def isObject : FieldKind → Bool
  | scalar => false
  | enumeration => false
  | scalarList => false
  | _ => true

end FieldKind

namespace FieldDef

/-- Is this the field that identifies a document? -/
def isIdentifier (f : FieldDef) : Bool := f.name == "id"

/-- The entity that an object field holds objects of. -/
def target (f : FieldDef) : Option String :=
  match f.type with
  | .entity name => some name
  | .unnamed .null => none
  | .unnamed v => some v.plain
  | _ => none

/-- The scalar type of the field's values; members of an enumeration are texts. -/
def scalarType (f : FieldDef) : Option ScalarType :=
  match f.type with
  | .scalar t => some t
  | .enumeration _ => some .string
  | _ => none

/-- Does the field hold identifiers? -/
def isIdTyped (f : FieldDef) : Bool :=
  match f.type with
  | .scalar t => t == .id
  | _ => false

/-- The calendar or clock type of the field. -/
def momentType? (f : FieldDef) : Option ScalarType :=
  match f.type with
  | .scalar t => if t.isMoment then some t else none
  | _ => none

/-- The kind of the field. An object field needs a relation, and a reference a connection field. -/
def kind (f : FieldDef) : Outcome FieldKind :=
  match f.type with
  | .enumeration _ => pure (if f.many then .scalarList else .enumeration)
  | .scalar _ => pure (if f.many then .scalarList else .scalar)
  | _ =>
    match f.relation with
    | none => throw (Reason.relationMissing f.name).fault
    | some r =>
      if r.embedded then pure (if f.many then .embeddedList else .embeddedObject)
      else if r.connectionField = "" then throw (Reason.connectionMissing f.name).fault
      else pure (if f.many then .referencedList else .referencedObject)

/-- The kind of the field, if it can be told. -/
def kind? (f : FieldDef) : Option FieldKind := f.kind.toOption

/-- The connection field of the relation. -/
def connectionField (f : FieldDef) : String := (f.relation.map (·.connectionField)).getD ""

/-- The key under which a document keeps the field. -/
def storedKey (f : FieldDef) : String :=
  match f.relation with
  | some r => if r.embedded || f.many then f.name else r.connectionField
  | none => f.name

end FieldDef

/-- A function on fields given kind by kind, possibly not for all of them. -/
structure FieldVisitor (α : Type) where
  /-- what the function is called in messages -/
  name : String
  /-- the function on the fields of a kind -/
  handler? : FieldKind → Option (FieldDef → α)

/-- Apply the function for the field's kind. -/
def FieldVisitor.visit {α : Type} (v : FieldVisitor α) (f : FieldDef) : Outcome α := do
  let kind ← f.kind
  match v.handler? kind with
  | some handle => pure (handle f)
  | none => throw (.undefined (v.name ++ " does not handle " ++ kind.name ++ " fields"))

/-! ## Entities -/

/-- Texts in the order of their characters. -/
def sortTexts (texts : List String) : List String := texts.mergeSort fun a b => decide (a ≤ b)

/-- The texts that occur more than once, each once, in the order of first occurrence. -/
def repeated : List String → List String
  | [] => []
  | s :: rest =>
    let later := repeated rest
    if rest.contains s then s :: later.filter (· != s) else later

/-- A named list of fields with distinct names. -/
structure Entity where
  name : String
  fields : List FieldDef
  description : Value
  /-- no two fields have the same name -/
  names_nodup : (fields.map FieldDef.name).Nodup

namespace Entity

/-- The entity with the given fields, refused when a name occurs twice. -/
def ofFields (name : String) (fields : List FieldDef) (description : Value) : Outcome Entity :=
  if h : (fields.map FieldDef.name).Nodup then pure ⟨name, fields, description, h⟩
  else throw (Reason.duplicateFields name (sortTexts (repeated (fields.map FieldDef.name)))).fault

/-- The field of a name. -/
def field? (e : Entity) (name : String) : Option FieldDef := e.fields.find? fun f => f.name == name

/-- The identifier field, when it is declared with the identifier type. -/
def idField? (e : Entity) : Option FieldDef := (e.field? "id").filter FieldDef.isIdTyped

end Entity

/-! ## State machines -/

/-- A transition that is guarded by the state it starts from. -/
structure StateAction where
  source : Value
  target : Value
  description : Value

/-- The states that an entity moves through by named actions. -/
structure StateMachine where
  initial : Value
  actions : Record StateAction

/-- States are stored by name. -/
def stateName : Value → Value
  | .member _ name => .text name
  | v => v

/-- The field that holds the state. -/
def stateField : String := "state"

/-- The kinds of operations that validators are registered for. -/
inductive Operation where
  | create
  | update
  | delete
  deriving DecidableEq, Repr

end EntityGraph

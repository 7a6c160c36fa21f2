import EntityGraph.Registry
import EntityGraph.Text.Pattern

/-!
# Schema documents

A schema document declares enumerations and entities as nested objects. Compiling it collects every
flaw in the order of the document; only a document without flaws has a schema. Parts that are no
objects where objects are expected cannot be compiled at all.
-/

namespace EntityGraph

/-- What can be wrong in a schema document. -/
inductive Flaw where
  | enumerationShadowsScalar (name : String)
  | enumerationWithoutValues (name : String)
  | noEntities
  | noFields
  | unknownFieldKeys (keys : List String)
  | unknownType (type : Value)
  | relationMissing
  | relationMisplaced
  | unknownRelationKeys (keys : List Value)
  | connectionMissing
  | stateFieldMissing
  | initialMissing
  | unknownState (state : Value) (place : String)
  | actionIncomplete (action : String)

/-- The wording of a flaw. -/
def Flaw.message : Flaw → String
  | enumerationShadowsScalar name => "Enum '" ++ name ++ "' shadows a scalar type"
  | enumerationWithoutValues name => "Enum '" ++ name ++ "' must list its values"
  | noEntities => "No entities defined"
  | noFields => "No fields defined"
  | unknownFieldKeys keys => "Unknown field keys " ++ Text.quotedList keys
  | unknownType type => "Unknown type '" ++ type.plain ++ "'"
  | relationMissing => "Object field does not define a relation"
  | relationMisplaced => "Only object fields may declare a relation"
  | unknownRelationKeys keys => "Unknown relation keys " ++ (Value.list keys).literal
  | connectionMissing => "Referenced relation missing 'connection_field'"
  | stateFieldMissing => "State machine requires a 'state' field"
  | initialMissing => "State machine missing 'initial'"
  | unknownState state place => "Unknown state '" ++ state.plain ++ "' in " ++ place
  | actionIncomplete action => "Action '" ++ action ++ "' needs 'from' and 'to'"

/-- A flaw with the entity and field that it is found at. -/
structure SchemaError where
  entity : Option String
  field : Option String
  flaw : Flaw

/-- The error with its place in front. -/
def SchemaError.text (e : SchemaError) : String :=
  let parts := (e.entity.toList ++ e.field.toList).filter (· != "")
  let place := if parts.isEmpty then "global" else Text.join "." parts
  "[" ++ place ++ "] " ++ e.flaw.message

/-- A compiled entity with its options as the document gives them. -/
structure EntitySpec where
  entity : Entity
  hasEndpoints : Bool
  collection : Value
  single : Value
  list : Value
  machine : Option StateMachine

/-- A compiled schema document. -/
structure SchemaDocument where
  enumerations : Record Enumeration
  entities : Record EntitySpec

/-- A compilation: it notes errors as it goes on. -/
abbrev Compilation (α : Type) := StateT (List SchemaError) Outcome α

namespace SchemaDocument

/-- Note an error. -/
def flawed (entity field : Option String) (flaw : Flaw) : Compilation Unit :=
  modify fun errors => errors ++ [⟨entity, field, flaw⟩]

/-- The object that a part must be. What counts as false is an empty object. -/
def objectOrEmpty (v : Option Value) : Outcome Document :=
  match v with
  | none => pure []
  | some (.object fs) => pure fs
  | some v => if v.truthy then throw .illTyped else pure []

/-- Is a switch on? One that is absent is as `standard`. -/
def switch (fs : Document) (key : String) (standard : Bool) : Bool :=
  ((Record.get? fs key).map Value.truthy).getD standard

/-- A part as it is given, or null. -/
def part (fs : Document) (key : String) : Value := (Record.get? fs key).getD .null

/-- Compile the enumerations. -/
def compileEnumerations : List (String × Value) → Compilation (Record Enumeration)
  | [] => pure []
  | (name, v) :: rest => do
    let first ← (
      if (ScalarType.ofName? name).isSome then do
        flawed none none (.enumerationShadowsScalar name)
        pure []
      else
        match v with
        | .list (item :: items) => pure [(name, ⟨name, (item :: items).map Value.plain⟩)]
        | _ => do
          flawed none none (.enumerationWithoutValues name)
          pure [])
    let others ← compileEnumerations rest
    pure (first ++ others)

/-- The keys that a field may have. -/
def fieldKeys : List String :=
  ["type", "many", "nullable", "read_only", "unique", "relation", "description"]

/-- The keys that a relation may have. -/
def relationKeys : List String := ["embedded", "connection_field", "display_field"]

/-- The keys of a part, where a text has its characters as keys and a list its items. -/
def looseKeys : Value → Outcome (List Value)
  | .object fs => pure ((Record.keys fs).map .text)
  | .text s => pure (s.toList.map fun c => .text (String.ofList [c]))
  | .list items => if items.all Value.isKey then pure items else throw .illTyped
  | _ => throw .illTyped

/-- Values in order, each once, refused when some have no order. -/
def sortedOnce (vs : List Value) : Outcome (List Value) :=
  let once := vs.foldl (fun acc v => if v.isIn acc then acc else acc ++ [v]) []
  if once.all fun a => once.all fun b => a.eq b || (a.lt? b).isSome then
    pure (once.mergeSort fun a b => !(b.lt? a).getD false)
  else throw .illTyped

/-- Is the value one of the keys that a relation may have? -/
def isRelationKey : Value → Bool
  | .text s => relationKeys.contains s
  | _ => false

/-- The name of the key that a value is: its text, but an identifier, whose text may be empty, is
written out. -/
def keyName : Value → String
  | .id o => (Value.id o).literal
  | v => v.plain

/-- Compile the relation of an object field. -/
def compileRelation (entity field : String) (raw : Value) : Compilation (Option Relation) := do
  let keys ← looseKeys raw
  let unknown ← sortedOnce (keys.filter fun k => !isRelationKey k)
  if !unknown.isEmpty then
    flawed (some entity) (some field) (.unknownRelationKeys unknown)
    pure none
  else
    let fs ← objectOrEmpty (some raw)
    let embedded := switch fs "embedded" false
    let connection := part fs "connection_field"
    if !embedded && !connection.truthy then
      flawed (some entity) (some field) .connectionMissing
      pure none
    else
      pure (some ⟨embedded, if connection.truthy then keyName connection else "",
        part fs "display_field"⟩)

/-- What a type name stands for: a scalar type, else an enumeration, else an entity. -/
def fieldType? (enumerations : Record Enumeration) (entities : List String) (type : Value) :
    Option FieldType :=
  match type with
  | .text name =>
    match ScalarType.ofName? name with
    | some t => some (.scalar t)
    | none =>
      match Record.get? enumerations name with
      | some e => some (.enumeration e)
      | none => if entities.contains name then some (.entity name) else none
  | _ => none

/-- Is the value the name of a declared entity? -/
def namesEntity (entities : List String) : Value → Bool
  | .text name => entities.contains name
  | _ => false

/-- Compile the relation that a field of the type must or must not have. `none` drops the field. -/
def compileFieldRelation (entities : List String) (entity field : String) (type raw : Value) :
    Compilation (Option (Option Relation)) := do
  if namesEntity entities type then
    if !raw.truthy then
      flawed (some entity) (some field) .relationMissing
      pure none
    else
      let relation ← compileRelation entity field raw
      pure (relation.map some)
  else
    if raw.truthy then flawed (some entity) (some field) .relationMisplaced
    pure (some none)

/-- Compile a field. -/
def compileField (enumerations : Record Enumeration) (entities : List String)
    (entity field : String) (raw : Value) : Compilation (Option FieldDef) := do
  let fs ← objectOrEmpty (some raw)
  let unknown := (Record.keys fs).filter fun k => !fieldKeys.contains k
  if !unknown.isEmpty then
    flawed (some entity) (some field) (.unknownFieldKeys (sortTexts unknown))
  let type := part fs "type"
  if !type.isKey then throw .illTyped
  match fieldType? enumerations entities type with
  | none =>
    flawed (some entity) (some field) (.unknownType type)
    pure none
  | some fieldType =>
    let relation ← compileFieldRelation entities entity field type (part fs "relation")
    pure (relation.map fun relation => {
      name := field
      type := fieldType
      many := switch fs "many" false
      nullable := switch fs "nullable" true
      readOnly := switch fs "read_only" false
      unique := switch fs "unique" false
      relation := relation
      description := part fs "description" })

/-- Compile the fields that can be compiled. -/
def compileFields (enumerations : Record Enumeration) (entities : List String) (entity : String) :
    List (String × Value) → Compilation (List FieldDef)
  | [] => pure []
  | (name, raw) :: rest => do
    let first ← compileField enumerations entities entity name raw
    let others ← compileFields enumerations entities entity rest
    pure (first.toList ++ others)

/-- The states that are known, when the state field holds members of an enumeration. -/
def knownStates? (f : FieldDef) : Option (List String) :=
  match f.type with
  | .enumeration e => some e.values
  | _ => none

/-- Check that a state is known. -/
def checkState (entity : String) (known : Option (List String)) (state : Value) (place : String) :
    Compilation Unit := do
  match known with
  | none => pure ()
  | some names =>
    if !state.isKey then throw .illTyped
    let isKnown := match state with
      | .text s => names.contains s
      | _ => false
    if !isKnown then flawed (some entity) (some stateField) (.unknownState state place)

/-- Does a part have a key? Texts have the texts that occur in them, lists their items. -/
def hasKey (v : Value) (key : String) : Outcome Bool :=
  match v with
  | .object fs => pure (Record.has fs key)
  | .text s => pure (Text.occursIn key.toList s.toList)
  | .list items => pure ((Value.text key).isIn items)
  | _ => throw .illTyped

/-- Compile an action. -/
def compileAction (entity : String) (known : Option (List String)) (name : String) (raw : Value) :
    Compilation (Option StateAction) := do
  let raw := if raw.truthy then raw else .object []
  let hasSource ← hasKey raw "from"
  let hasTarget ← if hasSource then hasKey raw "to" else pure false
  if !hasTarget then
    flawed (some entity) none (.actionIncomplete name)
    pure none
  else
    let fs ← objectOrEmpty (some raw)
    let place := "action '" ++ name ++ "'"
    checkState entity known (part fs "from") place
    checkState entity known (part fs "to") place
    pure (some ⟨part fs "from", part fs "to", part fs "description"⟩)

/-- Compile the actions that can be compiled. -/
def compileActions (entity : String) (known : Option (List String)) :
    List (String × Value) → Compilation (Record StateAction)
  | [] => pure []
  | (name, raw) :: rest => do
    let first ← compileAction entity known name raw
    let others ← compileActions entity known rest
    pure ((first.map fun a => (name, a)).toList ++ others)

/-- Compile a state machine. -/
def compileMachine (entity : Entity) (raw : Value) : Compilation (Option StateMachine) := do
  match entity.field? stateField with
  | none =>
    flawed (some entity.name) none .stateFieldMissing
    pure none
  | some f =>
    let fs ← objectOrEmpty (some raw)
    let initial := part fs "initial"
    if !initial.truthy then
      flawed (some entity.name) none .initialMissing
      pure none
    else
      let known := knownStates? f
      checkState entity.name known initial "initial"
      let rawActions ← objectOrEmpty (Record.get? fs "actions")
      let actions ← compileActions entity.name known rawActions
      pure (some ⟨initial, actions⟩)

/-- Compile an entity. -/
def compileEntity (enumerations : Record Enumeration) (entities : List String) (name : String)
    (raw : Value) : Compilation (Option EntitySpec) := do
  let fs ← objectOrEmpty (some raw)
  let rawFields ← objectOrEmpty (Record.get? fs "fields")
  if rawFields.isEmpty then
    flawed (some name) none .noFields
    pure none
  else
    let fields ← compileFields enumerations entities name rawFields
    let endpoint := (Record.get? fs "endpoint").getD (.bool true)
    let names := (endpoint.fields?).getD []
    let entity ← Entity.ofFields name fields (part fs "description")
    let rawMachine := part fs "state_machine"
    let machine ← if rawMachine.truthy then compileMachine entity rawMachine else pure none
    pure (some {
      entity := entity
      hasEndpoints := endpoint.truthy
      collection := part fs "collection"
      single := part names "single"
      list := part names "list"
      machine := machine })

/-- Compile the entities that can be compiled. -/
def compileEntities (enumerations : Record Enumeration) (entities : List String) :
    List (String × Value) → Compilation (Record EntitySpec)
  | [] => pure []
  | (name, raw) :: rest => do
    let first ← compileEntity enumerations entities name raw
    let others ← compileEntities enumerations entities rest
    pure ((first.map fun s => (name, s)).toList ++ others)

/-- Compile a whole document. -/
def compileDocument (document : Value) : Compilation SchemaDocument := do
  match document with
  | .object fs =>
    let rawEnumerations ← objectOrEmpty (Record.get? fs "enums")
    let enumerations ← compileEnumerations rawEnumerations
    let rawEntities ← objectOrEmpty (Record.get? fs "entities")
    if rawEntities.isEmpty then flawed none none .noEntities
    let entities ← compileEntities enumerations (Record.keys rawEntities) rawEntities
    pure ⟨enumerations, entities⟩
  | _ => throw .illTyped

/-- The outcome of a compilation: a schema, or the errors of the document. -/
inductive Result where
  | compiled (schema : SchemaDocument)
  | rejected (errors : List SchemaError)

/-- Compile a schema document. -/
def compile (document : Value) : Outcome Result := do
  let (schema, errors) ← (compileDocument document).run []
  pure (if errors.isEmpty then .compiled schema else .rejected errors)

/-- Compile a schema document that must not have errors. -/
def compileStrictly (document : Value) : Outcome SchemaDocument := do
  match ← compile document with
  | .compiled schema => pure schema
  | .rejected errors => throw (Reason.schemaRejected (errors.map SchemaError.text)).fault

/-- The name that an option gives; one that counts as false gives none. -/
def givenName? (v : Value) : Option String := if v.truthy then some v.plain else none

/-- Register an entity of a schema. -/
def registerEntity (r : Registry) (s : EntitySpec) : Outcome Registry :=
  if s.hasEndpoints then
    r.connect s.entity ⟨givenName? s.collection, givenName? s.single, givenName? s.list, s.machine⟩
  else r.addEmbedded s.entity

/-- Register the entities of a schema, in order. -/
def register (schema : SchemaDocument) (r : Registry) : Outcome Registry :=
  schema.entities.foldlM (fun r e => registerEntity r e.2) r

end SchemaDocument

end EntityGraph

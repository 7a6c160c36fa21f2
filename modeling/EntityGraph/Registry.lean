import EntityGraph.Shape

/-!
# The registry

The registry holds what a service knows of each entity: its fields, its collection, the names of its
endpoints, its states, and, once the registry is finalized, the shapes of its arguments. It also
holds the custom mutations. It is plain data: what user code does at run time is kept apart.
-/

namespace EntityGraph

/-- The shapes of an entity's arguments. -/
structure ShapePair where
  add : InputShape
  update : InputShape

/-- What the service knows of an entity. -/
structure Descriptor where
  entity : Entity
  collection : String
  /-- the endpoint that gets one document; entities that are only embedded have none -/
  single : Option String
  /-- the endpoint that lists documents -/
  list : Option String
  machine : Option StateMachine
  /-- does the entity have a collection of its own? -/
  hasEndpoints : Bool
  shapes : Option ShapePair
  /-- fields that only the state machine writes -/
  machineOwned : List String

/-- The name of an entity. -/
def Descriptor.name (d : Descriptor) : String := d.entity.name

/-- A custom mutation. -/
structure Mutation where
  name : String
  description : Value
  inputShape : Option InputShape
  output : Value

/-- How an entity is to be registered. -/
structure Connection where
  collection : Option String
  single : Option String
  list : Option String
  machine : Option StateMachine

/-- The entities and custom mutations of a service. -/
structure Registry where
  descriptors : Record Descriptor
  mutations : Record Mutation
  /-- does every entity have its shapes? -/
  finalized : Bool

namespace Registry

/-- The registry without entities. -/
def empty : Registry := ⟨[], [], false⟩

/-- Is an entity registered? -/
def has (r : Registry) (name : String) : Bool := Record.has r.descriptors name

/-- The descriptor of an entity. -/
def lookup (r : Registry) (name : String) : Outcome Descriptor :=
  match Record.get? r.descriptors name with
  | some d => pure d
  | none => throw (Reason.unknownEntity name).fault

/-- The descriptor of a relation's target; `referrer` names the relation on failure. -/
def require (r : Registry) (target : Option String) (referrer : String) : Outcome Descriptor :=
  match target with
  | none => throw (Reason.unknownTarget referrer Value.null.plain).fault
  | some name =>
    match Record.get? r.descriptors name with
    | some d => if name = "" then throw (Reason.unknownTarget referrer name).fault else pure d
    | none => throw (Reason.unknownTarget referrer name).fault

/-- The custom mutation of a name. -/
def mutation (r : Registry) (name : String) : Outcome Mutation :=
  match Record.get? r.mutations name with
  | some m => pure m
  | none => throw (Reason.unknownMutation name).fault

/-- The kinds of the fields, refused at the first field that has none. -/
def classify : List FieldDef → Outcome Unit
  | [] => pure ()
  | f :: rest => do
    let _ ← f.kind
    classify rest

/-- Add a descriptor. Defects of its relations surface here. -/
def add (r : Registry) (d : Descriptor) : Outcome Registry := do
  if r.has d.name then throw (Reason.duplicateEntity d.name).fault
  classify d.entity.fields
  pure { r with descriptors := Record.put r.descriptors d.name d, finalized := false }

/-- A name, unless it is missing or empty. -/
def given? (name : Option String) : Option String := name.filter (· != "")

/-- Register an entity with a collection and endpoints of its own. The endpoint names default to the
entity's name with a small first letter, and its plural. -/
def connect (r : Registry) (entity : Entity) (c : Connection) : Outcome Registry := do
  if c.machine.isSome && (entity.field? stateField).isNone then
    throw (Reason.stateFieldMissing entity.name stateField).fault
  let single ← match given? c.single with
    | some name => pure name
    | none =>
      match Text.lowerFirst? entity.name with
      | some name => pure name
      | none => throw .illTyped
  r.add {
    entity := entity
    collection := (given? c.collection).getD entity.name
    single := some single
    list := some ((given? c.list).getD (single ++ "s"))
    machine := c.machine
    hasEndpoints := true
    shapes := none
    machineOwned := [] }

/-- Register an entity that only lives inside other documents. -/
def addEmbedded (r : Registry) (entity : Entity) : Outcome Registry :=
  r.add {
    entity := entity
    collection := entity.name
    single := none
    list := none
    machine := none
    hasEndpoints := false
    shapes := none
    machineOwned := [] }

/-- Register a custom mutation. -/
def addMutation (r : Registry) (m : Mutation) : Outcome Registry :=
  if Record.has r.mutations m.name then throw (Reason.duplicateMutation m.name).fault
  else pure { r with mutations := Record.put r.mutations m.name m }

/-- Change the descriptor of a name. -/
def change (r : Registry) (name : String) (change : Descriptor → Descriptor) : Registry :=
  match Record.get? r.descriptors name with
  | some d => { r with descriptors := Record.put r.descriptors name (change d) }
  | none => r

/-! ## Shapes -/

/-- The shape that a reference names. The changes to a list of related documents are built on demand
from the relation. -/
def shape? (r : Registry) : ShapeRef → Option InputShape
  | .reference => some InputShape.reference
  | .add e => ((Record.get? r.descriptors e).bind (·.shapes)).map (·.add)
  | .update e => ((Record.get? r.descriptors e).bind (·.shapes)).map (·.update)
  | .delta u e f => do
    let d ← Record.get? r.descriptors e
    let field ← d.entity.field? f
    let target ← field.target
    some (InputShape.delta (deltaLetter u) e f (.shape (.add target)) (.shape (.update target)))

/-- Add a field to the shape that a reference names. -/
def addShapeField (r : Registry) (ref : ShapeRef) (f : InputField) : Outcome Registry :=
  match r.shape? ref with
  | none => throw .illTyped
  | some s => do
    let s ← s.addField f
    match ref with
    | .add e => pure (r.change e fun d => { d with shapes := d.shapes.map ({ · with add := s }) })
    | .update e =>
      pure (r.change e fun d => { d with shapes := d.shapes.map ({ · with update := s }) })
    | _ => pure r

/-- Replace the shapes of an entity by closed ones. -/
def attachShapes (r : Registry) (name : String) (add update : InputShape) : Outcome Registry :=
  if add.isSealed && update.isSealed then
    pure (r.change name fun d => { d with shapes := some ⟨add, update⟩ })
  else throw (Reason.shapesOpen name).fault

end Registry

end EntityGraph

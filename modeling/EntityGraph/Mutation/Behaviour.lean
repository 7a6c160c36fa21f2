import EntityGraph.Transaction

/-!
# User code

The parts of a service that its users write: validators of fields and entities, hooks around writes,
side effects of state actions, and custom mutations. All of them run inside the transaction of the
operation that they belong to, on the same state, and receive the session to pass on. Hooks, effects
and custom mutations may also call the operations of the service (`Operations`).

Validators and hooks (`FieldCheck`, `EntityCheck`, `Hooks`) get the arguments as a value. They read
it, and cannot edit it: what a validator or a hook leaves in the arguments that it was handed, where
these are the call's own, is not described here. Only side effects and custom mutations (`Effect`,
`Callback`) run on the arguments of the call themselves, and every further attempt finds what they
left there.
-/

namespace EntityGraph

/-- The operations of the service as user code may call them. With a session an operation runs in
its transaction, without one in a transaction of its own. -/
structure Operations (τ S : Type) where
  /-- add a document -/
  save : (entity : String) → (args : Value) → Option S → Action τ Value
  /-- change a document -/
  update : (entity : String) → (args : Value) → Option S → Action τ Value
  /-- remove a document -/
  delete : (entity : String) → (id : Value) → Option S → Action τ Value
  /-- move a document to another state -/
  changeState : (entity action : String) → (args : Value) → Option S → Action τ Value

/-- A validator of a field: it accepts the raw argument or raises. It is given the entity and field
names, and null for an argument that is absent. -/
abbrev FieldCheck (τ S : Type) := (entity field : String) → Value → S → Action τ Unit

/-- A validator of an entity: it accepts the raw arguments and the document made from them or
raises. The document it returns replaces the one it was given. -/
abbrev EntityCheck (τ S : Type) :=
  (entity : String) → (args : Value) → Document → S → Action τ Document

/-- Hooks around the writes of an entity. What a hook returns replaces the document or the changes
that it was given. -/
structure Hooks (τ S : Type) where
  /-- before a new document is stored -/
  onSaving : Operations τ S → Document → (args : Value) → S → Action τ Document
  /-- after a new document and its children are stored -/
  onSaved : Operations τ S → Document → (args : Value) → S → Action τ Document
  /-- before changes to a document are stored -/
  onUpdating : Operations τ S → (id : Value) → Document → (args : Value) → S → Action τ Document
  /-- after changes to a document are stored -/
  onUpdated : Operations τ S → Option Document → (args : Value) → S → Action τ (Option Document)
  /-- before a document is removed -/
  onDelete : Operations τ S → Document → S → Action τ Unit

/-- Hooks that do nothing. -/
def Hooks.none {τ S : Type} : Hooks τ S where
  onSaving _ d _ _ := pure d
  onSaved _ d _ _ := pure d
  onUpdating _ _ d _ _ := pure d
  onUpdated _ d _ _ := pure d
  onDelete _ _ _ := pure ()

/-- The side effect of a state action. It runs on the state together with the arguments of the call,
which it may edit. -/
abbrev Effect (τ S : Type) := Operations τ S → S → Action (τ × Value) Unit

/-- A custom mutation. It runs on the state together with its arguments, which it may edit. -/
abbrev Callback (τ S : Type) := Operations τ S → S → Action (τ × Value) Value

/-- The user code of one entity. -/
structure EntityBehaviour (τ S : Type) where
  /-- the validators of a field for a kind of operation -/
  fieldChecks : Operation → (field : String) → List (FieldCheck τ S)
  /-- the validators of the entity for a kind of operation -/
  entityChecks : Operation → List (EntityCheck τ S)
  hooks : Hooks τ S
  /-- the side effect of a state action -/
  effect? : (action : String) → Option (Effect τ S)

/-- No user code. -/
def EntityBehaviour.none {τ S : Type} : EntityBehaviour τ S where
  fieldChecks _ _ := []
  entityChecks _ := []
  hooks := .none
  effect? _ := Option.none

/-- The user code of a service. -/
structure Behaviour (τ S : Type) where
  entity : (name : String) → EntityBehaviour τ S
  mutation : (name : String) → Callback τ S

end EntityGraph

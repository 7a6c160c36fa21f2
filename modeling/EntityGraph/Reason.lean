import EntityGraph.Fault

/-!
# Reasons

Why the service refuses something. Each reason has a kind and a wording, and `Reason.fault` makes
the error that callers see.
-/

namespace EntityGraph

/-- Why the service refuses something. -/
inductive Reason where
  /-- a value that does not stand for a moment of the type -/
  | unreadableMoment (type : String) (value : Value)
  /-- a value that does not stand for an identifier -/
  | unreadableId (value : Value)
  /-- an argument that should be an object of a shape -/
  | notAnObject (place shape : String)
  /-- argument names that a shape does not have -/
  | unknownArguments (place : String) (names : List String)
  /-- a required argument is missing; `declaration` is the field as declared -/
  | missingArgument (path declaration : String)
  /-- an argument that should be a list -/
  | notAList (path : String)
  /-- a value outside an enumeration -/
  | notAMember (path : String) (value : Value) (enumeration : String)
  /-- a field whose value should be a list -/
  | listExpected (field : String)
  /-- a field whose value should be an object -/
  | objectExpected (field : String)
  /-- a field whose value should be a list of objects -/
  | objectsExpected (field : String)
  /-- a comparison that does not exist -/
  | unknownOperator (name : String)
  /-- a scalar field is filtered by a list of terms -/
  | termExpected (field : String)
  /-- a relation is filtered by a single term -/
  | termsExpected (field : String)
  /-- an argument that names no field -/
  | noField (entity field : String)
  /-- a path that leads to no field -/
  | noFieldOnPath (entity segment root path : String)
  /-- a path that goes on from a scalar field -/
  | notARelation (segment root path : String)
  /-- a path that ends at a relation -/
  | pathEndsAtRelation (root path : String)
  /-- a sort key that names no field -/
  | noSortField (entity field : String)
  /-- list arguments that are malformed -/
  | malformedArguments (entity : String) (objections : List Objection)
  /-- an update without identifier -/
  | updateNeedsId (entity : String)
  /-- a deletion without identifier -/
  | deleteNeedsId (entity : String)
  /-- a state action without identifier -/
  | actionNeedsId (action entity : String)
  /-- a call that needs an identifier -/
  | callNeedsId (endpoint : String)
  /-- an identifier that is taken -/
  | duplicateId (id : Value) (collection : String)
  /-- a value that a unique field already holds -/
  | duplicateValue (collection path : String)
  /-- a value that a unique index of the database already holds -/
  | duplicateEntry (collection : String) (details : Value)
  /-- a call of an endpoint that does not exist -/
  | unknownEndpoint (name : String)
  /-- an identifier that names no document -/
  | noDocument (entity : String) (id : Value)
  /-- an action that is not allowed from the state -/
  | illegalState (state : Value)
  /-- an object field without relation -/
  | relationMissing (field : String)
  /-- a reference without connection field -/
  | connectionMissing (field : String)
  /-- an entity that declares fields twice -/
  | duplicateFields (entity : String) (names : List String)
  /-- a shape that can no longer change -/
  | shapeSealed (shape : String)
  /-- shapes that are still open are attached -/
  | shapesOpen (entity : String)
  /-- a type that embeds itself -/
  | embedsItself (entity field : String)
  /-- embedded relations that wait for each other -/
  | embeddedCycle (waiting : List (String × String))
  /-- embedded relations that lead back to a type while its collection is described -/
  | embeddedRecursion (entity field : String)
  /-- a state machine without state field -/
  | stateFieldMissing (entity stateField : String)
  /-- an entity that is registered twice -/
  | duplicateEntity (name : String)
  /-- a mutation that is registered twice -/
  | duplicateMutation (name : String)
  /-- an entity that is not registered -/
  | unknownEntity (name : String)
  /-- a relation to an entity that is not registered -/
  | unknownTarget (referrer target : String)
  /-- a mutation that is not registered -/
  | unknownMutation (name : String)
  /-- an entity that is only embedded -/
  | noCollection (entity : String)
  /-- an action that the entity does not have -/
  | noAction (entity action : String)
  /-- a schema document with faults -/
  | schemaRejected (messages : List String)
  /-- two endpoints of one name -/
  | duplicateEndpoint (name : String)
  /-- a retry limit that is no integer -/
  | badRetryLimit (text : String)
  /-- a write that met a conflict -/
  | writeConflict (operation : String)
  /-- a transaction that met conflicts in every attempt -/
  | attemptsExhausted (attempts : Nat) (last : Fault)
  /-- a collection delta that deletes -/
  | deletionInDelta (entity field : String)

namespace Reason

/-- The kind of error that a reason leads to. -/
def kind : Reason → ErrorKind
  | unreadableMoment .. | unreadableId .. | notAnObject .. | unknownArguments .. |
    missingArgument ..
  | notAList .. | notAMember .. | listExpected .. | objectExpected .. | objectsExpected ..
  | unknownOperator .. | termExpected .. | termsExpected .. | noField .. | noFieldOnPath ..
  | notARelation .. | pathEndsAtRelation .. | noSortField .. | malformedArguments ..
  | updateNeedsId .. | deleteNeedsId .. | actionNeedsId .. | callNeedsId .. | duplicateId ..
  | duplicateValue .. | duplicateEntry .. | unknownEndpoint .. => .validation
  | noDocument .. => .notFound
  | illegalState .. => .illegalTransition
  | relationMissing .. | connectionMissing .. | duplicateFields .. | shapeSealed .. | shapesOpen ..
  | embedsItself .. | embeddedCycle .. | embeddedRecursion .. | stateFieldMissing ..
  | duplicateEntity .. | duplicateMutation .. | unknownEntity .. | unknownTarget ..
  | unknownMutation .. | noCollection .. | noAction .. | schemaRejected .. | duplicateEndpoint ..
  | badRetryLimit .. => .configuration
  | writeConflict .. | attemptsExhausted .. => .transient
  | deletionInDelta .. => .unsupported

/-- The wording of a reason. -/
def message : Reason → String
  | unreadableMoment type value => "Invalid " ++ type ++ " value: " ++ value.literal
  | unreadableId value => "Invalid identifier: " ++ value.literal
  | notAnObject place shape => place ++ ": expected an object for " ++ shape
  | unknownArguments place names => place ++ ": unknown argument(s) " ++ Text.join ", " names
  | missingArgument path declaration => path ++ ": " ++ declaration ++ " is required"
  | notAList path => path ++ ": expected a list"
  | notAMember path value enumeration =>
    path ++ ": '" ++ value.plain ++ "' is not a valid " ++ enumeration
  | listExpected field => field ++ " expects a list"
  | objectExpected field => field ++ " expects an object"
  | objectsExpected field => field ++ " expects a list of objects"
  | unknownOperator name => "Unsupported operator: " ++ name
  | termExpected field => field ++ " expects \x7boperator, value\x7d"
  | termsExpected field => field ++ " expects \x7bterms: [...]\x7d"
  | noField entity field => entity ++ " has no field '" ++ field ++ "'"
  | noFieldOnPath entity segment root path =>
    entity ++ " has no field '" ++ segment ++ "' (in " ++ root ++ "." ++ path ++ ")"
  | notARelation segment root path =>
    "'" ++ segment ++ "' is not a relation (in " ++ root ++ "." ++ path ++ ")"
  | pathEndsAtRelation root path => "Path " ++ root ++ "." ++ path ++ " must end at a scalar field"
  | noSortField entity field => entity ++ " has no field '" ++ field ++ "' to sort by"
  | malformedArguments entity _ => "Invalid arguments for " ++ entity
  | updateNeedsId entity => "Updating " ++ entity ++ " requires an id"
  | deleteNeedsId entity => "Deleting " ++ entity ++ " requires an id"
  | actionNeedsId action entity => "Action " ++ action ++ " on " ++ entity ++ " requires an id"
  | callNeedsId endpoint => endpoint ++ " requires an id"
  | duplicateId id collection => "Duplicate _id " ++ id.plain ++ " in " ++ collection
  | duplicateValue collection path =>
    "Duplicate value for unique field " ++ collection ++ "." ++ path
  | duplicateEntry collection details =>
    "Duplicate value in " ++ collection ++ ": " ++ details.plain
  | unknownEndpoint name => "Unknown endpoint: " ++ name
  | noDocument entity id => entity ++ " " ++ id.plain ++ " is not valid"
  | illegalState state => "Action is not allowed from state " ++ state.plain
  | relationMissing field => "Field " ++ field ++ " does not define a relation"
  | connectionMissing field =>
    "Field " ++ field ++ " is a referenced relation without a connection_field"
  | duplicateFields entity names =>
    "Entity " ++ entity ++ " declares duplicate fields: " ++ Text.quotedList names
  | shapeSealed shape => "Input shape " ++ shape ++ " is sealed"
  | shapesOpen entity => "Input shapes of " ++ entity ++ " must be sealed before attaching"
  | embedsItself entity field =>
    entity ++ "." ++ field ++ ": a type cannot embed a field of its own type"
  | embeddedCycle waiting =>
    "Cannot build input shapes, embedded relations form a cycle: " ++
      Text.join ", " (waiting.map fun w => w.1 ++ " (waits for " ++ w.2 ++ ")")
  | embeddedRecursion entity field =>
    entity ++ "." ++ field ++ ": a type cannot have a field of its same type and embedded"
  | stateFieldMissing entity stateField =>
    entity ++ " declares a state machine but has no '" ++ stateField ++ "' field"
  | duplicateEntity name => "Entity '" ++ name ++ "' already registered"
  | duplicateMutation name => "Mutation '" ++ name ++ "' already registered"
  | unknownEntity name => "Unknown entity: " ++ name
  | unknownTarget referrer target =>
    referrer ++ " references unknown entity '" ++ target ++ "'"
  | unknownMutation name => "Unknown mutation: " ++ name
  | noCollection entity => entity ++ " has no collection of its own"
  | noAction entity action => entity ++ " has no state action '" ++ action ++ "'"
  | schemaRejected messages => "Schema compilation failed:\n" ++ Text.join "\n" messages
  | duplicateEndpoint name => "Endpoint name '" ++ name ++ "' is used twice"
  | badRetryLimit text =>
    "SIMFINITY_MAX_RETRIES must be an integer, got " ++ Text.quoted text
  | writeConflict operation => "Write conflict during " ++ operation
  | attemptsExhausted attempts last =>
    "Transaction failed after " ++ toString attempts ++ " attempts: " ++ last.text
  | deletionInDelta entity field =>
    "Deleting items of " ++ entity ++ "." ++ field ++
      " through a collection delta is not supported"

/-- The fault behind a reason, if one led to it. -/
def cause : Reason → Option Fault
  | unreadableMoment .. => some (.malformed [])
  | malformedArguments _ objections => some (.malformed objections)
  | duplicateEntry _ details => some (.duplicateKey details)
  | badRetryLimit _ => some .illTyped
  | attemptsExhausted _ last => some last
  | _ => none

/-- The error that callers see. -/
def fault (r : Reason) : Fault := .ofKind r.kind r.message r.cause

theorem isService_fault (r : Reason) : r.fault.isService = true := rfl

end Reason

end EntityGraph

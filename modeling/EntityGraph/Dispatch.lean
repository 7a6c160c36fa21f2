import EntityGraph.Endpoint
import EntityGraph.Mutation.Executor
import EntityGraph.Query.Compile
import EntityGraph.Shape.Check

/-!
# Calls

A call goes to an endpoint by name. First the middleware runs, a chain in which each member decides
whether and how often the rest of the chain runs. A member may rewrite the arguments and the context
of the call, and nothing else of it: the endpoint, and with it the operation and the entity, it is
only given to read. When the chain has returned, the operation of the endpoint runs once, on the
arguments as the chain left them. Whatever ends a call early reaches the caller as a service error.
-/

namespace EntityGraph

/-- What travels with a call. -/
structure Call where
  args : Value
  /-- the caller's context; a list that is counted writes its size there -/
  context : Document

/-- A member of the chain in front of every operation. It is given the endpoint to read, and the
rest of the chain. -/
abbrev Middleware (τ : Type) := Endpoint → Action (τ × Call) Unit → Action (τ × Call) Unit

/-- What calls run on. -/
structure Dispatcher (τ S : Type) where
  executor : Executor τ S
  endpoints : Record Endpoint
  middleware : List (Middleware τ)
  /-- the largest number of rows of a list without page -/
  defaultLimit : Int

/-- A state paired with a call. -/
def Component.ofCall (τ : Type) : Component (τ × Call) τ := ⟨Prod.fst, fun t p => (t, p.2)⟩

namespace Dispatcher

variable {τ S : Type}

/-- The chain of middleware for a call. -/
def chain (e : Endpoint) : List (Middleware τ) → Action (τ × Call) Unit
  | [] => pure ()
  | m :: rest => m e (chain e rest)

/-- The arguments as they stand. -/
def arguments : Action (τ × Call) Value := do
  let p ← get
  pure p.2.args

/-- Write an entry of the context. -/
def note (key : String) (v : Value) : Action (τ × Call) Unit :=
  modify fun p => (p.1, { p.2 with context := Record.put p.2.context key v })

/-- The count in the rows of a counting pipeline; no row means none. -/
def countOf (rows : List Document) : Outcome Value :=
  match rows with
  | [] => pure (.int 0)
  | row :: _ =>
    match Record.get? row countField with
    | some v => pure v
    | none => throw .illTyped

/-- Run a pipeline on an entity's collection. -/
def runPipeline (x : Dispatcher τ S) (d : Descriptor) (stages : List Stage) :
    Action (τ × Call) (List Document) :=
  (x.executor.store.aggregate d.collection (stages.map Stage.toValue) none).within (.ofCall τ)

/-- List documents. When the page asks for it, the size of the whole list goes into the context
first. -/
def list (x : Dispatcher τ S) (d : Descriptor) (args : Value) : Action (τ × Call) Value := do
  let r := x.executor.registry
  let read ← ListArguments.read d.entity args
  if (read.pagination.map (·.count)).getD false then
    let stages ← countPipeline r d read
    let rows ← x.runPipeline d stages
    let size ← countOf rows
    note "count" size
  let stages ← listPipeline r x.defaultLimit d read
  let rows ←
    if stages.isEmpty then
      (x.executor.store.find d.collection (.object []) none).within (.ofCall τ)
    else x.runPipeline d stages
  pure (.list (rows.map .object))

/-- The shape of the arguments that add or update an entity. -/
def argumentShape (r : Registry) (ref : ShapeRef) : Outcome InputShape :=
  match r.shape? ref with
  | some s => pure s
  | none => throw .illTyped

/-- Check the arguments of a write. -/
def checkWrite (r : Registry) (ref : ShapeRef) (args : Value) : Outcome Unit := do
  let s ← argumentShape r ref
  checkInput r.shape? s "" args

/-- Run an operation of the executor. -/
def perform {α : Type} (a : Action τ α) : Action (τ × Call) α := a.within (.ofCall τ)

/-- Run the operation of an endpoint on an entity. -/
def onEntity (x : Dispatcher τ S) (e : Endpoint) (d : Descriptor) (args : Value) :
    Action (τ × Call) Value := do
  let r := x.executor.registry
  let ops := x.executor.operations
  match e.kind with
  | .get => do
    let rawId ← Executor.argument args "id"
    if rawId.isEmpty then throw (Reason.callNeedsId e.name).fault
    let o ← toReference rawId
    let found ← perform (x.executor.store.findById d.collection (.id o) none)
    pure (Executor.documentOrNull found)
  | .find => x.list d args
  | .save => do
    checkWrite r (.add d.name) args
    perform (ops.save d.name args none)
  | .update => do
    checkWrite r (.update d.name) args
    perform (ops.update d.name args none)
  | .delete => do
    let rawId ← Executor.argument args "id"
    perform (ops.delete d.name rawId none)
  | .state => do
    checkWrite r (.update d.name) args
    perform (ops.changeState d.name (e.action.getD "") args none)
  | .custom => throw .illTyped

/-- Run the operation of an endpoint. -/
def execute (x : Dispatcher τ S) (e : Endpoint) : Action (τ × Call) Value := do
  let r := x.executor.registry
  let args ← arguments
  match e.kind with
  | .custom => do
    let m ← r.mutation e.name
    match m.inputShape with
    | some s => checkInput r.shape? s "" args
    | none => pure ()
    perform (x.executor.runMutation e.name args none)
  | _ => do
    let d ← r.lookup (e.entity.getD "")
    x.onEntity e d args

/-- The arguments of a call as an object: absent ones are none, and a list of pairs is an object. -/
def callArguments (v : Value) : Outcome Document :=
  match v with
  | .object fs => pure fs
  | .list items => do
    let entries ← items.mapM fun
      | .list [.text k, v] => pure (k, v)
      | _ => throw .illTyped
    pure (Record.ofEntries entries)
  | _ => if v.truthy then throw .illTyped else pure []

/-- Call an endpoint by name. -/
def call (x : Dispatcher τ S) (name : String) : Action (τ × Call) Value := do
  match Record.get? x.endpoints name with
  | none => throw (Reason.unknownEndpoint name).fault
  | some e =>
    let given ← arguments
    let fs ← callArguments given
    modify fun p => (p.1, { p.2 with args := .object fs })
    let outcome ← Action.observe do
      chain e x.middleware
      x.execute e
    match outcome with
    | .ok v => pure v
    | .error f => throw f.normalize

end Dispatcher

end EntityGraph

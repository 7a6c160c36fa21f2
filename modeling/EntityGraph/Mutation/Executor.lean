import EntityGraph.Mutation.Materialize

/-!
# Mutations

The writes of a service: add, update and delete a document, move it to another state, run a custom
mutation. Each runs in one transaction, so a failure anywhere in the tree of a write undoes all of
it. Children in lists of related documents are saved and updated with their parent, linked to it by
the connection field of the relation.
-/

namespace EntityGraph

/-- What mutations run on. -/
structure Executor (τ S : Type) where
  registry : Registry
  behaviour : Behaviour τ S
  store : DocumentStore τ S
  policy : RetryPolicy τ

/-- A state paired with the arguments of a call. -/
def Component.state (τ : Type) : Component (τ × Value) τ := ⟨Prod.fst, fun t p => (t, p.2)⟩

/-- Run an action on the state together with some arguments, which are dropped afterwards. -/
def Action.withArguments {τ α : Type} (args : Value) (a : Action (τ × Value) α) : Action τ α :=
  ExceptT.mk fun t =>
    let (result, (t, _)) := a.run.run (t, args)
    (result, t)

namespace Executor

variable {τ S : Type}

/-- The descriptor of an entity with a collection of its own. -/
def descriptor (x : Executor τ S) (entity : String) : Outcome Descriptor := do
  let d ← x.registry.lookup entity
  if d.hasEndpoints then pure d else throw (Reason.noCollection entity).fault

/-- The hooks of an entity. -/
def hooks (x : Executor τ S) (d : Descriptor) : Hooks τ S := (x.behaviour.entity d.name).hooks

/-- A materialization run. -/
def materializer (x : Executor τ S) (operation : Operation) (s : S) : Materializer τ S :=
  ⟨x.registry, x.behaviour, operation, s⟩

/-- The identifier in a stored document. -/
def documentId (d : Document) : Outcome Value :=
  match Record.get? d "_id" with
  | some id => pure id
  | none => throw .illTyped

/-- The argument of a name, or null; arguments that are no object have none. -/
def argument (args : Value) (name : String) : Outcome Value :=
  match args with
  | .object fs => pure ((Record.get? fs name).getD .null)
  | _ => throw .illTyped

/-- Embedded objects are laid over the stored ones, key by key; everything else replaces what is
stored. -/
def mergeEmbedded (current : Document) : List FieldDef → Document → Outcome Document
  | [], changes => pure changes
  | f :: rest, changes => do
    let changes ←
      if f.kind? = some .embeddedObject then
        match Record.get? changes f.name, Record.get? current f.name with
        | some (.object new), some (.object old) =>
          pure (Record.put changes f.name (.object (Record.merge old new)))
        | some _, some (.object _) => throw .illTyped
        | _, _ => pure changes
      else pure changes
    mergeEmbedded current rest changes

/-- The update of a document: what is set, if anything, and what is unset, if anything. -/
def updateParts (changes : Option Document) (unset : List String) : Document :=
  (match changes with
    | some fs => [("$set", .object fs)]
    | none => []) ++
  (if unset.isEmpty then []
    else [("$unset", .object (Record.ofEntries (unset.map fun key => (key, .text ""))))])

/-- A document that may be missing, as a value. -/
def documentOrNull : Option Document → Value
  | some d => .object d
  | none => .null

mutual

/-- Add a document and its children inside a session. -/
def saveIn (x : Executor τ S) (ops : Operations τ S) (d : Descriptor) (link : Option ParentLink)
    (s : S) (args : Value) : Action τ Document := do
  let m ← (x.materializer .create s).materialize d.entity link args
  let document := match d.machine with
    | some machine => Record.put m.document stateField (stateName machine.initial)
    | none => m.document
  let document ← (x.hooks d).onSaving ops document args s
  let stored ← x.store.create d.collection document (some s)
  let id ← documentId stored
  applyDeltas x ops d id s args d.entity.fields
  (x.hooks d).onSaved ops stored args s
termination_by (sizeOf args, 2, 0)

/-- Change a document and its children inside a session. The document after the change. -/
def updateIn (x : Executor τ S) (ops : Operations τ S) (d : Descriptor) (link : Option ParentLink)
    (s : S) (args : Value) : Action τ (Option Document) := do
  let rawId ← argument args "id"
  if rawId.isEmpty then throw (Reason.updateNeedsId d.name).fault
  let o ← toReference rawId
  let m ← (x.materializer .update s).materialize d.entity link args
  applyDeltas x ops d (.id o) s args d.entity.fields
  match ← x.store.findById d.collection (.id o) (some s) with
  | none => throw (Reason.noDocument d.name rawId).fault
  | some current =>
    let changes ← mergeEmbedded current d.entity.fields m.document
    let edited ← (x.hooks d).onUpdating ops (.id o) changes args s
    let parts := updateParts (if changes.isEmpty then none else some edited) m.unset
    let updated ←
      if parts.isEmpty then pure (some current)
      else x.store.update d.collection (.id o) (.object parts) (some s)
    (x.hooks d).onUpdated ops updated args s
termination_by (sizeOf args, 2, 0)

/-- Save and update the children of a document, list by list. -/
def applyDeltas (x : Executor τ S) (ops : Operations τ S) (d : Descriptor) (parent : Value) (s : S)
    (args : Value) : List FieldDef → Action τ Unit
  | [] => pure ()
  | f :: rest => do
    match h : deltaOf? f args with
    | none => pure ()
    | some delta => do
      have := sizeOf_deltaOf?_lt h
      if !delta.deleted.isEmpty then throw (Reason.deletionInDelta d.name f.name).fault
      let target ← x.descriptor (f.target.getD "")
      saveAll x ops target (f.connectionField, parent) s delta.added
      updateAll x ops target (f.connectionField, parent) s delta.updated
    applyDeltas x ops d parent s args rest
termination_by fields => (sizeOf args, 1, fields.length)

/-- Add children, linked to their parent. -/
def saveAll (x : Executor τ S) (ops : Operations τ S) (d : Descriptor) (link : ParentLink) (s : S) :
    List Value → Action τ Unit
  | [] => pure ()
  | v :: rest => do
    let _ ← saveIn x ops d (some link) s v
    saveAll x ops d link s rest
termination_by items => (sizeOf items, 0, 0)

/-- Change children and link them to their parent. -/
def updateAll (x : Executor τ S) (ops : Operations τ S) (d : Descriptor) (link : ParentLink)
    (s : S) :
    List Value → Action τ Unit
  | [] => pure ()
  | v :: rest => do
    let _ ← updateIn x ops d (some link) s v
    updateAll x ops d link s rest
termination_by items => (sizeOf items, 0, 0)

end

/-- The identifier in the arguments of a deletion: the arguments themselves, or their entry `id`. -/
def deletionId : Value → Value
  | .object fs => (Record.get? fs "id").getD .null
  | v => v

/-- Remove a document inside a session. The document removed. -/
def deleteIn (x : Executor τ S) (ops : Operations τ S) (d : Descriptor) (s : S) (target : Value) :
    Action τ (Option Document) := do
  let rawId := deletionId target
  if rawId.isEmpty then throw (Reason.deleteNeedsId d.name).fault
  let o ← toReference rawId
  let _ ← (x.materializer .delete s).materialize d.entity none (.object [("id", .id o)])
  match ← x.store.findById d.collection (.id o) (some s) with
  | none => throw (Reason.noDocument d.name rawId).fault
  | some current =>
    (x.hooks d).onDelete ops current s
    x.store.delete d.collection (.id o) (some s)

/-- The arguments as they stand. -/
def currentArguments : Action (τ × Value) Value := do
  let p ← get
  pure p.2

/-- Move a document to another state inside a session. The side effect may edit the arguments, which
the update then sees. -/
def changeStateIn (x : Executor τ S) (ops : Operations τ S) (d : Descriptor) (name : String)
    (action : StateAction) (s : S) : Action (τ × Value) (Option Document) := do
  let args ← currentArguments
  let rawId ← argument args "id"
  if rawId.isEmpty then throw (Reason.actionNeedsId name d.name).fault
  let o ← toReference rawId
  match ← (x.store.findById d.collection (.id o) (some s)).within (.state τ) with
  | none => throw (Reason.noDocument d.name rawId).fault
  | some current =>
    let state := (Record.get? current stateField).getD .null
    if !state.eq (stateName action.source) then throw (Reason.illegalState state).fault
    match (x.behaviour.entity d.name).effect? name with
    | some effect => effect ops s
    | none => pure ()
    match ← currentArguments with
    | .object fs =>
      let moved := .object (Record.put fs stateField (stateName action.target))
      (x.updateIn ops d none s moved).within (.state τ)
    | _ => throw .illTyped

/-- The action of a state machine by name. -/
def stateAction (d : Descriptor) (name : String) : Outcome StateAction :=
  match d.machine.bind fun m => Record.get? m.actions name with
  | some a => pure a
  | none => throw (Reason.noAction d.name name).fault

/-- Run a body in a session, or else in transactions of its own. -/
def transact {α : Type} (x : Executor τ S) (body : S → Action τ α) (session : Option S) :
    Action τ α :=
  x.store.transact x.policy body session

/-- Run a body that may edit its arguments in a session, or else in transactions of its own. Edits
outlive a failed attempt. -/
def transactWith {α : Type} (x : Executor τ S) (args : Value) (body : S → Action (τ × Value) α)
    (session : Option S) : Action τ α :=
  Action.withArguments args
    ((x.store.toSessionStore.within (.state τ)).transact (x.policy.within (.state τ)) body session)

/-- The operations, where user code that they run is given `ops`. -/
def operationsOver (x : Executor τ S) (ops : Operations τ S) : Operations τ S where
  save entity args session := do
    let d ← x.descriptor entity
    let stored ← x.transact (fun s => x.saveIn ops d none s args) session
    pure (.object stored)
  update entity args session := do
    let d ← x.descriptor entity
    let updated ← x.transact (fun s => x.updateIn ops d none s args) session
    pure (documentOrNull updated)
  delete entity id session := do
    let d ← x.descriptor entity
    let deleted ← x.transact (fun s => x.deleteIn ops d s id) session
    pure (documentOrNull deleted)
  changeState entity action args session := do
    let d ← x.descriptor entity
    let a ← stateAction d action
    let updated ← x.transactWith args (fun s => x.changeStateIn ops d action a s) session
    pure (documentOrNull updated)

/-- Operations that refuse everything. -/
def refusedOperations : Operations τ S where
  save _ _ _ := throw .illTyped
  update _ _ _ := throw .illTyped
  delete _ _ _ := throw .illTyped
  changeState _ _ _ _ := throw .illTyped

/-- The operations, where user code may call operations to the given depth. -/
def operationsTo (x : Executor τ S) : Nat → Operations τ S
  | 0 => refusedOperations
  | depth + 1 => x.operationsOver (x.operationsTo depth)

/-- How deep user code may call operations that run user code. -/
def nestingLimit : Nat := 100

/-- The operations of the service. -/
def operations (x : Executor τ S) : Operations τ S := x.operationsTo (nestingLimit + 1)

/-- Run a custom mutation. -/
def runMutation (x : Executor τ S) (name : String) (args : Value) (session : Option S) :
    Action τ Value := do
  let m ← x.registry.mutation name
  let ops := x.operationsTo nestingLimit
  x.transactWith args (fun s => x.behaviour.mutation m.name ops s) session

end Executor

end EntityGraph

import EntityGraph.Dispatch
import EntityGraph.Registry.Finalize
import EntityGraph.Simulation.Journal
import EntityGraph.Store.Memory

/-!
# Scripts

User code as data. A **script** is a list of acts on a subject: the document or the arguments that
it was given. Validators, hooks, effects, custom mutations and middleware are scripted; each notes
in the journal that it ran, and on what, before it does anything else.
-/

namespace EntityGraph.Simulation

/-- One act of a script. -/
inductive Act where
  /-- write an entry of the subject -/
  | put (key : String) (v : Value)
  /-- remove an entry of the subject -/
  | drop (key : String)
  | fail (f : Failure)
  | save (entity : String) (args : Value)
  | update (entity : String) (args : Value)
  | delete (entity : String) (id : Value)
  | changeState (entity action : String) (args : Value)
  | find (collection : String) (query : Value)
  /-- give a value -/
  | give (v : Value)
  /-- give the subject, as it is when the script has run -/
  | giveSubject

/-- An act, inside the session at hand unless it is detached. -/
structure Line where
  act : Act
  detached : Bool

/-- User code as data. -/
abbrev Script := List Line

/-- A scripted validator. -/
structure Check where
  label : String
  failure : Option Failure
  /-- the only value that it fails on, if not every value -/
  onlyFor : Option Value
  /-- an entry to write into the document, for validators of an entity -/
  put : Option (String × Value)
  /-- is it a validator that was left to be defined? -/
  isBare : Bool

/-- The scripted user code of one entity. -/
structure Conduct where
  fieldChecks : Record (List (Operation × Check))
  entityChecks : List (Operation × Check)
  /-- scripts by the name of their hook -/
  hooks : Option (Record Script)
  /-- scripts by the name of their state action -/
  effects : Record Script

/-- One act of a middleware. -/
inductive WareAct where
  /-- run the rest of the chain -/
  | next
  | fail (f : Failure)
  /-- write an argument -/
  | put (key : String) (v : Value)
  /-- replace all arguments -/
  | replace (args : Value)
  /-- write an entry of the context -/
  | note (key : String) (v : Value)
  /-- copy an argument into the context -/
  | copy (argument key : String)

/-- A scripted middleware. -/
structure Ware where
  name : String
  /-- the kinds of endpoints that it acts on; absent means all -/
  kinds : Option (List String)
  acts : List WareAct

/-! ## The state -/

/-- A simulated service. -/
structure Service where
  store : MemoryStore
  registry : Registry
  journal : Journal
  conducts : Record Conduct
  mutations : Record Script
  /-- sessions that were opened by name -/
  sessions : Record SessionId
  /-- was the executor made? -/
  hasExecutor : Bool
  /-- the endpoints, once the dispatcher was made -/
  endpoints : Option (Record Endpoint)

namespace Service

/-- The service without entities. -/
def empty : Service := ⟨.empty, .empty, .empty, [], [], [], false, none⟩

/-- The store of a service. -/
def storePart : Component Service MemoryStore := ⟨store, fun s x => { x with store := s }⟩

/-- The registry of a service. -/
def registryPart : Component Service Registry := ⟨registry, fun r x => { x with registry := r }⟩

/-- The journal of a service. -/
def journalPart : Component Service Journal := ⟨journal, fun j x => { x with journal := j }⟩

/-- The store of a service, as part of it. -/
def documents : DocumentStore Service SessionId := MemoryStore.documentStore.within storePart

/-- Note an event. -/
def note (event : List Value) : Action Service Unit := (Journal.note event).within journalPart

/-- Raise a failure that may be absent. -/
def raiseIf (f : Option Failure) : Action Service Unit := (Journal.raiseIf f).within journalPart

/-- Wait, by noting how long. -/
def sleep (d : Duration) : Action Service Unit := (Journal.sleep d).within journalPart

end Service

/-! ## Running scripts -/

/-- Operations of a simulated service. -/
abbrev Ops := Operations Service SessionId

/-- What an act gives. -/
inductive Gift where
  | value (v : Value)
  | subject

namespace Script

/-- Run an action of the service beside a subject. -/
def beside {α : Type} (a : Action Service α) : Action (Service × Value) α :=
    a.within (.state Service)

/-- Edit the subject, which must be an object. -/
def edit (f : Document → Document) : Action (Service × Value) Unit := do
  match ← Executor.currentArguments with
  | .object fs => modify fun p => (p.1, .object (f fs))
  | _ => throw .illTyped

/-- Run an act. -/
def act (ops : Ops) (session : SessionId) (line : Line) :
    Action (Service × Value) (Option Gift) := do
  let s := if line.detached then none else some session
  let given (a : Action Service Value) : Action (Service × Value) (Option Gift) := do
    let v ← beside a
    pure (some (.value v))
  match line.act with
  | .put key v =>
    edit fun fs => Record.put fs key v
    pure none
  | .drop key =>
    edit fun fs => Record.erase fs key
    pure none
  | .fail f =>
    beside (Service.raiseIf (some f))
    pure none
  | .save entity args => given (ops.save entity args s)
  | .update entity args => given (ops.update entity args s)
  | .delete entity id => given (ops.delete entity id s)
  | .changeState entity action args => given (ops.changeState entity action args s)
  | .find collection query => given do
    let rows ← Service.documents.find collection query s
    pure (.list (rows.map .object))
  | .give v => pure (some (.value v))
  | .giveSubject => pure (some .subject)

/-- Run the acts in order; the last gift counts. -/
def acts (ops : Ops) (session : SessionId) :
    Script → Option Gift → Action (Service × Value) (Option Gift)
  | [], gift => pure gift
  | line :: rest, gift => do
    let g ← act ops session line
    acts ops session rest (g.orElse fun _ => gift)

/-- Run a script; what it gives. -/
def run (script : Script) (ops : Ops) (session : SessionId) : Action (Service × Value) Value := do
  match ← acts ops session script none with
  | some (.value v) => pure v
  | some .subject => Executor.currentArguments
  | none => pure .null

/-- Run a script on a subject; the subject afterwards. -/
def runOn (script : Script) (ops : Ops) (session : SessionId) (subject : Value) :
    Action Service Value :=
  Action.withArguments subject do
    let _ ← run script ops session
    Executor.currentArguments

end Script

/-! ## User code from scripts -/

/-- The document in a value. -/
def documentIn (v : Value) : Outcome Document :=
  match v with
  | .object fs => pure fs
  | _ => throw .illTyped

/-- Run a hook on a document. -/
def runHook (hooks : Record Script) (entity name : String) (more : List Value) (ops : Ops)
    (session : SessionId) (subject : Value) : Action Service Value := do
  Service.note ([.text "hook", .text entity, .text name, subject] ++ more)
  Script.runOn ((Record.get? hooks name).getD []) ops session subject

/-- Scripted hooks. -/
def scriptedHooks (entity : String) (hooks : Record Script) : Hooks Service SessionId where
  onSaving ops d _ s := do
    let v ← runHook hooks entity "on_saving" [] ops s (.object d)
    documentIn v
  onSaved ops d _ s := do
    let v ← runHook hooks entity "on_saved" [] ops s (.object d)
    documentIn v
  onUpdating ops id d _ s := do
    let v ← runHook hooks entity "on_updating" [id] ops s (.object d)
    documentIn v
  onUpdated ops d _ s := do
    let v ← runHook hooks entity "on_updated" [] ops s (Executor.documentOrNull d)
    pure v.fields?
  onDelete ops d s := do
    let _ ← runHook hooks entity "on_delete" [] ops s (.object d)

namespace Check

/-- Does the validator fail on a value? -/
def failsOn (c : Check) (v : Value) : Bool := (c.onlyFor.map (·.eq v)).getD true

/-- Fail as scripted. -/
def conclude (c : Check) (v : Value) : Action Service Unit :=
  if c.failsOn v then Service.raiseIf c.failure else pure ()

/-- A validator of a field. -/
def onField (c : Check) : FieldCheck Service SessionId := fun entity field v _ => do
  if c.isBare then throw .illTyped
  Service.note [.text "validate", .text c.label, .text entity, .text field, v]
  c.conclude v

/-- A validator of an entity. -/
def onEntity (c : Check) : EntityCheck Service SessionId := fun entity args d _ => do
  if c.isBare then throw .illTyped
  Service.note [.text "validate", .text c.label, .text entity, args, .object d]
  let d := match c.put with
    | some (key, v) => Record.put d key v
    | none => d
  c.conclude (.object d)
  pure d

/-- The validators for a kind of operation. -/
def forOperation (operation : Operation) (cs : List (Operation × Check)) : List Check :=
  (cs.filter fun c => c.1 == operation).map Prod.snd

end Check

/-- The user code of an entity. -/
def Conduct.behaviour (entity : String) (c : Conduct) : EntityBehaviour Service SessionId where
  fieldChecks operation field :=
    (Check.forOperation operation ((Record.get? c.fieldChecks field).getD [])).map Check.onField
  entityChecks operation := (Check.forOperation operation c.entityChecks).map Check.onEntity
  hooks := (c.hooks.map (scriptedHooks entity)).getD .none
  effect? action := (Record.get? c.effects action).map fun script ops session => do
    let args ← Executor.currentArguments
    Script.beside (Service.note [.text "effect", .text action, args])
    let _ ← script.run ops session

/-- A custom mutation. -/
def callback (name : String) (script : Script) : Callback Service SessionId := fun ops session => do
  let args ← Executor.currentArguments
  Script.beside (Service.note [.text "custom", .text name, args])
  script.run ops session

/-- The user code of a service. -/
def Service.behaviour (x : Service) : Behaviour Service SessionId where
  entity name := ((Record.get? x.conducts name).map (·.behaviour name)).getD .none
  mutation name := callback name ((Record.get? x.mutations name).getD [])

/-! ## Middleware from scripts -/

namespace Ware

/-- Run an action of the service beside a call. -/
def beside {α : Type} (a : Action Service α) : Action (Service × Call) α :=
    a.within (.ofCall Service)

/-- Run an act. -/
def act (next : Action (Service × Call) Unit) : WareAct → Action (Service × Call) Unit
  | .next => next
  | .fail f => beside (Service.raiseIf (some f))
  | .put key v => do
    match ← Dispatcher.arguments with
    | .object fs => modify fun p => (p.1, { p.2 with args := .object (Record.put fs key v) })
    | _ => throw .illTyped
  | .replace args => modify fun p => (p.1, { p.2 with args := args })
  | .note key v => Dispatcher.note key v
  | .copy argument key => do
    let args ← Dispatcher.arguments
    let v ← Executor.argument args argument
    Dispatcher.note key v

/-- The middleware that a script describes. -/
def middleware (m : Ware) : Middleware Service := fun e next => do
  let args ← Dispatcher.arguments
  beside (Service.note [.text "enter", .text m.name, .text e.name, .text e.kind.name,
    (e.entity.map Value.text).getD .null, (e.action.map Value.text).getD .null,
    .bool e.kind.isRead, args])
  if (m.kinds.map fun ks => ks.contains e.kind.name).getD true then
    m.acts.forM (act next)
    beside (Service.note [.text "exit", .text m.name])
  else next

end Ware

end EntityGraph.Simulation

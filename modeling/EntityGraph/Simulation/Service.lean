import EntityGraph.Schema.Document
import EntityGraph.Simulation.Reader

/-!
# Simulated services

A service put together from definitions whose user code is scripted, on a memory store. The executor
and the dispatcher are made when they are first needed: that finalizes the registry, and when it
fails it is tried again the next time. The endpoints stay as they were when the dispatcher was made.
-/

namespace EntityGraph.Simulation

/-- What stays the same while a service runs. -/
structure Setting where
  policy : RetryPolicy Service
  middleware : List (Middleware Service)
  exposure : Exposure
  defaultLimit : Int

/-- Read a length of time. -/
def readDuration? (v : Value) : Option Duration :=
  match v with
  | .int i => some (.whole i)
  | .float x => some (.real x)
  | _ => none

/-- Read the limits of retries; what is absent has a standard. -/
def readPolicy {τ : Type} (v : Value) (attempts : Int) (sleep : Duration → Action τ Unit) :
    Outcome (RetryPolicy τ) :=
  RetryPolicy.ofLimits ((v.intAt? "max_attempts").getD attempts)
    ⟨(readDuration? (v.entry "base")).getD Backoff.standard.base,
      (readDuration? (v.entry "maximum")).getD Backoff.standard.maximum⟩ sleep

namespace Service

/-! ## Executor and dispatcher -/

/-- The executor over the service as it stands. -/
def executorNow (x : Setting) (s : Service) : Executor Service SessionId :=
  ⟨s.registry, s.behaviour, documents, x.policy⟩

/-- Finalize the registry. -/
def finalize : Action Service Unit := Registry.finalize.within registryPart

/-- The executor, made on first use. -/
def executor (x : Setting) : Action Service (Executor Service SessionId) := do
  if !(← get).hasExecutor then
    finalize
    modify fun s => { s with hasExecutor := true }
  let s ← get
  pure (executorNow x s)

/-- The dispatcher, made on first use. -/
def dispatcher (x : Setting) : Action Service (Dispatcher Service SessionId) := do
  if (← get).endpoints.isNone then
    finalize
    let s ← get
    let table ← Endpoint.table x.exposure s.registry
    set { s with endpoints := some table }
  let s ← get
  pure ⟨executorNow x s, s.endpoints.getD [], x.middleware, x.defaultLimit⟩

/-! ## Putting a service together -/

variable (read : FaultReader)

/-- Register the entity that an object defines, together with its user code. -/
def define (v : Value) : Action Service Descriptor := do
  let s ← get
  let (e, r) ← s.registry.define v
  set { s with registry := r, conducts := Record.put s.conducts e.name (read.conduct v) }
  r.lookup e.name

/-- Register the custom mutation that an object defines, together with its script. -/
def defineMutation (v : Value) : Action Service Mutation := do
  let m := Mutation.ofValue v
  let s ← get
  let r ← s.registry.addMutation m
  set { s with
    registry := r, mutations := Record.put s.mutations m.name (read.script (v.entry "script")) }
  pure m

/-- Register the entities of a schema document, with scripted hooks by entity. -/
def defineAll (document hooks : Value) : Action Service Unit := do
  let schema ← SchemaDocument.compileStrictly document
  let s ← get
  let r ← schema.register s.registry
  let conducts := schema.entities.foldl (fun acc e =>
    Record.put acc e.1 ⟨[], [], (hooks.present? e.1).map read.scripts, []⟩) s.conducts
  set { s with registry := r, conducts := conducts }

/-- Store the documents of a seed. -/
def seed (v : Value) : Action Service Unit :=
  (v.itemsAt "documents").forM fun d => do
    let d ← documentIn d
    let _ ← documents.create (v.textAt "collection") d none

/-- Names that restrict what is exposed. -/
def inclusion (v : Value) (key : String) : Option (List String) :=
  (v.present? key).map fun _ => v.textsAt key

/-- The number of attempts of a simulated service, unless it says otherwise. -/
def standardAttempts : Int := 3

/-- Put a service together from an object that describes it. -/
def setUp (v : Value) : Action Service Setting := do
  let policy ← readPolicy (v.entry "retry") standardAttempts sleep
  match v.present? "document" with
  | some d => defineAll read d (v.entry "hooks")
  | none => pure ()
  (v.itemsAt "entities").forM fun e => do
    let _ ← define read e
  (v.itemsAt "mutations").forM fun m => do
    let _ ← defineMutation read m
  (v.itemsAt "seed").forM seed
  let d := v.entry "dispatcher"
  pure {
    policy := policy
    middleware := (v.itemsAt "middleware").map fun m => (read.ware m).middleware
    exposure := ⟨inclusion d "query_types", inclusion d "mutation_types",
      inclusion d "custom_mutations"⟩
    defaultLimit := (d.intAt? "default_limit").getD standardLimit }

/-! ## Sessions by name -/

/-- The session of a name. -/
def session (name : String) : Action Service SessionId := do
  match Record.get? (← get).sessions name with
  | some id => pure id
  | none => throw .illTyped

/-- Open a session under a name. -/
def openSession (name : String) : Action Service SessionId := do
  let id ← documents.start
  modify fun s => { s with sessions := Record.put s.sessions name id }
  pure id

/-- Call an endpoint. Gives the outcome, and the context after the call. -/
def call (x : Setting) (name : String) (c : Call) : Action Service (Outcome Value × Document) := do
  match ← (dispatcher x).observe with
  | .error f => pure (.error f, c.context)
  | .ok d =>
    let s ← get
    let (result, (s, c)) := (d.call name).run.run (s, c)
    set s
    pure (result, c.context)

end Service

end EntityGraph.Simulation

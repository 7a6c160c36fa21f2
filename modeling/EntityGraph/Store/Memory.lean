import EntityGraph.Store.Aggregate
import EntityGraph.Store.Contract

/-!
# The memory store

A store that keeps everything in one value. A transaction works on a private copy of the collections
as they were when it began; committing publishes only the documents that it wrote, in the order in
which it first wrote them, and aborting forgets the copy. Unique paths are enforced, validators are
not. Failures can be injected: the next so many calls of an operation then meet a conflict.
-/

namespace EntityGraph

/-- An open transaction. -/
structure Transaction where
  /-- the private copy -/
  working : Collections
  /-- the documents written so far, by collection and identifier, in the order of their first
  write -/
  written : List (String × Value)

/-- A session. -/
structure Session where
  transaction : Option Transaction
  ended : Bool

/-- The name of a session: its number in the order of opening. -/
abbrev SessionId := Nat

/-- The state of a memory store. -/
structure MemoryStore where
  /-- the committed documents -/
  collections : Collections
  /-- the unique paths of the collections that were set up -/
  schemas : Record CollectionSchema
  /-- committed transactions so far -/
  commits : Nat
  /-- aborted transactions so far -/
  aborts : Nat
  /-- how often each operation is still to fail -/
  failures : Record Int
  sessions : List Session
  /-- the number of the last identifier that was made -/
  lastId : Nat

namespace Collection

/-- The document filed under an identifier. -/
def get? : Collection → Value → Option Document
  | [], _ => none
  | (k, d) :: rest, id => if k.eq id then some d else get? rest id

/-- File a document under an identifier, in place when there is one already. -/
def put : Collection → Value → Document → Collection
  | [], id, d => [(id, d)]
  | (k, old) :: rest, id, d => if k.eq id then (k, d) :: rest else (k, old) :: put rest id d

/-- Remove the document of an identifier. -/
def erase : Collection → Value → Collection
  | [], _ => []
  | (k, d) :: rest, id => if k.eq id then rest else (k, d) :: erase rest id

end Collection

namespace MemoryStore

/-- The store without documents. -/
def empty : MemoryStore := ⟨[], [], 0, 0, [], [], 0⟩

/-- The open transaction of a session. -/
def transaction? (s : MemoryStore) (session : Option SessionId) : Option Transaction :=
  session.bind fun i => (s.sessions[i]?).bind (·.transaction)

/-- The collections as a caller sees them: the private copy inside a transaction, otherwise the
committed ones. -/
def view (s : MemoryStore) (session : Option SessionId) : Collections :=
  match s.transaction? session with
  | some t => t.working
  | none => s.collections

/-- Make the next `count` calls of an operation meet a conflict. -/
def inject (count : Int) (operation : String) : Action MemoryStore Unit :=
  modify fun s => { s with failures := Record.put s.failures operation count }

/-- Meet a conflict if one was injected for the operation. -/
def meetConflict (operation : String) : Action MemoryStore Unit := do
  let s ← get
  let left := (Record.get? s.failures operation).getD 0
  if left > 0 then
    set { s with failures := Record.put s.failures operation (left - 1) }
    throw (Reason.writeConflict operation).fault

/-- The committed documents of a collection. -/
def documents (s : MemoryStore) (collection : String) : List Document :=
  (s.collections.get collection).documents

/-! ## Sessions -/

/-- Open a session. -/
def startSession : Action MemoryStore SessionId := do
  let s ← get
  set { s with sessions := s.sessions.concat ⟨none, false⟩ }
  pure s.sessions.length

/-- Replace the state of a session. -/
def setSession (i : SessionId) (x : Session) : Action MemoryStore Unit :=
  modify fun s => { s with sessions := s.sessions.set i x }

/-- The state of a session. -/
def session (i : SessionId) : Action MemoryStore Session := do
  match (← get).sessions[i]? with
  | some x => pure x
  | none => throw .illTyped

/-- Begin a transaction on a copy of the committed documents. -/
def beginTransaction (i : SessionId) : Action MemoryStore Unit := do
  let x ← session i
  if x.transaction.isSome then throw (.badState "Transaction already in progress")
  let s ← get
  setSession i { x with transaction := some ⟨s.collections, []⟩ }

/-- Publish one document of a private copy. -/
def publishOne (working : Collections) (committed : Collections) (key : String × Value) :
    Collections :=
  let bucket := committed.get key.1
  match (working.get key.1).get? key.2 with
  | some d => Record.put committed key.1 (bucket.put key.2 d)
  | none => Record.put committed key.1 (bucket.erase key.2)

/-- Publish the documents that a transaction wrote. -/
def publish (t : Transaction) (committed : Collections) : Collections :=
  t.written.foldl (publishOne t.working) committed

/-- The open transaction of a session. -/
def openTransaction (i : SessionId) : Action MemoryStore Transaction := do
  match (← session i).transaction with
  | some t => pure t
  | none => throw (.badState "No transaction in progress")

/-- Close the transaction of a session. -/
def closeTransaction (i : SessionId) : Action MemoryStore Unit := do
  let x ← session i
  setSession i { x with transaction := none }

/-- Commit the transaction of a session. -/
def commitTransaction (i : SessionId) : Action MemoryStore Unit := do
  let t ← openTransaction i
  meetConflict "commit"
  modify fun s => { s with collections := publish t s.collections, commits := s.commits + 1 }
  closeTransaction i

/-- Abort the transaction of a session. -/
def abortTransaction (i : SessionId) : Action MemoryStore Unit := do
  let _ ← openTransaction i
  modify fun s => { s with aborts := s.aborts + 1 }
  closeTransaction i

/-- End a session, aborting its transaction if one is open. -/
def endSession (i : SessionId) : Action MemoryStore Unit := do
  if (← session i).transaction.isSome then abortTransaction i
  let x ← session i
  setSession i { x with ended := true }

/-! ## Writing -/

/-- Replace or remove one document of some collections. -/
def writeTo (cs : Collections) (collection : String) (id : Value) (d : Option Document) :
    Collections :=
  let bucket := cs.get collection
  match d with
  | some d => Record.put cs collection (bucket.put id d)
  | none => Record.put cs collection (bucket.erase id)

/-- Note a write, unless the document was written before. -/
def noteWrite (written : List (String × Value)) (collection : String) (id : Value) :
    List (String × Value) :=
  if written.any fun w => w.1 == collection && w.2.eq id then written
  else written ++ [(collection, id)]

/-- Write a document where the caller's view is. -/
def write (caller : Option SessionId) (collection : String) (id : Value) (d : Option Document) :
    Action MemoryStore Unit :=
  modify fun s =>
    match caller, s.transaction? caller with
    | some i, some t =>
      let t : Transaction :=
        ⟨writeTo t.working collection id d, noteWrite t.written collection id⟩
      { s with sessions := s.sessions.modify i ({ · with transaction := some t }) }
    | _, _ => { s with collections := writeTo s.collections collection id d }

/-- The values of a unique path that must not occur in another document. -/
def uniqueValues (d : Document) (path : String) : List Value :=
  (resolve d path).filter fun v => !v.isNull

/-- Does another document hold one of the values at the path? A document without identifier among
those that are asked cannot be told from the one at hand. -/
def holdsValue (id : Value) (values : List Value) (path : String) : Collection → Outcome Bool
  | [] => pure false
  | (_, other) :: rest =>
    match Record.get? other "_id" with
    | none => throw .illTyped
    | some otherId =>
      if otherId.eq id then holdsValue id values path rest
      else if (resolve other path).any fun v => v.isIn values then pure true
      else holdsValue id values path rest

/-- Check the unique paths of a collection for a document that is to be written. -/
def checkUnique (bucket : Collection) (collection : String) (d : Document) :
    List String → Outcome Unit
  | [] => pure ()
  | path :: rest => do
    let values := uniqueValues d path
    if values.isEmpty || bucket.isEmpty then checkUnique bucket collection d rest
    else
      match Record.get? d "_id" with
      | none => throw .illTyped
      | some id =>
        if ← holdsValue id values path bucket then
          throw (Reason.duplicateValue collection path).fault
        checkUnique bucket collection d rest

/-- The unique paths of a collection. -/
def uniquePaths (s : MemoryStore) (collection : String) : List String :=
  ((Record.get? s.schemas collection).map (·.uniquePaths)).getD []

/-- Insert a document. Each insertion that gets past an injected conflict uses up an identifier,
also when the document brings its own. -/
def create (collection : String) (document : Document) (caller : Option SessionId) :
    Action MemoryStore Document := do
  meetConflict "create"
  let s ← get
  let next := s.lastId + 1
  set { s with lastId := next }
  let stored :=
    if Record.has document "_id" then document
    else Record.put document "_id" (.id (ObjectId.ofNat next))
  let id := (Record.get? stored "_id").getD .null
  let bucket := (s.view caller).get collection
  if !id.isKey then throw .illTyped
  if (bucket.get? id).isSome then throw (Reason.duplicateId id collection).fault
  checkUnique bucket collection stored (s.uniquePaths collection)
  write caller collection id (some stored)
  pure stored

/-- Look up a document by an identifier. -/
def lookupId (s : MemoryStore) (caller : Option SessionId) (collection : String) (id : Value) :
    Outcome (Option Document) :=
  if id.isKey then pure (((s.view caller).get collection).get? id) else throw .illTyped

/-- The document of an identifier. -/
def findById (collection : String) (id : Value) (caller : Option SessionId) :
    Action MemoryStore (Option Document) :=
  Action.reads fun s => s.lookupId caller collection id

/-- Write the paths of the `$set` part of an update. -/
def setPaths : List (String × Value) → Document → Outcome Document
  | [], d => pure d
  | (path, v) :: rest, d => do
    let d ← setPath d path v
    setPaths rest d

/-- The paths of the `$unset` part of an update: the keys of an object, the texts of a list, or the
characters of a text. -/
def unsetPaths : Value → Outcome (List String)
  | .object fs => pure (Record.keys fs)
  | .list items => items.mapM fun
    | .text s => pure s
    | _ => throw .illTyped
  | .text s => pure (s.toList.map fun c => String.ofList [c])
  | _ => throw .illTyped

/-- A document after an update. -/
def applyUpdate (update : Value) (d : Document) : Outcome Document := do
  match update with
  | .object parts =>
    let d ← match (Record.get? parts "$set").getD (.object []) with
      | .object fs => setPaths fs d
      | _ => throw .illTyped
    let paths ← unsetPaths ((Record.get? parts "$unset").getD (.object []))
    pure (paths.foldl unsetPath d)
  | _ => throw .illTyped

/-- Update a document in place. -/
def update (collection : String) (id change : Value) (caller : Option SessionId) :
    Action MemoryStore (Option Document) := do
  meetConflict "update"
  let s ← get
  match ← s.lookupId caller collection id with
  | none => pure none
  | some current =>
    let updated ← applyUpdate change current
    checkUnique ((s.view caller).get collection) collection updated (s.uniquePaths collection)
    write caller collection id (some updated)
    pure (some updated)

/-- Remove a document. -/
def delete (collection : String) (id : Value) (caller : Option SessionId) :
    Action MemoryStore (Option Document) := do
  meetConflict "delete"
  let s ← get
  match ← s.lookupId caller collection id with
  | none => pure none
  | some current =>
    write caller collection id none
    pure (some current)

/-- A query that is absent, or empty in any way, matches every document. -/
def queryOrAll (query : Value) : Value := if query.truthy then query else .object []

/-- The documents that match a query. -/
def find (collection : String) (query : Value) (caller : Option SessionId) :
    Action MemoryStore (List Document) :=
  Action.reads fun s => matching (queryOrAll query) ((s.view caller).get collection).documents

/-- The outcome of a pipeline. -/
def runPipeline (collection : String) (pipeline : List Value) (caller : Option SessionId) :
    Action MemoryStore (List Document) :=
  Action.reads fun s => EntityGraph.aggregate (s.view caller) collection pipeline

/-- Set up a collection: remember its unique paths. -/
def ensureCollection (schema : CollectionSchema) : Action MemoryStore Unit :=
  modify fun s => { s with
    schemas := Record.put s.schemas schema.collection schema
    collections :=
      if Record.has s.collections schema.collection then s.collections
      else Record.put s.collections schema.collection [] }

/-- The memory store as a document store. -/
def documentStore : DocumentStore MemoryStore SessionId where
  start := startSession
  begin := beginTransaction
  commit := commitTransaction
  abort := abortTransaction
  finish := endSession
  create := create
  findById := findById
  update := update
  delete := delete
  find := find
  aggregate := runPipeline
  ensureCollection := ensureCollection

end MemoryStore

end EntityGraph

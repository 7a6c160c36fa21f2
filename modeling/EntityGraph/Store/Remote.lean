import EntityGraph.Store.Contract

/-!
# The remote store

A store that keeps nothing itself and asks a database instead. What it needs of the connection is a
**link**: a way to send one request, within a session or not, and to get the reply as a value. The
database refuses a write that breaks a unique index and the creation of a collection that exists;
the store makes a validation error of the first and changes the validator in place of the second.
-/

namespace EntityGraph

/-- A request to a database. -/
inductive Request where
  /-- insert a document; the reply is its identifier -/
  | insertOne (collection : String) (document : Document)
  /-- the document that a filter selects -/
  | findOne (collection : String) (filter : Value)
  /-- change the document that a filter selects; the reply is the document afterwards -/
  | updateOne (collection : String) (filter change : Value)
  /-- remove the document that a filter selects; the reply is that document -/
  | deleteOne (collection : String) (filter : Value)
  /-- all documents that a filter selects -/
  | findAll (collection : String) (filter : Value)
  /-- the outcome of a pipeline -/
  | aggregate (collection : String) (pipeline : List Value)
  /-- create a collection with a validator -/
  | createCollection (collection : String) (validator : Value)
  /-- replace the validator of a collection -/
  | changeValidator (collection : String) (validator : Value)
  /-- make the values at a path unique -/
  | createUniqueIndex (collection path : String)

/-- What the control of a session asks of a database. -/
inductive SessionRequest where
  | begin
  | commit
  | abort
  | finish
  deriving DecidableEq, Repr

/-- A connection to a database. -/
structure Link (σ S : Type) where
  /-- send a request, in a session if one is given -/
  send : Request → Option S → Action σ Value
  /-- open a session -/
  openSession : Action σ S
  /-- control a session -/
  control : SessionRequest → S → Action σ Unit
  /-- close the connection -/
  close : Action σ Unit

namespace Remote

variable {σ S : Type}

/-- The filter that selects the document of an identifier. -/
def byId (id : Value) : Value := .object [("_id", id)]

/-- The error of a write that breaks a unique index of a collection; other faults stay as they
are. -/
def refuseDuplicate (collection : String) : Fault → Fault
  | .duplicateKey details => (Reason.duplicateEntry collection details).fault
  | f => f

/-- Send a write to a collection. -/
def sendWrite (link : Link σ S) (collection : String) (r : Request) (session : Option S) :
    Action σ Value :=
  tryCatch (link.send r session) fun f => throw (refuseDuplicate collection f)

/-- Insert a document. What is stored is the document with the identifier that the database
replied. -/
def create (link : Link σ S) (collection : String) (document : Document) (session : Option S) :
    Action σ Document := do
  let id ← sendWrite link collection (.insertOne collection document) session
  pure (Record.put document "_id" id)

/-- Ask for the document of an identifier. -/
def findById (link : Link σ S) (collection : String) (id : Value) (session : Option S) :
    Action σ Value :=
  link.send (.findOne collection (byId id)) session

/-- Change the document of an identifier. -/
def update (link : Link σ S) (collection : String) (id change : Value) (session : Option S) :
    Action σ Value :=
  sendWrite link collection (.updateOne collection (byId id) change) session

/-- Remove the document of an identifier. -/
def delete (link : Link σ S) (collection : String) (id : Value) (session : Option S) :
    Action σ Value :=
  link.send (.deleteOne collection (byId id)) session

/-- Ask for the documents that match a query; an absent or empty query selects all. -/
def find (link : Link σ S) (collection : String) (query : Value) (session : Option S) :
    Action σ Value :=
  link.send (.findAll collection (if query.truthy then query else .object [])) session

/-- Ask for the outcome of a pipeline. -/
def aggregate (link : Link σ S) (collection : String) (pipeline : List Value)
    (session : Option S) : Action σ Value :=
  link.send (.aggregate collection pipeline) session

/-- Create a collection, or replace its validator when it exists. -/
def ensureValidator (link : Link σ S) (schema : CollectionSchema) : Action σ Unit := do
  let created ← (link.send (.createCollection schema.collection schema.validator) none).observe
  match created with
  | .ok _ => pure ()
  | .error .collectionExists =>
    let _ ← link.send (.changeValidator schema.collection schema.validator) none
  | .error f => throw f

/-- Set up a collection: its validator, then its unique indexes. -/
def ensureCollection (link : Link σ S) (schema : CollectionSchema) : Action σ Unit := do
  ensureValidator link schema
  schema.uniquePaths.forM fun path => do
    let _ ← link.send (.createUniqueIndex schema.collection path) none

/-! ## As a document store -/

/-- A reply that is a document or null. -/
def oneDocument (reply : Value) : Outcome (Option Document) :=
  match reply with
  | .object fs => pure (some fs)
  | .null => pure none
  | _ => throw .illTyped

/-- A reply that is a list of documents. -/
def manyDocuments (reply : Value) : Outcome (List Document) :=
  match reply with
  | .list items => items.mapM fun
    | .object fs => pure fs
    | _ => throw .illTyped
  | _ => throw .illTyped

/-- Sessions of the database. -/
def sessionStore (link : Link σ S) : SessionStore σ S where
  start := link.openSession
  begin s := link.control .begin s
  commit s := link.control .commit s
  abort s := link.control .abort s
  finish s := link.control .finish s

/-- The database as a document store. -/
def documentStore (link : Link σ S) : DocumentStore σ S where
  toSessionStore := sessionStore link
  create n d s := create link n d s
  findById n i s := do oneDocument (← findById link n i s)
  update n i c s := do oneDocument (← update link n i c s)
  delete n i s := do oneDocument (← delete link n i s)
  find n q s := do manyDocuments (← find link n q s)
  aggregate n p s := do manyDocuments (← aggregate link n p s)
  ensureCollection schema := ensureCollection link schema

end Remote

end EntityGraph

import EntityGraph.Schema.Storage

/-!
# The store contract

What the rest of the service asks of a document store: sessions that run one transaction at a time,
reads and writes of single documents by identifier, queries and pipelines. A store is a record of
actions on a state `σ` with sessions from `S`; a session passed along binds the action to that
session's transaction. Conflicts surface as faults that ask for another attempt.
-/

namespace EntityGraph

/-- Sessions and their transactions. -/
structure SessionStore (σ S : Type) where
  /-- open a session -/
  start : Action σ S
  /-- begin a transaction -/
  begin : S → Action σ Unit
  /-- publish what the transaction wrote -/
  commit : S → Action σ Unit
  /-- forget what the transaction wrote -/
  abort : S → Action σ Unit
  /-- close the session, with its transaction if one is open -/
  finish : S → Action σ Unit

/-- A document store. -/
structure DocumentStore (σ S : Type) extends SessionStore σ S where
  /-- insert a document, with a new identifier when it brings none; the stored document -/
  create : String → Document → Option S → Action σ Document
  /-- the document of an identifier -/
  findById : String → Value → Option S → Action σ (Option Document)
  /-- set and unset paths of a document; the document afterwards -/
  update : String → Value → Value → Option S → Action σ (Option Document)
  /-- remove a document; the document removed -/
  delete : String → Value → Option S → Action σ (Option Document)
  /-- the documents that match a query -/
  find : String → Value → Option S → Action σ (List Document)
  /-- the outcome of a pipeline -/
  aggregate : String → List Value → Option S → Action σ (List Document)
  /-- set up a collection -/
  ensureCollection : CollectionSchema → Action σ Unit

/-- How a state of type `σ` sits inside a state of type `τ`. -/
structure Component (τ σ : Type) where
  get : τ → σ
  set : σ → τ → τ

/-- An action on a component of a larger state. -/
def Action.within {τ σ α : Type} (c : Component τ σ) (a : Action σ α) : Action τ α :=
  ExceptT.mk fun t =>
    let (result, s) := a.run.run (c.get t)
    (result, c.set s t)

/-- The outcome of a pure computation on the state. -/
def Action.reads {σ α : Type} (f : σ → Outcome α) : Action σ α :=
  ExceptT.mk fun s => (f s, s)

/-- Run an action and look at how it ended. -/
def Action.observe {τ α : Type} (a : Action τ α) : Action τ (Outcome α) :=
  ExceptT.mk fun t =>
    let (result, t) := a.run.run t
    (.ok result, t)

namespace SessionStore

variable {τ σ S : Type}

/-- Sessions of a component of a larger state. -/
def within (c : Component τ σ) (s : SessionStore σ S) : SessionStore τ S where
  start := s.start.within c
  begin x := (s.begin x).within c
  commit x := (s.commit x).within c
  abort x := (s.abort x).within c
  finish x := (s.finish x).within c

end SessionStore

namespace DocumentStore

variable {τ σ S : Type}

/-- A store that is a component of a larger state. -/
def within (c : Component τ σ) (s : DocumentStore σ S) : DocumentStore τ S where
  toSessionStore := s.toSessionStore.within c
  create n d x := (s.create n d x).within c
  findById n i x := (s.findById n i x).within c
  update n i u x := (s.update n i u x).within c
  delete n i x := (s.delete n i x).within c
  find n q x := (s.find n q x).within c
  aggregate n p x := (s.aggregate n p x).within c
  ensureCollection s' := (s.ensureCollection s').within c

end DocumentStore

end EntityGraph

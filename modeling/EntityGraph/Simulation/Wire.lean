import EntityGraph.Store.Remote

/-!
# Recorded connections

A link to no database: replies are given in advance, and everything that is sent is recorded. When
no reply is left, the reply is null.
-/

namespace EntityGraph.Simulation

/-- A reply given in advance. -/
inductive Reply where
  | value (v : Value)
  /-- a unique index already holds the value -/
  | duplicate (details : Value)
  /-- the collection exists -/
  | exists

/-- Something that was sent. -/
inductive Sent where
  | request (r : Request) (inSession : Bool)
  | openSession
  | control (r : SessionRequest)
  | close

/-- A recorded connection. -/
structure Wire where
  /-- the replies that are left -/
  replies : List Reply
  /-- what was sent, in order -/
  sent : List Sent

namespace Wire

/-- Record something that is sent. -/
def record (s : Sent) : Action Wire Unit := modify fun w => { w with sent := w.sent.concat s }

/-- Take the next reply. -/
def takeReply : Action Wire Reply := do
  let w ← get
  match w.replies with
  | [] => pure (.value .null)
  | r :: rest =>
    set { w with replies := rest }
    pure r

/-- Record a request and give the next reply. -/
def send (r : Request) (session : Option Unit) : Action Wire Value := do
  record (.request r session.isSome)
  match ← takeReply with
  | .value v => pure v
  | .duplicate details => throw (.duplicateKey details)
  | .exists => throw .collectionExists

/-- The connection as a link. -/
def link : Link Wire Unit where
  send := send
  openSession := record .openSession
  control r _ := record (.control r)
  close := record .close

end Wire

end EntityGraph.Simulation

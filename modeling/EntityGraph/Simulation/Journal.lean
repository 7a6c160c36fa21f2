import EntityGraph.Transaction

/-!
# Journals

A simulation runs a service whose user code is given as data. The **journal** keeps what happened,
event by event, and counts how often each failure was raised, so that a failure can be scripted to
pass after some attempts.
-/

namespace EntityGraph.Simulation

/-- A failure that is raised at most so many times. -/
structure Failure where
  fault : Fault
  /-- how often it is raised; always, when absent -/
  limit : Option Int
  /-- failures of one number are counted together -/
  number : Nat

/-- What happened so far. -/
structure Journal where
  /-- the events, the latest first -/
  latest : List Value
  /-- how often each failure was raised -/
  raised : List (Nat × Nat)

namespace Journal

/-- Nothing happened. -/
def empty : Journal := ⟨[], []⟩

/-- The events in order. -/
def events (j : Journal) : List Value := j.latest.reverse

/-- How often the failures of a number were raised. -/
def timesRaised (j : Journal) (number : Nat) : Nat :=
  ((j.raised.find? fun e => e.1 == number).map Prod.snd).getD 0

/-- Add an event. -/
def note (event : List Value) : Action Journal Unit :=
  modify fun j => { j with latest := .list event :: j.latest }

/-- Add an event that is a single word. -/
def noteWord (word : String) : Action Journal Unit :=
  modify fun j => { j with latest := .text word :: j.latest }

/-- Raise a failure, unless it was raised often enough. -/
def raise (f : Failure) : Action Journal Unit := do
  match f.limit with
  | none => throw f.fault
  | some limit =>
    let j ← get
    let seen := j.timesRaised f.number
    if (seen : Int) < limit then
      set { j with raised := (f.number, seen + 1) :: j.raised }
      throw f.fault

/-- Raise a failure that may be absent. -/
def raiseIf : Option Failure → Action Journal Unit
  | some f => raise f
  | none => pure ()

/-- Wait, by noting how long. -/
def sleep (d : Duration) : Action Journal Unit := note [.text "sleep", d.toValue]

end Journal

/-! ## Planned sessions -/

/-- How one session goes: the failures of its parts, and what the body gives. -/
structure Plan where
  start : Option Failure
  body : Option Failure
  commit : Option Failure
  abort : Option Failure
  finish : Option Failure
  result : Value

/-- Nothing fails, and the body gives null. -/
def Plan.smooth : Plan := ⟨none, none, none, none, none, .null⟩

/-- Sessions that go as planned. -/
structure Rehearsal where
  journal : Journal
  /-- sessions opened so far -/
  opened : Nat

namespace Rehearsal

/-- The journal of a rehearsal. -/
def journalPart : Component Rehearsal Journal := ⟨journal, fun j r => { r with journal := j }⟩

/-- The plan of a session, by its number in the order of opening. -/
def planOf (plans : List Plan) (n : Nat) : Plan := plans.getD n .smooth

/-- A part of a session: note it, then fail as planned. -/
def part (word : String) (failure : Option Failure) : Action Rehearsal Unit :=
  (do
    Journal.noteWord word
    Journal.raiseIf failure : Action Journal Unit).within journalPart

/-- A store whose sessions go as planned. -/
def sessions (plans : List Plan) : SessionStore Rehearsal Nat where
  start := do
    let r ← get
    set { r with opened := r.opened + 1 }
    pure r.opened
  begin n := part "start" (planOf plans n).start
  commit n := part "commit" (planOf plans n).commit
  abort n := part "abort" (planOf plans n).abort
  finish n := part "end" (planOf plans n).finish

/-- A body that goes as planned. -/
def body (plans : List Plan) (n : Nat) : Action Rehearsal Value := do
  part "body" (planOf plans n).body
  pure (planOf plans n).result

/-- Run the planned body under a policy, in a session of the caller when `supplied`. -/
def run (plans : List Plan) (policy : RetryPolicy Rehearsal) (supplied : Bool) :
    Action Rehearsal Value := do
  let session ← if supplied then do
      let s ← (sessions plans).start
      pure (some s)
    else pure none
  (sessions plans).transact policy (body plans) session

end Rehearsal

end EntityGraph.Simulation

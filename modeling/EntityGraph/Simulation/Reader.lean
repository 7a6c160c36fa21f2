import EntityGraph.Definition
import EntityGraph.Simulation.Script

/-!
# Reading scripts

Scripts as they are written in definitions of entities: acts are objects with one entry that names
the act, validators and actions are pairs of a name and an object. How faults are written is left to
the caller (`FaultReader`).
-/

namespace EntityGraph.Simulation

/-- How a fault is read. -/
abbrev FaultReader := Value → Fault

/-- The first and second item. -/
def pairAt? (v : Value) (key : String) : Option (Value × Value) :=
  match v.itemsAt key with
  | [a, b] => some (a, b)
  | _ => none

/-- The text of a value, or the empty text. -/
def textOf (v : Value) : String := v.text?.getD ""

/-- Does an object have an entry, be it null? -/
def hasEntry (v : Value) (key : String) : Bool :=
  match v with
  | .object fs => Record.has fs key
  | _ => false

namespace FaultReader

variable (read : FaultReader)

/-- Read a failure. -/
def failure (v : Value) : Failure :=
  ⟨read v, v.intAt? "times", ((v.intAt? "number").getD 0).toNat⟩

/-- Read a failure that may be absent. -/
def failure? (v : Value) (key : String) : Option Failure := (v.present? key).map (failure read)

/-- Read an act. -/
def act? (v : Value) : Option Act :=
  if hasEntry v "set" then (pairAt? v "set").map fun p => .put (textOf p.1) p.2
  else if hasEntry v "drop" then some (.drop (v.textAt "drop"))
  else if hasEntry v "fail" then (failure? read v "fail").map .fail
  else if hasEntry v "save" then (pairAt? v "save").map fun p => .save (textOf p.1) p.2
  else if hasEntry v "update" then (pairAt? v "update").map fun p => .update (textOf p.1) p.2
  else if hasEntry v "delete" then (pairAt? v "delete").map fun p => .delete (textOf p.1) p.2
  else if hasEntry v "state" then
    match v.itemsAt "state" with
    | [entity, action, args] => some (.changeState (textOf entity) (textOf action) args)
    | _ => none
  else if hasEntry v "find" then (pairAt? v "find").map fun p => .find (textOf p.1) p.2
  else if hasEntry v "return" then some (.give (v.entry "return"))
  else if hasEntry v "subject" then some .giveSubject
  else none

/-- Read a script. -/
def script (v : Value) : Script :=
  (v.items?.getD []).filterMap fun a => (act? read a).map fun act =>
    ⟨act, a.flagAt "detached" false⟩

/-- Read scripts by name. -/
def scripts (v : Value) : Record Script := Record.mapValues (script read) (v.fields?.getD [])

/-- Read the name of a kind of operation. -/
def operation (name : String) : Operation :=
  if name = "UPDATE" then .update else if name = "DELETE" then .delete else .create

/-- Read a validator. -/
def check (v : Value) : Check where
  label := v.textAt "label"
  failure := failure? read v "fail"
  onlyFor := if hasEntry v "when" then some (v.entry "when") else none
  put := (pairAt? v "set").map fun p => (textOf p.1, p.2)
  isBare := v.flagAt "bare" false

/-- Read the validators of a definition. -/
def checks (v : Value) : List (Operation × Check) :=
  ((v.itemsAt "validations").filterMap Value.namedItem?).map fun e =>
    (operation e.1, check read e.2)

/-- Read the user code of an entity's definition. -/
def conduct (v : Value) : Conduct where
  fieldChecks := (v.itemsAt "fields").map fun f => (f.textAt "name", checks read f)
  entityChecks := checks read v
  hooks := (v.present? "hooks").map (scripts read)
  effects := (((v.entry "state_machine").itemsAt "actions").filterMap Value.namedItem?).filterMap
    fun a => (a.2.present? "effect").map fun e => (a.1, script read e)

/-- Read an act of a middleware. -/
def wareAct? (v : Value) : Option WareAct :=
  match v with
  | .text _ => some .next
  | _ =>
    if hasEntry v "fail" then (failure? read v "fail").map .fail
    else if hasEntry v "set" then (pairAt? v "set").map fun p => .put (textOf p.1) p.2
    else if hasEntry v "replace" then some (.replace (v.entry "replace"))
    else if hasEntry v "context" then (pairAt? v "context").map fun p => .note (textOf p.1) p.2
    else if hasEntry v "copy" then
      (pairAt? v "copy").map fun p => .copy (textOf p.1) (textOf p.2)
    else none

/-- Read a middleware. -/
def ware (v : Value) : Ware where
  name := v.textAt "name"
  kinds := (v.present? "kinds").map fun _ => v.textsAt "kinds"
  acts := (v.itemsAt "acts").filterMap (wareAct? read)

/-- Read how a session goes. -/
def plan (v : Value) : Plan where
  start := failure? read v "start"
  body := failure? read v "body"
  commit := failure? read v "commit"
  abort := failure? read v "abort"
  finish := failure? read v "end"
  result := v.entry "value"

end FaultReader

end EntityGraph.Simulation

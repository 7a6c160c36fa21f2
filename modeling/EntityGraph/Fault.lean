import EntityGraph.Value.Text

/-!
# Faults

Everything that can end a computation early. A **service error** is what callers are promised: a
kind, a message, a code and a status, and the fault that caused it, if any. The other faults come
from the parts a service is assembled from: user code, stores, and operations on values of the wrong
structure. Every boundary turns them into service errors (`Fault.normalize`).
-/

namespace EntityGraph

/-- The kinds of service errors. -/
inductive ErrorKind where
  /-- any error of the service -/
  | general
  /-- a validator or a check of arguments rejected its input -/
  | validation
  /-- an identifier that names no document -/
  | notFound
  /-- a state action that is not allowed from the present state -/
  | illegalTransition
  /-- entity, relation or endpoint definitions that do not fit together -/
  | configuration
  /-- a transaction met a conflict and may be tried again -/
  | transient
  /-- an operation that is deliberately left out -/
  | unsupported
  /-- an unexpected failure -/
  | internal
  deriving DecidableEq, Repr

/-- The code that an error of this kind carries unless it says otherwise. -/
def ErrorKind.code : ErrorKind → String
  | .general => "SIMFINITY_ERROR"
  | .validation => "VALIDATION_ERROR"
  | .notFound => "NOT_VALID_ID"
  | .illegalTransition => "BAD_REQUEST"
  | .configuration => "CONFIGURATION_ERROR"
  | .transient => "TRANSIENT_TRANSACTION"
  | .unsupported => "NOT_IMPLEMENTED"
  | .internal => "INTERNAL_SERVER_ERROR"

/-- The status that an error of this kind carries unless it says otherwise. -/
def ErrorKind.status : ErrorKind → Int
  | .general => 500
  | .validation => 400
  | .notFound => 404
  | .illegalTransition => 400
  | .configuration => 500
  | .transient => 503
  | .unsupported => 501
  | .internal => 500

/-- A service error, caused by a fault of type `φ`. -/
structure ServiceError (φ : Type) where
  kind : ErrorKind
  message : String
  code : String
  status : Int
  cause : Option φ

/-- A step from a value to one of its parts. -/
inductive Step where
  | key (name : String)
  | item (index : Nat)
  deriving DecidableEq, Repr

/-- One objection to an argument: where, of what type, and in words when the type does not say
all. -/
structure Objection where
  path : List Step
  type : String
  message : Option String
  deriving DecidableEq, Repr

/-- What can end a computation early. -/
inductive Fault where
  | service (e : ServiceError Fault)
  /-- an operation that the present state does not allow -/
  | badState (message : String)
  /-- an operation on a value that it does not cover -/
  | badValue (message : String)
  /-- a look-up of a key that is not there -/
  | missingKey (key : String)
  /-- an operation that was left to be defined -/
  | undefined (message : String)
  /-- a driver error with labels -/
  | labelled (message : String) (labels : List String)
  /-- an argument that was read and found malformed -/
  | malformed (objections : List Objection)
  /-- a unique index already holds the value -/
  | duplicateKey (details : Value)
  /-- a collection that is to be created exists already -/
  | collectionExists
  /-- an operation met a value of the wrong structure -/
  | illTyped

instance : Inhabited Fault := ⟨.illTyped⟩

/-- A pure computation that can end early. -/
abbrev Outcome (α : Type) := Except Fault α

/-- Inversion for a sequence of computations that returns. -/
theorem bind_eq_ok {α β : Type} {o : Outcome α} {f : α → Outcome β} {w : β}
    (h : (o >>= f) = .ok w) : ∃ v, o = .ok v ∧ f v = .ok w := by
  rcases o with e | v
  · cases h
  · exact ⟨v, rfl, h⟩

/-- A computation that reads and changes a state of type `σ` and can end early. What it changed
before it ended stays changed. -/
abbrev Action (σ α : Type) := ExceptT Fault (StateM σ) α

namespace Fault

/-- The label of errors that ask for another attempt. -/
def transientLabel : String := "TransientTransactionError"

/-- Does an error carry a label? `none` when errors of its sort carry none. -/
def hasLabel? (label : String) : Fault → Option Bool
  | .service e => if e.kind = .transient then some (label == transientLabel) else none
  | .labelled _ labels => some (labels.contains label)
  | _ => none

/-- Does the fault ask for another attempt? -/
def isTransient (f : Fault) : Bool := (f.hasLabel? transientLabel).getD false

/-- The text of a fault. -/
def text : Fault → String
  | .service e => e.message
  | .badState m => m
  | .badValue m => m
  | .missingKey k => Text.quoted k
  | .undefined m => m
  | .labelled m _ => m
  | .malformed _ => ""
  | .duplicateKey _ => ""
  | .collectionExists => ""
  | .illTyped => ""

/-- Is this a service error? -/
def isService : Fault → Bool
  | .service _ => true
  | _ => false

/-- An error of a kind, with the code and status of that kind. -/
def ofKind (kind : ErrorKind) (message : String) (cause : Option Fault) : Fault :=
  .service ⟨kind, message, kind.code, kind.status, cause⟩

/-- Service errors stay as they are; any other fault becomes the cause of an internal error. -/
def normalize : Fault → Fault
  | .service e => .service e
  | f => ofKind .internal f.text (some f)

/-- Normalize a fault and let a callback replace the result. -/
def format (f : Fault) (callback : Option (Fault → Option Fault)) : Fault :=
  let result := f.normalize
  match callback with
  | none => result
  | some replace => (replace result).getD result

theorem isService_normalize (f : Fault) : f.normalize.isService = true := by
  cases f <;> rfl

end Fault

end EntityGraph

import EntityGraph.Text.Digit
import EntityGraph.Text.LetterCase
import EntityGraph.Transaction
import EntityGraph.Query.Compile
import EntityGraph.Yaml.Reader
import EntityGraph.Yaml.Writer

/-!
# Configuration

A service is configured by an object with sections for the store, retries and queries, and a log
level. What is absent has a standard value. Environment variables that are not empty come last and
win.
-/

namespace EntityGraph

open Decimal (Number)

/-- The configuration of a service. -/
structure Config where
  url : Value
  database : Value
  maxAttempts : Int
  backoffBase : Float
  backoffMaximum : Float
  defaultLimit : Int
  logLevel : String

namespace Config

/-- The standard configuration. -/
def standard : Config where
  url := .text "mongodb://localhost:27017/?replicaSet=rs0"
  database := .text "simfinity"
  maxAttempts := RetryPolicy.standardAttempts
  backoffBase := 0.05
  backoffMaximum := 2.0
  defaultLimit := standardLimit
  logLevel := "INFO"

/-- The characters of a written number: without blanks around it, with ASCII digits, and without the
single underscores that may stand between digits. -/
def numeral? (s : String) : Option (List Char) :=
  Decimal.dropUnderscores? ((trimBlanks s.toList).map Text.asciiDigit)

/-- The integer that a text writes. -/
def readInteger? (s : String) : Option Int := (numeral? s).bind Decimal.integer?

/-- Convert a value to an integer. Doubles lose their fraction. -/
def toInteger (v : Value) : Outcome Int :=
  let found : Option Int := match v with
    | .bool b => some (if b then 1 else 0)
    | .int i => some i
    | .float x => (Number.ofFloat x).truncate?
    | .text s => readInteger? s
    | _ => none
  match found with
  | some i => pure i
  | none => throw .illTyped

/-- Convert a value to a double. -/
def toDouble (v : Value) : Outcome Float :=
  let found : Option Float := match v with
    | .bool b => some (if b then 1.0 else 0.0)
    | .int i => Duration.toFloat? i
    | .float x => some x
    | .text s => (numeral? s).bind Decimal.float?
    | _ => none
  match found with
  | some x => pure x
  | none => throw .illTyped

/-- A section of a configuration; one that is absent is empty. -/
def sectionOf (data : Document) (name : String) : Outcome Document :=
  match Record.get? data name with
  | none => pure []
  | some (.object fs) => pure fs
  | some _ => throw .illTyped

/-- An entry of a section, or its standard value. -/
def entry (fs : Document) (name : String) (standardValue : Value) : Value :=
  (Record.get? fs name).getD standardValue

/-- The log level that a value stands for. -/
def levelText (v : Value) : String := Text.upper v.plain

/-- Read a configuration from an object. -/
def ofData (data : Value) : Outcome Config := do
  match data with
  | .object fs =>
    let store ← sectionOf fs "store"
    let retry ← sectionOf fs "retry"
    let maxAttempts ← toInteger (entry retry "max_attempts" (.int standard.maxAttempts))
    let base ← toDouble (entry retry "backoff_base" (.float standard.backoffBase))
    let maximum ← toDouble (entry retry "backoff_max" (.float standard.backoffMaximum))
    let query ← sectionOf fs "query"
    let limit ← toInteger (entry query "default_limit" (.int standard.defaultLimit))
    pure {
      url := entry store "url" standard.url
      database := entry store "database" standard.database
      maxAttempts := maxAttempts
      backoffBase := base
      backoffMaximum := maximum
      defaultLimit := limit
      logLevel := levelText (entry fs "log_level" (.text standard.logLevel)) }
  | _ => throw .illTyped

/-- A variable of the environment, unless it is absent or empty. -/
def setting? (env : Record String) (name : String) : Option String :=
  (Record.get? env name).filter (· != "")

/-- The configuration with what the environment says. -/
def withEnvironment (c : Config) (env : Record String) : Outcome Config := do
  let c := match setting? env "SIMFINITY_MONGO_URL" with
    | some s => { c with url := .text s }
    | none => c
  let c := match setting? env "SIMFINITY_DATABASE" with
    | some s => { c with database := .text s }
    | none => c
  let c ← match setting? env "SIMFINITY_MAX_RETRIES" with
    | some s =>
      match readInteger? s with
      | some n => pure { c with maxAttempts := n }
      | none => throw (Reason.badRetryLimit s).fault
    | none => pure c
  pure (match setting? env "SIMFINITY_LOG_LEVEL" with
    | some s => { c with logLevel := Text.upper s }
    | none => c)

/-- The configuration as an object. -/
def toData (c : Config) : Document :=
  [("store", .object [("url", c.url), ("database", c.database)]),
    ("retry", .object [("max_attempts", .int c.maxAttempts), ("backoff_base", .float c.backoffBase),
      ("backoff_max", .float c.backoffMaximum)]),
    ("query", .object [("default_limit", .int c.defaultLimit)]),
    ("log_level", .text c.logLevel)]

/-- The configuration as a YAML text. -/
def save (c : Config) : String := Yaml.write c.toData

/-- Read a configuration from a YAML text, or the standard one when there is none, and let the
environment override it. -/
def load (text : Option String) (env : Record String) : Outcome Config := do
  let data ← match text with
    | none => pure (Value.object [])
    | some s =>
      match Yaml.read? s with
      | some v => pure (if v.truthy then v else .object [])
      | none => throw .illTyped
  let c ← ofData data
  c.withEnvironment env

/-- The pauses between attempts. -/
def backoff (c : Config) : Backoff := ⟨.real c.backoffBase, .real c.backoffMaximum⟩

/-- The retry policy, with a given way to wait. -/
def retryPolicy {τ : Type} (c : Config) (sleep : Duration → Action τ Unit) :
    Outcome (RetryPolicy τ) :=
  RetryPolicy.ofLimits c.maxAttempts c.backoff sleep

/-- The numbers of the log levels. -/
def levels : Record Int :=
  [("CRITICAL", 50), ("FATAL", 50), ("ERROR", 40), ("WARNING", 30), ("WARN", 30), ("INFO", 20),
    ("DEBUG", 10), ("NOTSET", 0)]

/-- The number of the log level; a level that does not exist counts as `INFO`. -/
def level (c : Config) : Int := (Record.get? levels c.logLevel).getD 20

end Config

end EntityGraph

import EntityGraph.Store.Contract

/-!
# Transactions with retries

A **body** runs inside a transaction: open a session, begin, run the body, commit; on failure abort
and keep the first error. When the failure asks for another attempt, the whole body runs again in a
new session after a pause, up to the number of attempts that the policy allows. A caller that
already holds a session runs its body directly in it, so nested operations share one transaction.
-/

namespace EntityGraph

open Decimal (Number)

/-- A length of time in seconds. -/
inductive Duration where
  | whole (seconds : Int)
  | real (seconds : Float)

namespace Duration

/-- The number of seconds. -/
def number : Duration → Number
  | whole i => .ofInt i
  | real x => .ofFloat x

/-- The number of seconds as a value. -/
def toValue : Duration → Value
  | whole i => .int i
  | real x => .float x

/-- The double of an integer, when it is not too large for one. -/
def toFloat? (i : Int) : Option Float :=
  let x := Float.ofInt i
  if x.isFinite then some x else none

/-- Powers of two with larger exponents are not computed. -/
def exponentLimit : Int := 1000000000

/-- The product with a power of two. The power of a negative exponent is a double. -/
def timesPowerOfTwo (d : Duration) (exponent : Int) : Outcome Duration :=
  let checked (i : Int) : Outcome Float := match toFloat? i with
    | some x => pure x
    | none => throw .illTyped
  if exponentLimit < exponent then throw .illTyped
  else if 0 ≤ exponent then
    let factor : Int := (Nat.pow 2 exponent.toNat : Nat)
    match d with
    | whole i => pure (.whole (i * factor))
    | real x => do
      let y ← checked factor
      pure (.real (x * y))
  else
    let factor := Float.scaleB 1.0 exponent
    match d with
    | whole i => do
      let y ← checked i
      pure (.real (y * factor))
    | real x => pure (.real (x * factor))

end Duration

/-- Pauses that double with each attempt up to a limit. -/
structure Backoff where
  base : Duration
  maximum : Duration

namespace Backoff

/-- Pauses from a twentieth of a second up to two seconds. -/
def standard : Backoff := ⟨.real 0.05, .real 2.0⟩

/-- The pause after an attempt, counted from one. -/
def delay (b : Backoff) (attempt : Int) : Outcome Duration := do
  let d ← b.base.timesPowerOfTwo (attempt - 1)
  pure (if d.number.lt b.maximum.number then d else b.maximum)

end Backoff

/-- How often and how patiently a transaction is tried again. -/
structure RetryPolicy (τ : Type) where
  /-- attempts in all, the first one included -/
  maxAttempts : Nat
  /-- the pause after an attempt, counted from one -/
  backoff : Nat → Outcome Duration
  /-- wait -/
  sleep : Duration → Action τ Unit
  /-- there is a first attempt -/
  maxAttempts_pos : 1 ≤ maxAttempts

namespace RetryPolicy

variable {τ σ : Type}

/-- The number of attempts unless a policy says otherwise. -/
def standardAttempts : Int := 5

/-- The policy with the given limits; a limit below one attempt is refused. -/
def ofLimits (maxAttempts : Int) (b : Backoff) (sleep : Duration → Action τ Unit) :
    Outcome (RetryPolicy τ) :=
  if h : 1 ≤ maxAttempts then
    pure ⟨maxAttempts.toNat, fun n => b.delay n, sleep, by omega⟩
  else throw (.badValue "max_attempts must be at least 1")

/-- The policy on a larger state. -/
def within (c : Component τ σ) (p : RetryPolicy σ) : RetryPolicy τ :=
  ⟨p.maxAttempts, p.backoff, fun d => (p.sleep d).within c, p.maxAttempts_pos⟩

end RetryPolicy

namespace SessionStore

variable {τ S α : Type}

/-- Abort a transaction; a failure to do so does not replace the error that led to it. -/
def abortQuietly (store : SessionStore τ S) (s : S) : Action τ Unit := do
  let _ ← (store.abort s).observe

/-- One attempt in a session: begin, run the body, commit. -/
def attempt (store : SessionStore τ S) (body : S → Action τ α) (s : S) : Action τ α := do
  store.begin s
  let outcome ← Action.observe do
    let result ← body s
    store.commit s
    pure result
  match outcome with
  | .ok result => pure result
  | .error e =>
    store.abortQuietly s
    throw e

/-- The error of a body that met conflicts in all of its attempts. -/
def exhausted (attempts : Nat) (e : Fault) : Fault :=
  if e.isService then e else (Reason.attemptsExhausted attempts e).fault

/-- Run a body from an attempt on, with `left` more attempts after it. -/
def runFrom (store : SessionStore τ S) (policy : RetryPolicy τ) (body : S → Action τ α) :
    Nat → Nat → Action τ α
  | left, number => do
    let s ← store.start
    match ← (store.attempt body s).observe with
    | .ok result =>
      store.finish s
      pure result
    | .error e =>
      if !e.isTransient then
        store.finish s
        throw e
      else
        match left with
        | 0 =>
          store.finish s
          throw (exhausted number e)
        | left + 1 =>
          let pause ← Action.observe do
            let d ← policy.backoff number
            policy.sleep d
          store.finish s
          match pause with
          | .error e => throw e
          | .ok () => runFrom store policy body left (number + 1)

/-- Run a body in the given session, or else in transactions of its own. -/
def transact (store : SessionStore τ S) (policy : RetryPolicy τ) (body : S → Action τ α)
    (session : Option S) : Action τ α :=
  match session with
  | some s => body s
  | none => runFrom store policy body (policy.maxAttempts - 1) 1

end SessionStore

end EntityGraph

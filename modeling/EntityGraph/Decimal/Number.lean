import EntityGraph.Decimal.Shortest

/-!
# Exact numbers

Integers and doubles are compared by the real numbers they stand for: both are read as a fraction
whose denominator is a power of two, so nothing is lost at any size. A double that is no number is
neither equal to nor below anything.
-/

namespace EntityGraph.Decimal

/-- A number as it is compared. -/
inductive Number where
  | nan
  | infinite (negative : Bool)
  /-- the fraction of an integer and a positive number -/
  | ratio (num : Int) (den : Nat)
  deriving DecidableEq

namespace Number

/-- An integer as a number. -/
def ofInt (i : Int) : Number := .ratio i 1

/-- The number that a reading of a double stands for. -/
def ofReading : Reading → Number
  | .nan => .nan
  | .infinite neg => .infinite neg
  | .finite b =>
    let m : Int := if b.negative then -(b.mantissa : Int) else b.mantissa
    if b.exponent ≥ 0 then .ratio (m * (Nat.pow 2 b.exponent.toNat : Nat)) 1
    else .ratio m (Nat.pow 2 (-b.exponent).toNat)

/-- The number that a double stands for. -/
def ofFloat (x : Float) : Number := ofReading (Reading.ofFloat x)

/-- Do two numbers stand for the same value? -/
def eq : Number → Number → Bool
  | .infinite a, .infinite b => a == b
  | .ratio a b, .ratio c d => a * d == c * b
  | _, _ => false

/-- Is the first number below the second? -/
def lt : Number → Number → Bool
  | .nan, _ => false
  | _, .nan => false
  | .infinite a, .infinite b => a && !b
  | .infinite a, .ratio _ _ => a
  | .ratio _ _, .infinite b => !b
  | .ratio a b, .ratio c d => decide (a * d < c * b)

/-- Is the first number at most the second? -/
def le (a b : Number) : Bool := lt a b || eq a b

/-- The greatest integer that is at most the number, when it is finite. -/
def floor? : Number → Option Int
  | .ratio a b => some (Int.fdiv a b)
  | _ => none

/-- The integer part of the number, toward zero, when it is finite. -/
def truncate? : Number → Option Int
  | .ratio a b => some (Int.tdiv a b)
  | _ => none

/-- The integer that the number is, if it is one. -/
def integral? : Number → Option Int
  | .ratio a b => if a % b = 0 then some (a / b) else none
  | _ => none

end Number

end EntityGraph.Decimal

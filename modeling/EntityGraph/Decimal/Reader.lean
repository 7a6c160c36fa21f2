/-!
# Reading numbers

A written number is an optional sign, digits, an optional fraction and an optional exponent. The
scanner works on characters and returns what it did not take; each use decides what may follow.
-/

namespace EntityGraph.Decimal

/-- A decimal digit. -/
def isDigit (c : Char) : Bool := '0' ≤ c && c ≤ '9'

/-- The value of a decimal digit. -/
def digitValue (c : Char) : Nat := c.toNat - 48

/-- The number written by a list of digits. -/
def ofDigits (ds : List Char) : Nat := ds.foldl (fun acc d => acc * 10 + digitValue d) 0

/-- Split off the digits in front. -/
def spanDigits (cs : List Char) : List Char × List Char :=
    (cs.takeWhile isDigit, cs.dropWhile isDigit)

/-- An optional sign in front: is the number negative, and what follows. -/
def sign : List Char → Bool × List Char
  | '-' :: cs => (true, cs)
  | '+' :: cs => (false, cs)
  | cs => (false, cs)

/-- Take out single underscores that stand between two digits; `none` if one stands elsewhere. -/
def dropUnderscores? : List Char → Option (List Char)
  | [] => some []
  | c :: '_' :: d :: rest =>
    if isDigit c && isDigit d then (dropUnderscores? (d :: rest)).map (c :: ·) else none
  | c :: rest => if c = '_' then none else (dropUnderscores? rest).map (c :: ·)

/-- An integer: an optional sign and digits. -/
def integer? (cs : List Char) : Option Int :=
  let (neg, body) := sign cs
  let (ds, rest) := spanDigits body
  if ds = [] ∨ rest ≠ [] then none
  else some (if neg then -(ofDigits ds : Int) else ofDigits ds)

/-- The double nearest to `m · 10 ^ e`, with a sign. Exponents that are far out of range are not
worked out. -/
def toFloat (neg : Bool) (m : Nat) (e : Int) : Float :=
  let x :=
    if m = 0 ∨ m.log2 + 3 * e < -1100 then 0.0
    else if e ≥ 0 then Float.ofScientific (m * Nat.pow 10 (min e.toNat 400)) false 0
    else Float.ofScientific m true (-e).toNat
  if neg then -x else x

/-- An exponent `e` or `E` with an optional sign, if one follows; otherwise zero. -/
def exponent? : List Char → Option Int
  | [] => some 0
  | c :: cs => if c = 'e' ∨ c = 'E' then integer? cs else none

/-- A finite number: digits with an optional fraction, at least one digit in all, and an optional
exponent. -/
def finite? (cs : List Char) : Option Float :=
  let (neg, body) := sign cs
  let (whole, rest) := spanDigits body
  let (frac, rest) := match rest with
    | '.' :: r => spanDigits r
    | _ => ([], rest)
  if whole = [] ∧ frac = [] then none
  else (exponent? rest).map fun e => toFloat neg (ofDigits (whole ++ frac)) (e - frac.length)

/-- The ASCII letters of a text in lower case. -/
def lowerAscii (cs : List Char) : String := String.ofList (cs.map Char.toLower)

/-- A number of any kind: a finite one, or a word for infinity or for no number. -/
def float? (cs : List Char) : Option Float :=
  match finite? cs with
  | some x => some x
  | none =>
    let (neg, body) := sign cs
    let word := lowerAscii body
    let signed (x : Float) := if neg then -x else x
    if word = "inf" ∨ word = "infinity" then some (signed (1.0 / 0.0))
    else if word = "nan" then some (0.0 / 0.0)
    else none

end EntityGraph.Decimal

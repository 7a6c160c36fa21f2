import EntityGraph.Moment.Reader
import EntityGraph.Value

/-!
# Plain scalars

A scalar without quotes stands for null, a truth value, an integer, a double or a moment when it is
written like one, and for itself otherwise. Integers are decimal, binary (`0b`), octal (`0`),
hexadecimal (`0x`) or in base sixty with colons, and may hold underscores. A date without time
stands for itself too, but is no text to the format, no more than the marks `=` and `<<` are.
-/

namespace EntityGraph.Yaml

open EntityGraph.Decimal

/-- Spellings of null. -/
def nullWords : List String := ["", "~", "null", "Null", "NULL"]

/-- Spellings of `true`. -/
def trueWords : List String :=
  ["yes", "Yes", "YES", "true", "True", "TRUE", "on", "On", "ON"]

/-- Spellings of `false`. -/
def falseWords : List String :=
  ["no", "No", "NO", "false", "False", "FALSE", "off", "Off", "OFF"]

/-- The characters without underscores. -/
def dropUnderscores (cs : List Char) : List Char := cs.filter (· != '_')

/-- The value of a digit in bases up to sixteen. -/
def digitIn? (base : Nat) (c : Char) : Option Nat :=
  let n := c.toNat
  let d :=
    if isDigit c then n - 48
    else if 'a' ≤ c ∧ c ≤ 'f' then n - 87
    else if 'A' ≤ c ∧ c ≤ 'F' then n - 55
    else base
  if d < base then some d else none

/-- The number that digits write in a base. Underscores between them do not count. -/
def inBase? (base : Nat) (cs : List Char) : Option Nat :=
  let ds := dropUnderscores cs
  if cs.isEmpty || ds.isEmpty then none
  else (ds.mapM (digitIn? base)).map fun vs => vs.foldl (fun acc d => acc * base + d) 0

/-- The parts of a list of characters between colons. -/
def colonParts : List Char → List Char × List (List Char)
  | [] => ([], [])
  | c :: rest =>
    let (first, others) := colonParts rest
    if c = ':' then ([], first :: others) else (c :: first, others)

/-- A part of a number in base sixty after the first. -/
def sixtieth? (cs : List Char) : Option Nat :=
  match cs with
  | [a] => digitIn? 10 a
  | [a, b] => do
    let x ← digitIn? 6 a
    let y ← digitIn? 10 b
    some (x * 10 + y)
  | _ => none

/-- The size of an integer. -/
def magnitude? (cs : List Char) : Option Nat :=
  match cs with
  | ['0'] => some 0
  | '0' :: 'b' :: ds => inBase? 2 ds
  | '0' :: 'x' :: ds => inBase? 16 ds
  | '0' :: ds => inBase? 8 ds
  | c :: _ =>
    if !isDigit c then none
    else
      let (first, others) := colonParts cs
      match inBase? 10 first, others.mapM sixtieth? with
      | some n, some parts => some (parts.foldl (fun acc d => acc * 60 + d) n)
      | _, _ => none
  | [] => none

/-- An integer. -/
def integer? (cs : List Char) : Option Int :=
  let (neg, body) := sign cs
  (magnitude? body).map fun n => if neg then -(n : Int) else n

/-- Does an exponent, if there is one, have a sign? -/
def signedExponent : List Char → Bool
  | [] => true
  | 'e' :: c :: _ => c = '+' || c = '-'
  | 'E' :: c :: _ => c = '+' || c = '-'
  | _ => false

/-- A digit or an underscore between digits. -/
def isNumberPart (c : Char) : Bool := isDigit c || c = '_'

/-- A finite double: digits with a point among them, or before them when there is no sign, and an
exponent that has a sign. -/
def finite? (cs : List Char) : Option Float :=
  let (_, body) := sign cs
  let whole := body.takeWhile isNumberPart
  match body.dropWhile isNumberPart with
  | '.' :: rest =>
    let exponent := rest.dropWhile isNumberPart
    let starts := match whole, rest with
      | c :: _, _ => isDigit c
      | [], c :: _ => isDigit c && cs.head? == some '.'
      | [], [] => false
    if starts && signedExponent exponent && !exponent.contains '_' then
      Decimal.finite? (dropUnderscores cs)
    else none
  | _ => none

/-- A double in base sixty: parts between colons, and a fraction at the end. -/
def sexagesimal? (cs : List Char) : Option Float := do
  let (neg, body) := sign cs
  let (first, others) := colonParts body
  let last ← others.getLast?
  match last.span (· != '.') with
  | (whole, '.' :: fraction) =>
    if !fraction.all isNumberPart || !(first.head?.any isDigit) then none
    let n ← inBase? 10 first
    let parts ← (others.dropLast ++ [whole]).mapM sixtieth?
    let end_ ← Decimal.finite? (whole ++ '.' :: dropUnderscores fraction)
    let size := ((n :: parts).dropLast).foldl (fun acc d => acc * 60 + d) 0
    let x := end_ + Float.ofNat (size * 60)
    some (if neg then -x else x)
  | _ => none

/-- A double of any kind. -/
def float? (cs : List Char) : Option Float :=
  match (finite? cs).orElse fun _ => sexagesimal? cs with
  | some x => some x
  | none =>
    let (neg, body) := sign cs
    let word := String.ofList body
    if [".inf", ".Inf", ".INF"].contains word then
      some (if neg then -(1.0 / 0.0) else 1.0 / 0.0)
    else if [".nan", ".NaN", ".NAN"].contains (String.ofList cs) then some (0.0 / 0.0)
    else none

/-- One or two digits, as a number. -/
def upToTwoDigits? (cs : List Char) : Option (Nat × List Char) :=
  let ds := (cs.take 2).takeWhile isDigit
  if ds.isEmpty then none else some (ofDigits ds, cs.drop ds.length)

/-- What follows a given character. -/
def after? (c : Char) (cs : List Char) : Option (List Char) :=
  match cs with
  | d :: rest => if d = c then some rest else none
  | [] => none

/-- The zone that ends a moment: nothing, `Z`, or an offset of hours with or without minutes. -/
def zone? (cs : List Char) : Option (Option Int) :=
  match cs.dropWhile fun c => c = ' ' || c = '\t' with
  | [] => if cs.isEmpty then some none else none
  | ['Z'] => some (some 0)
  | c :: rest => do
    if c ≠ '+' ∧ c ≠ '-' then none
    let (h, rest) ← upToTwoDigits? rest
    let m ← match rest with
      | [] => some 0
      | ':' ::
        rest => (Moment.twoDigits? rest).bind fun (m, rest) => if rest = [] then some m else none
      | _ => none
    let o : Int := h * 60 + m
    some (some (if c = '-' then -o else o))

/-- A date with a time. Month, day and hour may have a single digit. -/
def moment? (cs : List Char) : Option Moment := do
  let year := cs.take 4
  if year.length ≠ 4 ∨ !year.all isDigit then none
  let rest ← after? '-' (cs.drop 4)
  let (month, rest) ← upToTwoDigits? rest
  let rest ← after? '-' rest
  let (day, rest) ← upToTwoDigits? rest
  let rest ← match rest with
    | c :: rest =>
      if c = 'T' ∨ c = 't' then some rest
      else if c = ' ' ∨ c = '\t' then some (rest.dropWhile fun c => c = ' ' || c = '\t')
      else none
    | [] => none
  let (h, rest) ← upToTwoDigits? rest
  let rest ← after? ':' rest
  let (mi, rest) ← Moment.twoDigits? rest
  let rest ← after? ':' rest
  let (s, rest) ← Moment.twoDigits? rest
  let (fraction, rest) := match rest with
    | '.' :: rest => spanDigits rest
    | _ => ([], rest)
  let z ← zone? rest
  let date : Calendar.Date := ⟨ofDigits year, month, day⟩
  if !date.isValid ∨ h > 23 ∨ mi > 59 ∨ s > 59 then none
  let time := ((h * 60 + mi) * 60 + s) * 1000000 + Moment.fraction fraction
  some ⟨date.toDays * Moment.dayLength + time, z⟩

/-- Is the scalar written like a date without time? -/
def isDate (cs : List Char) : Bool :=
  match cs with
  | [a, b, c, d, '-', e, f, '-', g, h] => [a, b, c, d, e, f, g, h].all isDigit
  | _ => false

/-- Scalars that mean something of their own wherever they stand. -/
def markWords : List String := ["=", "<<"]

/-- The value that a plain scalar stands for. -/
def resolvePlain (cs : List Char) : Value :=
  let s := String.ofList cs
  if nullWords.contains s then .null
  else if trueWords.contains s then .bool true
  else if falseWords.contains s then .bool false
  else match integer? cs with
    | some i => .int i
    | none =>
      match float? cs with
      | some x => .float x
      | none =>
        match moment? cs with
        | some m => .moment m
        | none => .text s

end EntityGraph.Yaml

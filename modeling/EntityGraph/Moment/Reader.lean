import EntityGraph.Decimal.Number
import EntityGraph.Decimal.Reader
import EntityGraph.Moment

/-!
# Reading moments

Dates are `YYYY-MM-DD` and times `HH:MM`, `HH:MM:SS` or `HH:MM:SS` with a fraction, whose digits
past the sixth are dropped; a time may end in a zone, `Z` or `±HH:MM` or `±HHMM`, below 24 hours.
Date and time are joined by one of `T t _` or a space. A plain number counts seconds from 1970, or
milliseconds when it is beyond twenty thousand million. Nothing else is read, no surrounding space
either.
-/

namespace EntityGraph.Moment

open EntityGraph.Decimal EntityGraph.Calendar

/-- Read exactly two digits. -/
def twoDigits? : List Char → Option (Nat × List Char)
  | a :: b :: rest =>
    if isDigit a && isDigit b then some (digitValue a * 10 + digitValue b, rest) else none
  | _ => none

/-- Read a date of the years 1 to 9999. -/
def date? : List Char → Option (Date × List Char)
  | a :: b :: c :: d :: '-' :: rest => do
    let ds := [a, b, c, d]
    if !ds.all isDigit then none
    let (month, rest) ← twoDigits? rest
    match rest with
    | '-' :: rest =>
      let (day, rest) ← twoDigits? rest
      let date : Date := ⟨ofDigits ds, month, day⟩
      if date.isValid then some (date, rest) else none
    | _ => none
  | _ => none

/-- Microseconds of a fraction: its first six digits, filled up with zeros. -/
def fraction (ds : List Char) : Nat :=
  ofDigits ((ds ++ List.replicate 6 '0').take 6)

/-- Read seconds with an optional fraction, after the colon. -/
def seconds? (cs : List Char) : Option (Nat × List Char) := do
  let (s, rest) ← twoDigits? cs
  if s > 59 then none
  match rest with
  | c :: tail =>
    if c = '.' ∨ c = ',' then
      let (ds, rest) := spanDigits tail
      if ds = [] then none else some (s * 1000000 + fraction ds, rest)
    else some (s * 1000000, rest)
  | [] => some (s * 1000000, [])

/-- Read a time of day, in microseconds. -/
def clock? (cs : List Char) : Option (Nat × List Char) := do
  let (h, rest) ← twoDigits? cs
  match rest with
  | ':' :: rest =>
    let (m, rest) ← twoDigits? rest
    if h > 23 ∨ m > 59 then none
    let base := (h * 60 + m) * 60000000
    match rest with
    | ':' :: rest =>
      let (s, rest) ← seconds? rest
      some (base + s, rest)
    | _ => some (base, rest)
  | _ => none

/-- Is the character a sign of subtraction: the hyphen of plain texts, or U+2212? -/
def isMinus (c : Char) : Bool := c = '-' || c.toNat = 0x2212

/-- Read a zone that ends the text: nothing, `Z`, or an offset. -/
def zone? : List Char → Option (Option Int)
  | [] => some none
  | ['Z'] => some (some 0)
  | ['z'] => some (some 0)
  | c :: rest => do
    let neg ← if isMinus c then some true else if c = '+' then some false else none
    let (h, rest) ← twoDigits? rest
    let rest := match rest with
      | ':' :: r => r
      | r => r
    let (m, rest) ← twoDigits? rest
    if rest ≠ [] ∨ h > 23 ∨ m > 59 then none
    let o : Int := h * 60 + m
    some (some (if neg then -o else o))

/-- Read a time of day with its zone. -/
def time? (cs : List Char) : Option (Nat × Option Int) := do
  let (t, rest) ← clock? cs
  let z ← zone? rest
  some (t, z)

/-- Read a date with a time. -/
def dateTime? (cs : List Char) : Option Moment := do
  let (d, rest) ← date? cs
  match rest with
  | c :: rest =>
    if c = 'T' ∨ c = 't' ∨ c = ' ' ∨ c = '_' then
      let (t, z) ← time? rest
      some ⟨d.toDays * dayLength + t, z⟩
    else none
  | [] => none

/-- Read a date that is the whole text. -/
def dateOnly? (cs : List Char) : Option Date := do
  let (d, rest) ← date? cs
  if rest = [] then some d else none

/-- The size up to which a number counts seconds. -/
def secondsLimit : Nat := 20000000000

/-- Round a fraction with positive denominator to the nearest integer, a half upwards. -/
def roundRatio (num : Int) (den : Nat) : Int := Int.fdiv (2 * num + den) (2 * den)

/-- Microseconds in the unit that a count of this size uses: seconds, or milliseconds for large
counts. -/
def unitOf (num : Int) (den : Nat) : Int :=
  if num.natAbs ≤ secondsLimit * den then 1000000 else 1000

/-- The moment of so many microseconds from 1970 in UTC, if a calendar has it. -/
def ofMicroseconds? (us : Int) : Option Moment :=
  let m : Moment := ⟨us, some 0⟩
  if m.isValid then some m else none

/-- The instant that a written number counts to. -/
def ofNumber? : Number → Option Moment
  | .ratio num den => ofMicroseconds? (roundRatio (num * unitOf num den) den)
  | _ => none

/-- The microseconds in the fraction of a number, whose sign is left out. -/
def microseconds (num : Int) (den : Nat) : Int := roundRatio (num.natAbs % den * 1000000 : Nat) den

/-- The instant that a double counts to: its units, rounded down, and its fraction as a part of a
second on top of them. -/
def ofDouble? : Number → Option Moment
  | .ratio num den =>
    let units := Int.fdiv num den
    ofMicroseconds? (units * unitOf units 1 + microseconds num den)
  | _ => none

/-- Read a plain number: an optional sign, digits, and an optional point with more digits or
none. -/
def number? (cs : List Char) : Option Number :=
  let (neg, body) := sign cs
  let (whole, rest) := spanDigits body
  let signed (n : Nat) : Int := if neg then -(n : Int) else n
  if whole = [] then none
  else match rest with
    | [] => some (.ratio (signed (ofDigits whole)) 1)
    | '.' :: tail =>
      let (frac, rest) := spanDigits tail
      if rest ≠ [] then none
      else some (.ratio (signed (ofDigits (whole ++ frac))) (Nat.pow 10 frac.length))
    | _ => none

/-- Read a moment: date with time, plain number, or date alone at midnight. -/
def ofText? (text : String) : Option Moment :=
  let cs := text.toList
  match dateTime? cs with
  | some m => some m
  | none =>
    match dateOnly? cs with
    | some d => some (midnight d)
    | none => (number? cs).bind ofNumber?

/-- The day of a moment whose clock shows midnight. -/
def dateOf? (m : Moment) : Option Moment :=
  if m.timeOfDay = 0 then some ⟨m.clock, none⟩ else none

/-- Read a time of day on 1970-01-01. -/
def timeOfText? (text : String) : Option Moment :=
  (time? text.toList).map fun (t, z) => ⟨t, z⟩

/-- The time of day, in UTC, that a number of seconds below one day counts to. -/
def timeOfNumber? : Number → Option Moment
  | .ratio num den =>
    let us := roundRatio (num * 1000000) den
    if 0 ≤ num ∧ us < dayLength then some ⟨us, some 0⟩ else none
  | _ => none

/-- Read a moment in the exchange form: a date with time, fraction and offset as far as they are
given, or a date alone at midnight. -/
def ofIso? (text : String) : Option Moment :=
  match dateTime? text.toList with
  | some m => some m
  | none => (dateOnly? text.toList).map midnight

end EntityGraph.Moment

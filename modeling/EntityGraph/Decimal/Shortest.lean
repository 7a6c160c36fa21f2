/-!
# Shortest decimals

A finite double is `m · 2 ^ q`. The **shortest decimal** of a double is the decimal with the fewest
digits among those that read back as the same double, and of those the nearest to it. The search
goes through the grids of one, two, ... seventeen digits and tests, in exact arithmetic, the two
neighbours of the value on each grid against the interval of reals that round to the double.
-/

namespace EntityGraph.Decimal

/-- A finite double: `mantissa · 2 ^ exponent`, with its sign. -/
structure Binary where
  /-- is the sign bit set? -/
  negative : Bool
  /-- the integral mantissa -/
  mantissa : Nat
  /-- the power of two -/
  exponent : Int
  deriving DecidableEq

/-- What a double is. -/
inductive Reading where
  | nan
  | infinite (negative : Bool)
  | finite (b : Binary)
  deriving DecidableEq

/-- Decode the 64 bits of a double. -/
def Reading.ofBits (bits : Nat) : Reading :=
  let negative := bits / Nat.pow 2 63 % 2 == 1
  let e : Nat := bits / Nat.pow 2 52 % Nat.pow 2 11
  let f : Nat := bits % Nat.pow 2 52
  if e = 2047 then
    if f = 0 then .infinite negative else .nan
  else if e = 0 then .finite ⟨negative, f, -1074⟩
  else .finite ⟨negative, f + Nat.pow 2 52, (e : Int) - 1075⟩

/-- What a double is. -/
def Reading.ofFloat (x : Float) : Reading := Reading.ofBits x.toBits.toNat

/-- The interval of reals that round to a positive double, as numerators over one denominator. -/
structure Interval where
  /-- four times the mantissa, scaled -/
  value : Nat
  /-- lower end -/
  low : Nat
  /-- upper end -/
  high : Nat
  /-- the common denominator -/
  denominator : Nat
  /-- do the ends round to the double? -/
  closed : Bool

/-- The rounding interval of a positive double. Below a power of two the gap is half as wide. -/
def Binary.interval (b : Binary) : Interval :=
  let gap := if b.mantissa = Nat.pow 2 52 ∧ b.exponent > -1074 then 1 else 2
  let q := b.exponent - 2
  let up := if q ≥ 0 then Nat.pow 2 q.toNat else 1
  let den := if q ≥ 0 then 1 else Nat.pow 2 (-q).toNat
  ⟨4 * b.mantissa * up, (4 * b.mantissa - gap) * up, (4 * b.mantissa + 2) * up, den,
    b.mantissa % 2 == 0⟩

/-- Number of decimal digits of a positive number. -/
def digitCount (n : Nat) : Nat := (Nat.toDigits 10 n).length

/-- The number of leading zeros after the point of `num / den`, when that is below one. -/
def leadingZeros (num den : Nat) : Nat → Nat
  | 0 => 0
  | fuel + 1 => if num * 10 ≥ den then 0 else leadingZeros (num * 10) den fuel + 1

/-- The position of the point before the first digit: `num / den = 0.d₁d₂… · 10 ^ magnitude`. -/
def magnitude (num den : Nat) : Int :=
  if num ≥ den then (digitCount (num / den) : Int) else -(leadingZeros num den 400 : Int)

/-- Is `c · 10 ^ k` inside the interval? -/
def Interval.contains (i : Interval) (c : Nat) (k : Int) : Bool :=
  let x := if k ≥ 0 then c * Nat.pow 10 k.toNat * i.denominator else c * i.denominator
  let s := if k ≥ 0 then 1 else Nat.pow 10 (-k).toNat
  if i.closed then i.low * s ≤ x && x ≤ i.high * s else i.low * s < x && x < i.high * s

/-- The neighbour of the value on the grid `10 ^ k` that lies in the interval, the nearer of two,
and of two equally near ones the even one. -/
def Interval.onGrid? (i : Interval) (k : Int) : Option Nat :=
  let num := if k ≥ 0 then i.value else i.value * Nat.pow 10 (-k).toNat
  let den := if k ≥ 0 then i.denominator * Nat.pow 10 k.toNat else i.denominator
  let c := num / den
  let rest := num % den
  match i.contains c k, i.contains (c + 1) k with
  | true, true =>
    if 2 * rest < den then some c
    else if 2 * rest > den then some (c + 1)
    else if c % 2 = 0 then some c else some (c + 1)
  | true, false => some c
  | false, true => some (c + 1)
  | false, false => none

/-- Try the grids of `digits`, `digits + 1`, ... digits. -/
def Interval.search (i : Interval) (point : Int) : Nat → Nat → Nat × Int
  | 0, digits => (i.value / i.denominator, point - digits)
  | fuel + 1, digits =>
    match i.onGrid? (point - digits) with
    | some c => (c, point - digits)
    | none => search i point fuel (digits + 1)

/-- Drop trailing decimal zeros. -/
def stripZeros : Nat → Nat → Int → Nat × Int
  | 0, c, k => (c, k)
  | fuel + 1, c, k => if c ≠ 0 ∧ c % 10 = 0 then stripZeros fuel (c / 10) (k + 1) else (c, k)

/-- The shortest decimal `c · 10 ^ k` of a double without its sign. -/
def Binary.shortest (b : Binary) : Nat × Int :=
  if b.mantissa = 0 then (0, 0)
  else
    let i := b.interval
    let (c, k) := i.search (magnitude i.value i.denominator) 17 1
    stripZeros 20 c k

/-! ## Writing -/

/-- How the digits of a double are laid out. -/
structure Layout where
  /-- smallest magnitude of the first digit that is written without exponent -/
  fixedFrom : Int
  /-- first magnitude that is written with an exponent again -/
  fixedBelow : Int
  /-- what an integral number ends in -/
  integralTail : String
  /-- least number of digits of the exponent -/
  exponentDigits : Nat
  /-- text of infinity -/
  infinity : String
  /-- text of a number that is none -/
  notANumber : String

/-- Doubles are written positionally from `0.0001` to below `10 ^ 16`, integral ones end in `.0`,
and an exponent has a sign and two digits. -/
def plainLayout : Layout := ⟨-4, 16, ".0", 2, "inf", "nan"⟩

/-- The text of an exponent with its sign. -/
def exponentText (least : Nat) (e : Int) : String :=
  let ds := toString e.natAbs
  let pad := String.ofList (List.replicate (least - ds.length) '0')
  (if e < 0 then "-" else "+") ++ pad ++ ds

/-- Lay out the digits `c · 10 ^ k`. -/
def Layout.digits (l : Layout) (c : Nat) (k : Int) : String :=
  let ds := (toString c).toList
  let n : Int := ds.length
  let first := k + n - 1
  if c = 0 then "0" ++ l.integralTail
  else if l.fixedFrom ≤ first ∧ first < l.fixedBelow then
    if first < 0 then
      "0." ++ String.ofList (List.replicate (-first - 1).toNat '0' ++ ds)
    else if k ≥ 0 then
      String.ofList (ds ++ List.replicate k.toNat '0') ++ l.integralTail
    else
      let whole := (first + 1).toNat
      String.ofList (ds.take whole ++ '.' :: ds.drop whole)
  else
    let tail := ds.drop 1
    let body := if tail = [] then ds else ds.take 1 ++ '.' :: tail
    String.ofList body ++ "e" ++ exponentText l.exponentDigits first

/-- The text of a double in a layout. -/
def Layout.text (l : Layout) (x : Float) : String :=
  match Reading.ofFloat x with
  | .nan => l.notANumber
  | .infinite neg => (if neg then "-" else "") ++ l.infinity
  | .finite b =>
    let (c, k) := b.shortest
    (if b.negative then "-" else "") ++ l.digits c k

/-- The plain text of a double. -/
def floatText (x : Float) : String := plainLayout.text x

end EntityGraph.Decimal

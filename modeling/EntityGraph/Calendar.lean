/-!
# Calendar days

Days of the proleptic Gregorian calendar are numbered from 1970-01-01. The two directions go through
the 400-year cycle of 146097 days, with years that begin in March, so that the leap day comes last.
-/

namespace EntityGraph.Calendar

/-- A calendar date. -/
structure Date where
  year : Int
  month : Nat
  day : Nat
  deriving DecidableEq

/-- Leap years: every fourth year, of the centuries only every fourth. -/
def isLeap (year : Int) : Bool := year % 4 = 0 && (year % 100 != 0 || year % 400 = 0)

/-- The number of days of a month. -/
def daysInMonth (year : Int) (month : Nat) : Nat :=
  if month = 2 then (if isLeap year then 29 else 28)
  else if month = 4 ∨ month = 6 ∨ month = 9 ∨ month = 11 then 30
  else 31

/-- Is this a date of the years 1 to 9999? -/
def Date.isValid (d : Date) : Bool :=
  1 ≤ d.year && d.year ≤ 9999 && 1 ≤ d.month && d.month ≤ 12 &&
    1 ≤ d.day && d.day ≤ daysInMonth d.year d.month

/-- The number of the day. -/
def Date.toDays (d : Date) : Int :=
  let y := if d.month ≤ 2 then d.year - 1 else d.year
  let era := Int.fdiv y 400
  let yoe := y - era * 400
  let mp : Int := (d.month + 9) % 12
  let doy := (153 * mp + 2) / 5 + d.day - 1
  let doe := yoe * 365 + yoe / 4 - yoe / 100 + doy
  era * 146097 + doe - 719468

/-- The date of a numbered day. -/
def Date.ofDays (days : Int) : Date :=
  let z := days + 719468
  let era := Int.fdiv z 146097
  let doe := z - era * 146097
  let yoe := (doe - doe / 1460 + doe / 36524 - doe / 146096) / 365
  let doy := doe - (365 * yoe + yoe / 4 - yoe / 100)
  let mp := (5 * doy + 2) / 153
  let day := doy - (153 * mp + 2) / 5 + 1
  let month := if mp < 10 then mp + 3 else mp - 9
  let year := yoe + era * 400 + (if month ≤ 2 then 1 else 0)
  ⟨year, month.toNat, day.toNat⟩

/-- The last day of the year 9999. -/
def lastDay : Int := Date.toDays ⟨9999, 12, 31⟩

/-- The first day of the year 1. -/
def firstDay : Int := Date.toDays ⟨1, 1, 1⟩

/-- A number in decimal with at least `width` digits. -/
def padded (width n : Nat) : String :=
  let ds := toString n
  String.ofList (List.replicate (width - ds.length) '0') ++ ds

/-- A date as `YYYY-MM-DD`. -/
def Date.text (d : Date) : String :=
  padded 4 d.year.toNat ++ "-" ++ padded 2 d.month ++ "-" ++ padded 2 d.day

end EntityGraph.Calendar

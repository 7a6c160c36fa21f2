import EntityGraph.Calendar

/-!
# Moments

A **moment** is a date and time of day read off a clock, to the microsecond, with or without the
clock's offset from UTC. Moments with an offset stand for instants and are compared as such; those
without are compared by what their clocks show; the two kinds are never equal and have no order.
-/

namespace EntityGraph

/-- A date and time of day, with the offset of its clock when that is known. -/
structure Moment where
  /-- microseconds from 1970-01-01 00:00, as the clock shows them -/
  clock : Int
  /-- minutes that the clock is ahead of UTC -/
  offset : Option Int
  deriving DecidableEq

namespace Moment

/-- Microseconds of a day. -/
def dayLength : Int := 86400000000

/-- Microseconds of a minute. -/
def minuteLength : Int := 60000000

/-- The day that the clock shows, by number. -/
def day (m : Moment) : Int := Int.fdiv m.clock dayLength

/-- Microseconds since midnight. -/
def timeOfDay (m : Moment) : Nat := (m.clock - m.day * dayLength).toNat

/-- The instant, for a moment with an offset. -/
def instant? (m : Moment) : Option Int := m.offset.map fun o => m.clock - o * minuteLength

/-- Are two moments the same? -/
def eq (a b : Moment) : Bool :=
  match a.instant?, b.instant? with
  | some x, some y => x == y
  | none, none => a.clock == b.clock
  | _, _ => false

/-- Is the first moment before the second? `none` when only one of them has an offset. -/
def lt? (a b : Moment) : Option Bool :=
  match a.instant?, b.instant? with
  | some x, some y => some (decide (x < y))
  | none, none => some (decide (a.clock < b.clock))
  | _, _ => none

/-- The hour, minute, second and microsecond of the day. -/
def parts (m : Moment) : Nat × Nat × Nat × Nat :=
  let t := m.timeOfDay
  (t / 3600000000, t / 60000000 % 60, t / 1000000 % 60, t % 1000000)

/-- An offset as `+HH:MM`. -/
def offsetText (o : Int) : String :=
  (if o < 0 then "-" else "+") ++ Calendar.padded 2 (o.natAbs / 60) ++ ":" ++
    Calendar.padded 2 (o.natAbs % 60)

/-- The moment as text, with `separator` between date and time. Microseconds are written when there
are any. -/
def text (separator : String) (m : Moment) : String :=
  let (h, mi, s, us) := m.parts
  (Calendar.Date.ofDays m.day).text ++ separator ++
    Calendar.padded 2 h ++ ":" ++ Calendar.padded 2 mi ++ ":" ++ Calendar.padded 2 s ++
    (if us = 0 then "" else "." ++ Calendar.padded 6 us) ++
    (match m.offset with
      | none => ""
      | some o => offsetText o)

/-- Midnight of a date, without offset. -/
def midnight (d : Calendar.Date) : Moment := ⟨d.toDays * dayLength, none⟩

/-- The moment whose clock is on a day of the years 1 to 9999. -/
def isValid (m : Moment) : Bool := Calendar.firstDay ≤ m.day && m.day ≤ Calendar.lastDay

end Moment

end EntityGraph

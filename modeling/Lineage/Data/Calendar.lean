/-!
# Dates and instants

Dates of the Gregorian calendar from year 1 to year 9999, and instants to the microsecond with or
without an offset from universal time.
-/

namespace Lineage

/-- A day of the calendar. -/
structure CalendarDate where
  year : Nat
  month : Nat
  day : Nat
deriving DecidableEq, Repr

/-- A time on a day; `offset` is the lead over universal time in minutes. -/
structure Instant where
  date : CalendarDate
  hour : Nat
  minute : Nat
  second : Nat
  micro : Nat
  offset : Option Int
deriving DecidableEq, Repr

namespace CalendarDate

/-- Every fourth year is a leap year, except for the full centuries that 400 does not divide. -/
def isLeap (year : Nat) : Bool :=
  year % 4 == 0 && (year % 100 != 0 || year % 400 == 0)

/-- The number of days of a month. -/
def daysInMonth (year month : Nat) : Nat :=
  if month == 2 then (if isLeap year then 29 else 28)
  else if month == 4 || month == 6 || month == 9 || month == 11 then 30
  else 31

/-- The day with the given numbers, if the calendar has it. -/
def of? (year month day : Nat) : Option CalendarDate :=
  if 1 ≤ year && year ≤ 9999 && 1 ≤ month && month ≤ 12 && 1 ≤ day
      && day ≤ daysInMonth year month then
    some ⟨year, month, day⟩
  else none

/-- The number of days before the given one, counted from the start of year 1. -/
def ordinal (d : CalendarDate) : Nat :=
  let y := d.year - 1
  let months := (List.range (d.month - 1)).map fun m => daysInMonth d.year (m + 1)
  y * 365 + y / 4 - y / 100 + y / 400 + months.foldl (· + ·) 0 + d.day

end CalendarDate

namespace Instant

/-- The instant with the given numbers, if they are in range; an offset stays under one day. -/
def of? (date : CalendarDate) (hour minute second micro : Nat) (offset : Option Int) :
    Option Instant :=
  let offsetFits := match offset with
    | some o => o.natAbs < 24 * 60
    | none => true
  if hour < 24 && minute < 60 && second < 60 && micro < 1000000 && offsetFits then
    some ⟨date, hour, minute, second, micro, offset⟩
  else none

/-- The microseconds since the start of year 1, by local time. -/
def localMicros (t : Instant) : Int :=
  (((t.date.ordinal * 24 + t.hour) * 60 + t.minute) * 60 + t.second : Nat) * 1000000 + t.micro

/-- Two instants coincide if both lack an offset and show the same time, or both have one and
fall on the same universal time. -/
def coincides (a b : Instant) : Bool :=
  match a.offset, b.offset with
  | none, none => a.localMicros == b.localMicros
  | some x, some y => a.localMicros - x * 60000000 == b.localMicros - y * 60000000
  | _, _ => false

end Instant

end Lineage

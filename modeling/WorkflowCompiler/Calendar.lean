/-!
# Dates and times of day

A moment is a whole number of seconds since the start of 1970 in universal time, and every
day has 86400 of them. `Date.ofDays` finds the day in the Gregorian calendar, counting years
from March, so that the leap day ends a year and the months before it have fixed starts.

A year has at least four digits; one below zero has a minus in front of them, and one above
9999 a plus.
-/

namespace WorkflowCompiler.Calendar

/-- A day of the Gregorian calendar. -/
structure Date where
  /-- the year; the year before year 1 is year 0 -/
  year : Int
  /-- the month, from 1 -/
  month : Int
  /-- the day of the month, from 1 -/
  day : Int
deriving DecidableEq

/-- The days of a span of 400 years, after which the calendar repeats. -/
def daysPerEra : Int := 146097

/-- The days from the first of March of year 0 to the first of January 1970. -/
def daysBeforeEpoch : Int := 719468

/-- The date of a day, counted from the first of January 1970. -/
def Date.ofDays (days : Int) : Date :=
  let shifted := days + daysBeforeEpoch
  let era := shifted / daysPerEra
  let dayOfEra := shifted % daysPerEra
  let yearOfEra :=
    (dayOfEra - dayOfEra / 1460 + dayOfEra / 36524 - dayOfEra / 146096) / 365
  let dayOfYear := dayOfEra - (365 * yearOfEra + yearOfEra / 4 - yearOfEra / 100)
  let monthFromMarch := (5 * dayOfYear + 2) / 153
  let month := if monthFromMarch < 10 then monthFromMarch + 3 else monthFromMarch - 9
  { year := yearOfEra + era * 400 + (if month ≤ 2 then 1 else 0)
    month := month
    day := dayOfYear - (153 * monthFromMarch + 2) / 5 + 1 }

/-- A number with zeros in front, up to a width. -/
def padded (width : Nat) (n : Nat) : String :=
  let ds := Nat.toDigits 10 n
  String.ofList (List.replicate (width - ds.length) '0' ++ ds)

/-- A year. -/
def yearText (year : Int) : String :=
  if year < 0 then "-" ++ padded 4 year.natAbs
  else if 9999 < year then "+" ++ padded 4 year.natAbs
  else padded 4 year.natAbs

/-- A date as year, month and day. -/
def Date.text (d : Date) : String :=
  yearText d.year ++ "-" ++ padded 2 d.month.toNat ++ "-" ++ padded 2 d.day.toNat

/-- The date of a moment. -/
def dateText (seconds : Int) : String := (Date.ofDays (seconds / 86400)).text

/-- The time of day of a moment. -/
def timeText (seconds : Int) : String :=
  let inDay := (seconds % 86400).toNat
  padded 2 (inDay / 3600) ++ ":" ++ padded 2 (inDay / 60 % 60) ++ ":" ++ padded 2 (inDay % 60)

/-- A moment as date and time of day in universal time. -/
def timestampText (seconds : Int) : String :=
  dateText seconds ++ "T" ++ timeText seconds ++ "Z"

/-- A moment as the digits of date and time of day, without any signs between them. -/
def compactText (seconds : Int) : String :=
  let date := Date.ofDays (seconds / 86400)
  let inDay := (seconds % 86400).toNat
  yearText date.year ++ padded 2 date.month.toNat ++ padded 2 date.day.toNat ++
    padded 2 (inDay / 3600) ++ padded 2 (inDay / 60 % 60) ++ padded 2 (inDay % 60)

example : Date.ofDays 0 = ⟨1970, 1, 1⟩ := by decide
example : Date.ofDays 11016 = ⟨2000, 2, 29⟩ := by decide
example : Date.ofDays (-719529) = ⟨-1, 12, 31⟩ := by decide

end WorkflowCompiler.Calendar

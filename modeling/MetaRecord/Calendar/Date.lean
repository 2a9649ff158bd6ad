/-
# `MetaRecord.Calendar.Date` — days and dates

Days are counted from 1 January 1970, and dates follow the Gregorian rules
carried back without end.  A year is counted from its first of March, so that
the leap day closes it; four hundred years then have a fixed number of days,
and a date is found by dividing, without searching.
-/
namespace MetaRecord.Calendar

/-- A day of the Gregorian calendar; there is a year 0, and years before it
are negative. -/
structure Date where
  year : Int
  month : Nat
  day : Nat
deriving DecidableEq, Repr

/-- Days in four hundred years. -/
def eraDays : Nat := 146097

/-- Days from 1 March of the year 0 to 1 January 1970. -/
def epochDay : Nat := 719468

/-- The year of its era to which the day `n` of an era belongs, both counted
from zero and from 1 March. -/
def yearOfEra (n : Nat) : Nat := (n - n / 1460 + n / 36524 - n / 146096) / 365

/-- The first day of the year `y` of an era. -/
def firstDayOfYear (y : Nat) : Nat := 365 * y + y / 4 - y / 100

/-- The month to which the day `n` of a year belongs, both counted from zero
and from 1 March. -/
def monthOfYear (n : Nat) : Nat := (5 * n + 2) / 153

/-- The first day of the month `m`, counted likewise. -/
def firstDayOfMonth (m : Nat) : Nat := (153 * m + 2) / 5

/-- The date `days` days after 1 January 1970. -/
def Date.ofDays (days : Int) : Date :=
  let shifted := days + epochDay
  let era := shifted / eraDays
  let dayOfEra := (shifted % eraDays).toNat
  let year := yearOfEra dayOfEra
  let dayOfYear := dayOfEra - firstDayOfYear year
  let month := monthOfYear dayOfYear
  let day := dayOfYear - firstDayOfMonth month + 1
  -- January and February close the year that began the March before.
  if month < 10 then ⟨era * 400 + year, month + 3, day⟩
  else ⟨era * 400 + year + 1, month - 9, day⟩

example : Date.ofDays 0 = ⟨1970, 1, 1⟩ ∧ Date.ofDays (-1) = ⟨1969, 12, 31⟩
    ∧ Date.ofDays 11016 = ⟨2000, 2, 29⟩ ∧ Date.ofDays (-719529) = ⟨-1, 12, 31⟩ := by decide

/-! ## Months -/

/-- The year has a leap day. -/
def isLeapYear (year : Nat) : Bool := year % 4 = 0 && (year % 100 != 0 || year % 400 = 0)

/-- Days in a month, which is counted from 1. -/
def daysInMonth (year month : Nat) : Nat :=
  if month = 2 then if isLeapYear year then 29 else 28
  else if month = 4 ∨ month = 6 ∨ month = 9 ∨ month = 11 then 30
  else 31

end MetaRecord.Calendar

/-
# `MetaRecord.Calendar.Instant` — instants and their text

An instant is a number of seconds since 1 January 1970 and a fraction in
nanoseconds.  A fraction of a whole second or more is a leap second, which is
only possible in the last second of a minute.  The text is RFC 3339 with nine
fraction digits, in UTC.
-/
import MetaRecord.Calendar.Date
import MetaRecord.Text.Numeral

namespace MetaRecord.Calendar

/-- A point in time. -/
structure Instant where
  seconds : Int
  nanos : Nat
deriving DecidableEq, Repr

namespace Instant

def daySeconds : Nat := 86400

def secondNanos : Nat := 1000000000

/-- The first and the last year that have instants. -/
def firstYear : Int := -262143
def lastYear : Int := 262142

def date (t : Instant) : Date := Date.ofDays (t.seconds / daySeconds)

/-- Seconds since the start of the day. -/
def secondOfDay (t : Instant) : Nat := (t.seconds % daySeconds).toNat

/-- The instant at the given seconds and nanoseconds, if there is one. -/
def ofUnix? (seconds : Int) (nanos : Nat) : Option Instant :=
  let t : Instant := ⟨seconds, nanos⟩
  let leap := secondNanos ≤ nanos
  if 2 * secondNanos ≤ nanos then none
  else if leap ∧ seconds % 60 ≠ 59 then none
  else if firstYear ≤ t.date.year ∧ t.date.year ≤ lastYear then some t
  else none

/-- The instant at the given nanoseconds since 1 January 1970. -/
def ofNanos (n : Int) : Instant := ⟨n / secondNanos, (n % secondNanos).toNat⟩

/-- A year as text: four digits, or a sign and at least four digits when the
year is outside 0 to 9999. -/
def yearText (year : Int) : List Char :=
  if 0 ≤ year ∧ year < 10000 then Text.fixed 4 year.toNat
  else (if year < 0 then '-' else '+') :: Text.decimalAtLeast 4 year.natAbs

/-- The text of an instant.  A leap second is shown as second 60. -/
def chars (t : Instant) : List Char :=
  let d := t.date
  let s := t.secondOfDay
  let leap := t.nanos / secondNanos
  yearText d.year ++ '-' :: Text.fixed 2 d.month ++ '-' :: Text.fixed 2 d.day ++
    'T' :: Text.fixed 2 (s / 3600) ++ ':' :: Text.fixed 2 (s / 60 % 60) ++
    ':' :: Text.fixed 2 (s % 60 + leap) ++ '.' :: Text.fixed 9 (t.nanos % secondNanos) ++ ['Z']

def text (t : Instant) : String := String.ofList t.chars

example : (ofNanos 1700000000000000005).text = "2023-11-14T22:13:20.000000005Z" := by decide

end Instant

end MetaRecord.Calendar

/-
# `MetaRecord.Toml.Moment` — dates and times

A moment is a date, a time of day, or both; with both it may also say how far
its clock is from universal time.
-/
import MetaRecord.Calendar.Date
import MetaRecord.Toml.Parse

namespace MetaRecord.Toml

open Parse

namespace Moment

/-- A decimal number of `width` digits, from `low` to `high`. -/
def number (width low high : Nat) : Parse Nat := do
  let n ← fixedNumber 10 width
  if low ≤ n && n ≤ high then return n else failure

def date : Parse Unit := do
  let year ← number 4 0 9999
  char '-'
  let month ← number 2 1 12
  char '-'
  let _ ← number 2 1 (Calendar.daysInMonth year month)

def clock : Parse Unit := do
  let _ ← number 2 0 23
  char ':'
  let _ ← number 2 0 59

/-- A time of day; the last minute of a day may have a leap second. -/
def time : Parse Unit := do
  clock
  char ':'
  let _ ← number 2 0 60
  if ← found '.' then
    let _ ← digit 10
    let _ ← run Char.isDigit

/-- The distance from universal time. -/
def offset : Parse Unit := do
  match ← one fun c => c = 'Z' || c = 'z' || c = '+' || c = '-' with
  | 'Z' | 'z' => return ()
  | _ => clock

/-- A time on the date before it. -/
def timeOfDate : Parse Unit := do
  let _ ← one fun c => c = 'T' || c = 't' || c = ' '
  time
  let _ ← maybe offset

def moment : Parse Unit := do
  if (← maybe date).isSome then
    let _ ← maybe timeOfDate
  else time

end Moment

end MetaRecord.Toml

/-
# `MetaRecord.Toml.Number` — numbers

Whole numbers are decimal with an optional sign, or hexadecimal, octal or
binary without one, and fit in 64 bits.  Single underscores may stand between
digits, and a decimal number of several digits does not begin with a zero.
-/
import MetaRecord.Toml.Parse

namespace MetaRecord.Toml

open Parse

namespace Number

/-! ## Digits -/

/-- Further digits, each of which may come after an underscore. -/
def moreDigits (radix : Nat) : (left : List Char) → Parse (List Nat)
  | [] => failure
  | _ :: left => do
    match ← maybe (do let _ ← found '_'; digit radix) with
    | some d => return d :: (← moreDigits radix left)
    | none => return []

def digits (radix : Nat) : Parse (List Nat) := do
  return (← digit radix) :: (← rounds (moreDigits radix))

/-- The digits of a decimal number without needless zeros in front. -/
def wholeDigits : Parse (List Nat) := do
  match ← digits 10 with
  | 0 :: _ :: _ => failure
  | ds => return ds

/-- A sign, if there is one; it says whether the number is negative. -/
def sign : Parse Bool := do
  if ← found '-' then return true
  let _ ← found '+'
  return false

def signed (negative : Bool) (n : Nat) : Int := if negative then -n else n

/-! ## Whole numbers -/

/-- The number fits in 64 bits with a sign. -/
def fits (n : Int) : Bool := -0x8000000000000000 ≤ n && n < 0x8000000000000000

/-- The digits of a number in another radix, after the mark of that radix. -/
def inRadix (mark : String) (radix : Nat) : Parse Int := do
  word mark
  return numberOf radix (← digits radix)

def inDecimal : Parse Int := do
  return signed (← sign) (numberOf 10 (← wholeDigits))

def integer : Parse Int := do
  let n ← inRadix "0x" 16 <|> inRadix "0o" 8 <|> inRadix "0b" 2 <|> inDecimal
  if fits n then return n else failure

/-! ## Floating-point numbers -/

/-- The least number that is rounded up to infinity in double precision: half
way from the largest number to the next power of two. -/
def infinityFrom : Nat := Nat.pow 2 1024 - Nat.pow 2 970

/-- The number `m · 10 ^ e` is rounded to infinity in double precision.  The
count of its digits decides unless it comes close. -/
def isHuge (m : Nat) (e : Int) : Bool :=
  let size := (Nat.toDigits 10 m).length + e
  if m = 0 ∨ size < 309 then false
  else if 309 < size then true
  else if 0 ≤ e then infinityFrom ≤ m * Nat.pow 10 e.toNat
  else infinityFrom * Nat.pow 10 (-e).toNat ≤ m

def fraction : Parse (List Nat) := do
  char '.'
  digits 10

def exponent : Parse Int := do
  let _ ← one fun c => c = 'e' || c = 'E'
  return signed (← sign) (numberOf 10 (← digits 10))

/-- A number with a fraction, an exponent or both.  One that is too large is
refused, unless it is negative. -/
def finite : Parse Unit := do
  let negative ← sign
  let whole ← wholeDigits
  let part ← maybe fraction
  let power ← if part.isSome then maybe exponent else some <$> exponent
  let part := part.getD []
  if !negative && isHuge (numberOf 10 (whole ++ part)) (power.getD 0 - part.length) then failure

/-- Infinity, or what is not a number. -/
def special : Parse Unit := do
  let _ ← sign
  word "inf" <|> word "nan"

def float : Parse Unit := finite <|> special

end Number

end MetaRecord.Toml

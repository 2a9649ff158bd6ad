/-
# `MetaRecord.Decimal.Binary64` — double-precision numbers by their bits

A floating-point number is kept as the 64 bits it is stored in: a sign, an
11-bit exponent and a 52-bit fraction.  All arithmetic on it is exact and over
the naturals.  A single-precision number is widened without rounding.
-/
namespace MetaRecord.Decimal

/-- A double-precision number, as its bits. -/
structure Binary64 where
  bits : UInt64
deriving DecidableEq, Repr

namespace Binary64

def signBit : Nat := 0x8000000000000000

/-- How many fractions there are. -/
def fractions : Nat := 0x10000000000000

/-- The number with the given sign, exponent field and fraction field. -/
def ofFields (negative : Bool) (exponent fraction : Nat) : Binary64 :=
  ⟨UInt64.ofNat ((if negative then signBit else 0) + exponent * fractions + fraction)⟩

/-- The sign bit; zero and not-a-number have one too. -/
def isNegative (x : Binary64) : Bool := signBit ≤ x.bits.toNat

/-- The stored exponent, from 0 to 2047. -/
def exponentField (x : Binary64) : Nat := x.bits.toNat / fractions % 0x800

def fractionField (x : Binary64) : Nat := x.bits.toNat % fractions

/-- Neither infinite nor not-a-number. -/
def isFinite (x : Binary64) : Bool := x.exponentField < 2047

def isNaN (x : Binary64) : Bool := x.exponentField = 2047 && x.fractionField != 0

/-- The magnitude of a finite number is `significand · 2 ^ (binade - 1075)`. -/
def significand (x : Binary64) : Nat :=
  if x.exponentField = 0 then x.fractionField else x.fractionField + fractions

/-- The exponent of a finite number, counted from the smallest. -/
def binade (x : Binary64) : Nat := max x.exponentField 1

/-- The double-precision number equal to the single-precision number with the
given 32 bits.  A small single-precision number is normal in double precision,
so its leading digit moves out of the fraction. -/
def ofBinary32 (bits : UInt32) : Binary64 :=
  let n := bits.toNat
  let negative : Bool := 0x80000000 ≤ n
  let exponent := n / 0x800000 % 0x100
  let fraction := n % 0x800000
  if exponent = 255 then ofFields negative 2047 (fraction * 0x20000000)
  else if exponent = 0 then
    if fraction = 0 then ofFields negative 0 0
    else
      let lead := fraction.log2
      ofFields negative (lead + 874) ((fraction - Nat.pow 2 lead) * Nat.pow 2 (52 - lead))
  else ofFields negative (exponent + 896) (fraction * 0x20000000)

end Binary64

end MetaRecord.Decimal

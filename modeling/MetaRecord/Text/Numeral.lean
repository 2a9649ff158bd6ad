/-
# `MetaRecord.Text.Numeral` — numbers as text, to a width

Numerals of a fixed number of digits, for dates and for hexadecimal codes, and
the blanks that align columns.

Main statement: `fixedValue_fixed`, a number that fits the width is read back
from its numeral, so equal numerals mean equal numbers.
-/
import MetaRecord.Bytes.Basic

namespace MetaRecord.Text

/-- The decimal digit for a value below ten. -/
def digit (n : Nat) : Char := Char.ofNat (48 + n % 10)

/-- The lowest `width` decimal digits of `n`. -/
def fixed : (width n : Nat) → List Char
  | 0, _ => []
  | width + 1, n => fixed width (n / 10) ++ [digit n]

/-- The number a list of decimal digits stands for. -/
def fixedValue (digits : List Char) : Nat :=
  digits.foldl (fun n c => n * 10 + (c.toNat - 48)) 0

@[simp] theorem length_fixed (width n : Nat) : (fixed width n).length = width := by
  induction width generalizing n with
  | zero => rfl
  | succ width ih => simp [fixed, ih]

theorem toNat_digit (n : Nat) : (digit n).toNat = 48 + n % 10 := by
  have h : ∀ d < 10, (Char.ofNat (48 + d)).toNat = 48 + d := by decide
  exact h _ (Nat.mod_lt _ (by decide))

/-- A number that fits the width is read back from its numeral. -/
theorem fixedValue_fixed (width n : Nat) (h : n < Nat.pow 10 width) :
    fixedValue (fixed width n) = n := by
  induction width generalizing n with
  | zero => simp at h; simp [fixed, fixedValue, h]
  | succ width ih =>
    have hq : n / 10 < Nat.pow 10 width := by
      have h : n < Nat.pow 10 width * 10 := h
      exact Nat.div_lt_of_lt_mul (by omega)
    have := ih _ hq
    simp only [fixedValue] at this
    simp only [fixed, fixedValue, List.foldl_append, List.foldl_cons, List.foldl_nil, this,
      toNat_digit]
    omega

/-- The decimal numeral of `n`, without leading zeros. -/
def decimal (n : Nat) : List Char := Nat.toDigits 10 n

/-- The decimal numeral of `n` with leading zeros up to `width` digits. -/
def decimalAtLeast (width n : Nat) : List Char :=
  if n < Nat.pow 10 width then fixed width n else decimal n

/-- The decimal numeral of an integer, with a sign when it is negative. -/
def signedDecimal (n : Int) : List Char :=
  if n < 0 then '-' :: decimal n.natAbs else decimal n.natAbs

/-- The lowest `width` hexadecimal digits of `n`, in lower case. -/
def fixedHex : (width n : Nat) → List Char
  | 0, _ => []
  | width + 1, n => fixedHex width (n / 16) ++ [Bytes.hexDigit (n % 16)]

/-- The text of a 32-bit code: `0x` and eight digits. -/
def code32 (n : UInt32) : String := "0x" ++ String.ofList (fixedHex 8 n.toNat)

/-- The text of a byte code: `0x` and two digits. -/
def code8 (n : UInt8) : String := "0x" ++ String.ofList (fixedHex 2 n.toNat)

/-! ## Columns -/

/-- The text followed by blanks up to `width` characters. -/
def padRight (width : Nat) (s : String) : String :=
  s ++ String.ofList (List.replicate (width - s.length) ' ')

/-- The text after blanks up to `width` characters. -/
def padLeft (width : Nat) (s : String) : String :=
  String.ofList (List.replicate (width - s.length) ' ') ++ s

end MetaRecord.Text

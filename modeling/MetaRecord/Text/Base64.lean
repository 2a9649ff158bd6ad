/-
# `MetaRecord.Text.Base64` — byte strings as printable text

The standard alphabet, six bits a character, padded with `=` to whole groups
of four characters.
-/
import MetaRecord.Bytes.Basic

namespace MetaRecord.Text.Base64

/-- The character for a value below sixty-four. -/
def symbol (n : Nat) : Char :=
  if n < 26 then Char.ofNat (65 + n)
  else if n < 52 then Char.ofNat (71 + n)
  else if n < 62 then Char.ofNat (n - 4)
  else if n = 62 then '+'
  else '/'

/-- Three bytes become four characters; one or two left over are filled up
with zero bits, and the characters that would hold only filling are `=`. -/
def encodeChars : Bytes → List Char
  | [] => []
  | [a] =>
    [symbol (a.toNat / 4), symbol (a.toNat % 4 * 16), '=', '=']
  | [a, b] =>
    [symbol (a.toNat / 4), symbol (a.toNat % 4 * 16 + b.toNat / 16),
      symbol (b.toNat % 16 * 4), '=']
  | a :: b :: c :: rest =>
    symbol (a.toNat / 4) :: symbol (a.toNat % 4 * 16 + b.toNat / 16) ::
      symbol (b.toNat % 16 * 4 + c.toNat / 64) :: symbol (c.toNat % 64) :: encodeChars rest

def encode (bytes : Bytes) : String := String.ofList (encodeChars bytes)

example : encode [] = "" ∧ encode [102] = "Zg==" ∧ encode [102, 111] = "Zm8="
    ∧ encode [102, 111, 111] = "Zm9v" ∧ encode [251, 255] = "+/8=" := by decide

end MetaRecord.Text.Base64

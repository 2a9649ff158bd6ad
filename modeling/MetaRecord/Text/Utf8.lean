/-
# `MetaRecord.Text.Utf8` — texts and the bytes that spell them

A text is stored as its UTF-8 bytes.  Strict decoding refuses anything else;
lenient decoding, which is for display, replaces what cannot be read.

Main statements: `ofUtf8?_utf8` and `ofUtf8?_eq_some_iff` (strict decoding is
the exact inverse of encoding), `ofUtf8Lossy_utf8` (a well-formed text is
displayed unchanged).
-/
import MetaRecord.Bytes.Basic

namespace MetaRecord.Text

/-! ## Strict -/

def utf8 (s : String) : Bytes := s.toByteArray.data.toList

/-- The text a byte string spells in UTF-8, if it does. -/
def ofUtf8? (bytes : Bytes) : Option String := String.fromUTF8? bytes.toByteArray

@[simp] theorem toByteArray_utf8 (s : String) : (utf8 s).toByteArray = s.toByteArray := by
  apply ByteArray.ext
  simp [utf8, List.data_toByteArray]

@[simp] theorem ofUtf8?_utf8 (s : String) : ofUtf8? (utf8 s) = some s := by
  simp only [ofUtf8?, String.fromUTF8?, toByteArray_utf8, s.isValidUTF8, dite_true]
  rfl

/-- Strict decoding accepts exactly what encoding produces. -/
theorem ofUtf8?_eq_some_iff {bytes : Bytes} {s : String} :
    ofUtf8? bytes = some s ↔ bytes = utf8 s := by
  constructor
  · intro h
    unfold ofUtf8? String.fromUTF8? at h
    split at h
    · rw [Option.some.injEq] at h
      subst h
      simp [utf8, String.fromUTF8, List.data_toByteArray]
    · exact absurd h (by simp)
  · rintro rfl
    exact ofUtf8?_utf8 s

theorem utf8_injective {s t : String} (h : utf8 s = utf8 t) : s = t := by
  have := congrArg ofUtf8? h
  simpa using this

/-! ## Lenient -/

/-- The sign shown for bytes that spell no character. -/
def replacement : Char := '\ufffd'

/-- Where a lenient reading stands: between characters, or inside one whose
bits so far are `value` and which wants `owed` more bytes, the next of them
from `low` to `high`. -/
inductive Progress where
  | between
  | inside (value owed : Nat) (low high : UInt8)

/-- How a byte opens a character, when none is open: the characters shown at
once, and where the reading stands after it.  The second byte's range keeps
out overlong forms, surrogates and numbers past the last character. -/
def Progress.begin (b : UInt8) : List Char × Progress :=
  let n := b.toNat
  if n < 0x80 then ([Char.ofNat n], .between)
  else if n < 0xc2 then ([replacement], .between)
  else if n < 0xe0 then ([], .inside (n - 0xc0) 1 0x80 0xbf)
  else if n = 0xe0 then ([], .inside 0 2 0xa0 0xbf)
  else if n = 0xed then ([], .inside 0x0d 2 0x80 0x9f)
  else if n < 0xf0 then ([], .inside (n - 0xe0) 2 0x80 0xbf)
  else if n = 0xf0 then ([], .inside 0 3 0x90 0xbf)
  else if n < 0xf4 then ([], .inside (n - 0xf0) 3 0x80 0xbf)
  else if n = 0xf4 then ([], .inside 4 3 0x80 0x8f)
  else ([replacement], .between)

/-- One byte of a lenient reading.  A byte that cannot continue the open
character closes it with one replacement sign and is then read afresh. -/
def Progress.step : Progress → UInt8 → List Char × Progress
  | .between, b => begin b
  | .inside value owed low high, b =>
    if low ≤ b ∧ b ≤ high then
      let value := value * 64 + b.toNat % 64
      if owed ≤ 1 then ([Char.ofNat value], .between)
      else ([], .inside value (owed - 1) 0x80 0xbf)
    else
      let (shown, next) := begin b
      (replacement :: shown, next)

/-- The characters a byte string is shown as, from a given point. -/
def lossyChars : Progress → Bytes → List Char
  | .between, [] => []
  | .inside .., [] => [replacement]
  | state, b :: rest =>
    let (shown, next) := state.step b
    shown ++ lossyChars next rest

/-- A byte string as text: itself where it is UTF-8, and one replacement sign
for each longest piece that starts a character and does not finish it, or for
each byte that starts none. -/
def ofUtf8Lossy (bytes : Bytes) : String :=
  (ofUtf8? bytes).getD (String.ofList (lossyChars .between bytes))

@[simp] theorem ofUtf8Lossy_utf8 (s : String) : ofUtf8Lossy (utf8 s) = s := by
  simp [ofUtf8Lossy]

end MetaRecord.Text

/-
# `MetaRecord.MessagePack.Lead` — what the first byte of a value announces

The first byte of a MessagePack value fixes the kind of value and how the rest
of it is delimited: by a count inside the byte itself, or by a number of
`width` bytes that follows.  `Lead.ofByte` reads that table once for the whole
library; readers, the skipper and the renderer only look at its answer.

Main statements: `ofByte_eq_unused_iff`, exactly one byte starts no value; and
`ofByte_positive` to `ofByte_str`, a count written into a first byte is read
back from it.
-/
import MetaRecord.Bytes.Basic

namespace MetaRecord.MessagePack

/-- What a first byte announces. -/
inductive Lead where
  /-- The integer `n` itself, from 0 to 127. -/
  | positive (n : Nat)
  /-- The integer `n - 256` itself, from -32 to -1. -/
  | negative (n : Nat)
  /-- A map of `n` pairs. -/
  | map (n : Nat)
  /-- An array of `n` elements. -/
  | array (n : Nat)
  /-- A text of `n` bytes. -/
  | str (n : Nat)
  | nil
  | bool (b : Bool)
  /-- A byte string whose length takes `width` bytes. -/
  | binSized (width : Nat)
  /-- A tagged byte string whose length takes `width` bytes. -/
  | extSized (width : Nat)
  /-- A tagged byte string of `n` bytes. -/
  | ext (n : Nat)
  /-- A floating-point number of `width` bytes. -/
  | float (width : Nat)
  /-- An unsigned integer of `width` bytes. -/
  | uint (width : Nat)
  /-- A signed integer of `width` bytes, in two's complement. -/
  | int (width : Nat)
  /-- A text whose length takes `width` bytes. -/
  | strSized (width : Nat)
  /-- An array whose count takes `width` bytes. -/
  | arraySized (width : Nat)
  /-- A map whose count takes `width` bytes. -/
  | mapSized (width : Nat)
  /-- No value starts with this byte. -/
  | unused
deriving DecidableEq, Repr

namespace Lead

/-- The announcements of the bytes from `0xc0` to `0xdf`. -/
def ofCode : Nat → Lead
  | 0xc0 => .nil
  | 0xc2 => .bool false
  | 0xc3 => .bool true
  | 0xc4 => .binSized 1
  | 0xc5 => .binSized 2
  | 0xc6 => .binSized 4
  | 0xc7 => .extSized 1
  | 0xc8 => .extSized 2
  | 0xc9 => .extSized 4
  | 0xca => .float 4
  | 0xcb => .float 8
  | 0xcc => .uint 1
  | 0xcd => .uint 2
  | 0xce => .uint 4
  | 0xcf => .uint 8
  | 0xd0 => .int 1
  | 0xd1 => .int 2
  | 0xd2 => .int 4
  | 0xd3 => .int 8
  | 0xd4 => .ext 1
  | 0xd5 => .ext 2
  | 0xd6 => .ext 4
  | 0xd7 => .ext 8
  | 0xd8 => .ext 16
  | 0xd9 => .strSized 1
  | 0xda => .strSized 2
  | 0xdb => .strSized 4
  | 0xdc => .arraySized 2
  | 0xdd => .arraySized 4
  | 0xde => .mapSized 2
  | 0xdf => .mapSized 4
  | _ => .unused

/-- What the first byte `b` announces. -/
def ofByte (b : UInt8) : Lead :=
  let n := b.toNat
  if n < 0x80 then .positive n
  else if n < 0x90 then .map (n - 0x80)
  else if n < 0xa0 then .array (n - 0x90)
  else if n < 0xc0 then .str (n - 0xa0)
  else if n < 0xe0 then ofCode n
  else .negative n

/-- No value starts with `0xc1`, and every other byte starts one. -/
theorem ofByte_eq_unused_iff (b : UInt8) : ofByte b = .unused ↔ b = 0xc1 := by
  have h : ∀ n : Fin 256, ofByte (UInt8.ofNat n) = .unused ↔ UInt8.ofNat n = 0xc1 := by
    decide +kernel
  simpa using h ⟨b.toNat, b.toNat_lt⟩

theorem ofByte_positive {n : Nat} (h : n < 0x80) : ofByte (UInt8.ofNat n) = .positive n := by
  have h' : ∀ n < 0x80, ofByte (UInt8.ofNat n) = .positive n := by decide +kernel
  exact h' n h

theorem ofByte_negative {n : Nat} (h : 0xe0 ≤ n) (h' : n < 0x100) :
    ofByte (UInt8.ofNat n) = .negative n := by
  have hall : ∀ n < 0x100, 0xe0 ≤ n → ofByte (UInt8.ofNat n) = .negative n := by
    decide +kernel
  exact hall n h' h

theorem ofByte_map {n : Nat} (h : n < 16) : ofByte (UInt8.ofNat (0x80 + n)) = .map n := by
  have h' : ∀ n < 16, ofByte (UInt8.ofNat (0x80 + n)) = .map n := by decide +kernel
  exact h' n h

theorem ofByte_array {n : Nat} (h : n < 16) : ofByte (UInt8.ofNat (0x90 + n)) = .array n := by
  have h' : ∀ n < 16, ofByte (UInt8.ofNat (0x90 + n)) = .array n := by decide +kernel
  exact h' n h

theorem ofByte_str {n : Nat} (h : n < 32) : ofByte (UInt8.ofNat (0xa0 + n)) = .str n := by
  have h' : ∀ n < 32, ofByte (UInt8.ofNat (0xa0 + n)) = .str n := by decide +kernel
  exact h' n h

end Lead

end MetaRecord.MessagePack

/-
# `MetaRecord.Bytes.Basic` — byte strings and the numbers written in them

Everything a record holds is a byte string, and every length or integer in
one is a fixed number of base-256 digits: most significant first inside
MessagePack values, least significant first in the record's own prefix.

Main statements: `toNatBE_ofNatBE` and `ofNatBE_toNatBE` say that digits and
numbers determine each other as long as the number fits the width.
-/
namespace MetaRecord

abbrev Bytes := List UInt8

namespace Bytes

/-! ## Most significant first -/

/-- The lowest `width` base-256 digits of `n`, most significant first. -/
def ofNatBE : (width n : Nat) → Bytes
  | 0, _ => []
  | width + 1, n => ofNatBE width (n / 256) ++ [UInt8.ofNat n]

/-- The number whose base-256 digits are `bytes`, most significant first. -/
def toNatBE (bytes : Bytes) : Nat :=
  bytes.foldl (fun n b => n * 256 + b.toNat) 0

@[simp] theorem length_ofNatBE (width n : Nat) :
    (ofNatBE width n).length = width := by
  induction width generalizing n with
  | zero => rfl
  | succ width ih => simp [ofNatBE, ih]

@[simp] theorem toNatBE_nil : toNatBE [] = 0 := rfl

theorem toNatBE_concat (bytes : Bytes) (b : UInt8) :
    toNatBE (bytes ++ [b]) = toNatBE bytes * 256 + b.toNat := by
  simp [toNatBE, List.foldl_append]

/-- A number that fits `width` digits is read back from them. -/
theorem toNatBE_ofNatBE (width n : Nat) (h : n < Nat.pow 256 width) :
    toNatBE (ofNatBE width n) = n := by
  induction width generalizing n with
  | zero => simp at h; simp [ofNatBE, h]
  | succ width ih =>
    have hq : n / 256 < Nat.pow 256 width := by
      have h : n < Nat.pow 256 width * 256 := h
      exact Nat.div_lt_of_lt_mul (by omega)
    rw [ofNatBE, toNatBE_concat, ih _ hq, UInt8.toNat_ofNat']
    omega

/-- The digits read are below the width's limit. -/
theorem toNatBE_lt (bytes : Bytes) : toNatBE bytes < Nat.pow 256 bytes.length := by
  suffices h : ∀ (bytes : Bytes) (n k : Nat), n < Nat.pow 256 k →
      bytes.foldl (fun n b => n * 256 + b.toNat) n < Nat.pow 256 (k + bytes.length) by
    simpa [toNatBE] using h bytes 0 0 (by decide)
  intro bytes
  induction bytes with
  | nil => intro n k h; simpa using h
  | cons b bytes ih =>
    intro n k h
    have hb : b.toNat < 256 := b.toNat_lt
    have hstep : n * 256 + b.toNat < Nat.pow 256 (k + 1) := by
      show _ < Nat.pow 256 k * 256
      omega
    have := ih _ _ hstep
    simp only [List.foldl_cons, List.length_cons]
    rwa [show k + (bytes.length + 1) = k + 1 + bytes.length by omega]

/-- Reading a byte string as a number and writing as many digits gives it back. -/
theorem ofNatBE_toNatBE (bytes : Bytes) : ofNatBE bytes.length (toNatBE bytes) = bytes := by
  suffices h : ∀ (width : Nat) (bytes : Bytes), bytes.length = width →
      ofNatBE width (toNatBE bytes) = bytes from h _ bytes rfl
  intro width
  induction width with
  | zero => intro bytes h; simp [List.length_eq_zero_iff.1 h, ofNatBE]
  | succ width ih =>
    intro bytes h
    have hne : bytes ≠ [] := by rintro rfl; simp at h
    have hsplit := List.dropLast_concat_getLast hne
    have hlen : bytes.dropLast.length = width := by simp [h]
    have hlast := (bytes.getLast hne).toNat_lt
    rw [← hsplit, toNatBE_concat, ofNatBE]
    rw [show (toNatBE bytes.dropLast * 256 + (bytes.getLast hne).toNat) / 256
      = toNatBE bytes.dropLast by omega, ih _ hlen]
    congr 2
    apply UInt8.toNat.inj
    rw [UInt8.toNat_ofNat']
    omega

/-! ## Least significant first -/

/-- Two digits of `n`, least significant first. -/
def ofUInt16LE (n : UInt16) : Bytes :=
  [UInt8.ofNat n.toNat, UInt8.ofNat (n.toNat / 256)]

/-- The number with the two digits `low` and `high`. -/
def toUInt16LE (low high : UInt8) : UInt16 :=
  UInt16.ofNat (low.toNat + 256 * high.toNat)

theorem toUInt16LE_ofUInt16LE (n : UInt16) :
    toUInt16LE (UInt8.ofNat n.toNat) (UInt8.ofNat (n.toNat / 256)) = n := by
  apply UInt16.toNat.inj
  have := n.toNat_lt
  simp only [toUInt16LE, UInt16.toNat_ofNat', UInt8.toNat_ofNat']
  omega

theorem ofUInt16LE_toUInt16LE (low high : UInt8) :
    ofUInt16LE (toUInt16LE low high) = [low, high] := by
  have hl := low.toNat_lt
  have hh := high.toNat_lt
  simp only [ofUInt16LE, toUInt16LE, UInt16.toNat_ofNat', List.cons.injEq, and_true]
  constructor <;> apply UInt8.toNat.inj <;> rw [UInt8.toNat_ofNat'] <;> omega

/-! ## Hexadecimal -/

/-- The digit for a value below sixteen, in lower case. -/
def hexDigit (n : Nat) : Char :=
  Char.ofNat (if n < 10 then 48 + n else 87 + n)

/-- Two digits per byte, in lower case. -/
def hexChars (bytes : Bytes) : List Char :=
  bytes.flatMap fun b => [hexDigit (b.toNat / 16), hexDigit (b.toNat % 16)]

def hex (bytes : Bytes) : String := String.ofList bytes.hexChars

end Bytes

/-! ## Byte strings of a fixed size -/

/-- A byte string of exactly `size` bytes. -/
structure FixedBytes (size : Nat) where
  /-- The bytes themselves. -/
  bytes : Bytes
  /-- There are as many as the type says. -/
  length_eq : bytes.length = size
deriving DecidableEq

namespace FixedBytes

/-- `size` zero bytes. -/
def zero (size : Nat) : FixedBytes size :=
  ⟨List.replicate size 0, List.length_replicate⟩

/-- The byte string as one of a fixed size, if it has that size. -/
def ofBytes? (size : Nat) (bytes : Bytes) : Option (FixedBytes size) :=
  if h : bytes.length = size then some ⟨bytes, h⟩ else none

instance {size : Nat} : Inhabited (FixedBytes size) := ⟨zero size⟩

@[ext] theorem ext {size : Nat} {a b : FixedBytes size} (h : a.bytes = b.bytes) : a = b := by
  cases a; cases b; simpa using h

@[simp] theorem ofBytes?_bytes {size : Nat} (a : FixedBytes size) :
    ofBytes? size a.bytes = some a := by
  simp [ofBytes?, a.length_eq]

theorem ofBytes?_eq_some_iff {size : Nat} {bytes : Bytes} {a : FixedBytes size} :
    ofBytes? size bytes = some a ↔ a.bytes = bytes := by
  unfold ofBytes?
  split
  · rw [Option.some.injEq]
    exact ⟨fun h => h ▸ rfl, fun h => by ext1; exact h.symm⟩
  · rename_i hne
    simp only [reduceCtorEq, false_iff]
    exact fun h => hne (h ▸ a.length_eq)

end FixedBytes

end MetaRecord

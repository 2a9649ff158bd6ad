/-
# `MetaRecord.MessagePack.Reader` — reading one value from the front

A `Read` takes a byte string and gives a value with the bytes that follow it,
or a cause of failure and no bytes at all: whoever called it still holds the
bytes from before, so an optional value can be tried and given up.

Multi-byte integers and lengths are written most significant first.

Main statements: `take_eq_ok_iff` and `byte_cons`, what the two primitive
reads do to the bytes; `integer` reads every integer encoding into one value,
and the typed integer reads only narrow its range.
-/
import MetaRecord.MessagePack.Error
import MetaRecord.MessagePack.Lead
import MetaRecord.Text.Utf8
import MetaRecord.Decimal.Binary64

namespace MetaRecord.MessagePack

open MetaRecord.Decimal (Binary64)

/-- A read from the front of a byte string. -/
abbrev Read (α : Type) := StateT Bytes (Except ReadError) α

namespace Read

/-! ## Primitive reads -/

/-- The next byte, left in place. -/
def peek (buf : Bytes) : Except ReadError UInt8 :=
  match buf with
  | [] => .error (.short 1 0)
  | b :: _ => .ok b

def byte : Read UInt8 := fun buf =>
  match buf with
  | [] => .error (.short 1 0)
  | b :: rest => .ok (b, rest)

def take (n : Nat) : Read Bytes := fun buf =>
  let front := buf.take n
  if front.length = n then .ok (front, buf.drop n)
  else .error (.short n front.length)

/-- The next byte, which stays next. -/
def upcoming : Read UInt8 := fun buf => return (← peek buf, buf)

/-- The values of `n` reads, one after another, after those already `done`,
which are kept latest first. -/
def times {α : Type} (r : Read α) : (n : Nat) → (done : List α) → Read (List α)
  | 0, done, buf => .ok (done.reverse, buf)
  | n + 1, done, buf =>
    match r buf with
    | .ok (a, rest) => times r n (a :: done) rest
    | .error e => .error e

/-- An unsigned integer of `width` bytes. -/
def number (width : Nat) : Read Nat := return (← take width).toNatBE

@[simp] theorem byte_cons (b : UInt8) (rest : Bytes) : byte (b :: rest) = .ok (b, rest) := rfl

@[simp] theorem byte_nil : byte [] = .error (.short 1 0) := rfl

theorem take_of_le {n : Nat} {buf : Bytes} (h : n ≤ buf.length) :
    take n buf = .ok (buf.take n, buf.drop n) := by
  simp [take, List.length_take, Nat.min_eq_left h]

theorem take_of_lt {n : Nat} {buf : Bytes} (h : buf.length < n) :
    take n buf = .error (.short n buf.length) := by
  have h₁ : buf.take n = buf := List.take_of_length_le (Nat.le_of_lt h)
  simp [take, h₁, Nat.ne_of_lt h]

theorem take_eq_ok_iff {n : Nat} {buf front rest : Bytes} :
    take n buf = .ok (front, rest) ↔ buf = front ++ rest ∧ front.length = n := by
  constructor
  · intro h
    rcases Nat.lt_or_ge buf.length n with hlt | hle
    · rw [take_of_lt hlt] at h; exact absurd h (by simp)
    · rw [take_of_le hle] at h
      obtain ⟨rfl, rfl⟩ := Prod.mk.inj (Except.ok.inj h)
      exact ⟨(List.take_append_drop n buf).symm, List.length_take_of_le hle⟩
  · rintro ⟨rfl, rfl⟩
    rw [take_of_le (by simp)]
    simp

@[simp] theorem take_append (front rest : Bytes) :
    take front.length (front ++ rest) = .ok (front, rest) :=
  take_eq_ok_iff.2 ⟨rfl, rfl⟩

/-! ## How reads compose -/

/-- A sequence of reads succeeds when each succeeds on what the one before it
left. -/
theorem bind_eq_ok_iff {α β : Type} {r : Read α} {f : α → Read β} {buf rest : Bytes} {b : β} :
    (r >>= f) buf = .ok (b, rest) ↔
      ∃ a mid, r buf = .ok (a, mid) ∧ f a mid = .ok (b, rest) := by
  change (r buf >>= fun p => f p.1 p.2) = .ok (b, rest) ↔ _
  cases r buf with
  | error e => simp [Bind.bind, Except.bind]
  | ok p =>
    constructor
    · exact fun h => ⟨p.1, p.2, rfl, h⟩
    · rintro ⟨a, mid, hp, h⟩
      obtain rfl := Except.ok.inj hp
      exact h

theorem pure_eq_ok_iff {α : Type} {a b : α} {buf rest : Bytes} :
    (pure a : Read α) buf = .ok (b, rest) ↔ a = b ∧ buf = rest := by
  change Except.ok (a, buf) = .ok (b, rest) ↔ _
  rw [Except.ok.injEq, Prod.mk.injEq]

theorem throw_ne_ok {α : Type} {e : ReadError} {buf rest : Bytes} {b : α} :
    (throw e : Read α) buf ≠ .ok (b, rest) := by
  change Except.error e ≠ .ok (b, rest)
  simp

theorem number_eq_ok_iff {width n : Nat} {buf rest : Bytes} :
    number width buf = .ok (n, rest) ↔
      ∃ digits : Bytes, buf = digits ++ rest ∧ digits.length = width ∧ digits.toNatBE = n := by
  simp only [number, bind_eq_ok_iff, take_eq_ok_iff, pure_eq_ok_iff]
  constructor
  · rintro ⟨digits, mid, ⟨hbuf, hlen⟩, rfl, rfl⟩
    exact ⟨digits, hbuf, hlen, rfl⟩
  · rintro ⟨digits, hbuf, hlen, rfl⟩
    exact ⟨digits, rest, ⟨hbuf, hlen⟩, rfl, rfl⟩

theorem byte_eq_ok_iff {buf rest : Bytes} {b : UInt8} :
    byte buf = .ok (b, rest) ↔ buf = b :: rest := by
  cases buf with
  | nil => simp
  | cons c buf => simp [Prod.ext_iff]

/-! ## Byte strings and texts -/

def bin : Read Bytes := do
  let b ← byte
  match Lead.ofByte b with
  | .binSized width => take (← number width)
  | _ => throw (.wrongKind .bin b)

/-- A byte string of exactly `size` bytes. -/
def fixedBin (size : Nat) : Read (FixedBytes size) := do
  let bytes ← bin
  match FixedBytes.ofBytes? size bytes with
  | some fixed => return fixed
  | none => throw (.wrongLength size bytes.length)

/-- The bytes of a text, whatever they are. -/
def strBytes : Read Bytes := do
  let b ← byte
  match Lead.ofByte b with
  | .str n => take n
  | .strSized width => take (← number width)
  | _ => throw (.wrongKind .str b)

def str : Read String := do
  match Text.ofUtf8? (← strBytes) with
  | some s => return s
  | none => throw .invalidText

/-- A map key, which may be written as a text or as a byte string. -/
def mapKey : Read Bytes := fun buf => do
  match Lead.ofByte (← peek buf) with
  | .binSized _ => bin buf
  | _ => strBytes buf

/-! ## Integers -/

/-- The value of `n` read as two's complement of `width` bytes. -/
def signed (width n : Nat) : Int :=
  if 2 * n < Nat.pow 256 width then n else (n : Int) - (Nat.pow 256 width : Nat)

/-- The integer that the first byte `b` announces; `kind` is what is reported
when it announces something else. -/
def integer (kind : Kind) (b : UInt8) : Read Int :=
  match Lead.ofByte b with
  | .positive n => return n
  | .negative n => return (n : Int) - 256
  | .uint width => return (← number width : Nat)
  | .int width => return signed width (← number width)
  | _ => throw (.wrongKind kind b)

/-- A non-negative integer of any width and either sign marker. -/
def uint : Read UInt64 := do
  let b ← byte
  match ← integer .uint b with
  | .ofNat n => return UInt64.ofNat n
  | .negSucc _ => throw (.outOfRange .unsigned64)

/-- An integer of any width and either sign marker that fits 64 signed bits. -/
def int : Read Int64 := do
  let b ← byte
  let v ← integer .int b
  if v < 0x8000000000000000 then return Int64.ofInt v else throw (.outOfRange .signed64)

/-- A non-negative integer below 2³². -/
def uint32 : Read UInt32 := do
  let v ← uint
  if v.toNat < 0x100000000 then return v.toUInt32 else throw (.outOfRange .unsigned32)

/-- A non-negative integer below 2⁸. -/
def uint8 : Read UInt8 := do
  let v ← uint
  if v.toNat < 0x100 then return v.toUInt8 else throw (.outOfRange .unsigned8)

/-- An optional 32-bit unsigned integer: nothing is consumed when the next
value is missing or is something else. -/
def uint32? (buf : Bytes) : Option UInt32 × Bytes :=
  match uint32 buf with
  | .ok (v, rest) => (some v, rest)
  | .error _ => (none, buf)

/-! ## Headers and scalars -/

/-- The number of elements of an array. -/
def arrayLength : Read UInt32 := do
  let b ← byte
  match Lead.ofByte b with
  | .array n => return UInt32.ofNat n
  | .arraySized width => return UInt32.ofNat (← number width)
  | _ => throw (.wrongKind .array b)

/-- The number of pairs of a map. -/
def mapLength : Read UInt32 := do
  let b ← byte
  match Lead.ofByte b with
  | .map n => return UInt32.ofNat n
  | .mapSized width => return UInt32.ofNat (← number width)
  | _ => throw (.wrongKind .map b)

def nil : Read Unit := do
  let b ← byte
  match Lead.ofByte b with
  | .nil => return ()
  | _ => throw (.wrongKind .nil b)

def bool : Read Bool := do
  let b ← byte
  match Lead.ofByte b with
  | .bool v => return v
  | _ => throw (.wrongKind .bool b)

/-- A floating-point number; single precision is widened. -/
def float : Read Binary64 := do
  let b ← byte
  match Lead.ofByte b with
  | .float 4 => return Binary64.ofBinary32 (UInt32.ofNat (← number 4))
  | .float width => return ⟨UInt64.ofNat (← number width)⟩
  | _ => throw (.wrongKind .float b)

/-- A byte string with an application's tag. -/
structure Extension where
  tag : Int8
  data : Bytes
deriving DecidableEq

/-- The tag and the `n` bytes of data after it. -/
def extensionBody (n : Nat) : Read Extension := do
  let tag ← byte
  return ⟨tag.toInt8, ← take n⟩

/-- A tagged byte string. -/
def extension : Read Extension := do
  let b ← byte
  match Lead.ofByte b with
  | .ext n => extensionBody n
  | .extSized width => extensionBody (← number width)
  | _ => throw (.wrongKind .ext b)

end Read

end MetaRecord.MessagePack

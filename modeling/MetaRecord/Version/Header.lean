/-
# `MetaRecord.Version.Header` — the header of one object version

Each retained version of an object has a compact header of exactly five
fields, so that versions can be listed, ordered and compared without decoding
their metadata: an identifier, a modification time in nanoseconds since 1970,
a content signature, a type and a set of flags.  More fields would be another
count, never a silent addition.
-/
import MetaRecord.DecodeError
import MetaRecord.Calendar.Instant
import MetaRecord.MessagePack.Reader
import MetaRecord.MessagePack.Writer

namespace MetaRecord.Version

open MessagePack (Read ReadError)

/-! ## Types and flags -/

/-- The kind of version that a header describes. -/
inductive Kind where
  | invalid | object | deleteMarker | legacy
deriving DecidableEq, Repr

namespace Kind

/-- The kind that a type byte stands for, if it is known. -/
def ofCode? : UInt8 → Option Kind
  | 0 => some invalid
  | 1 => some object
  | 2 => some deleteMarker
  | 3 => some legacy
  | _ => none

def code : Kind → UInt8
  | invalid => 0
  | object => 1
  | deleteMarker => 2
  | legacy => 3

def name : Kind → String
  | invalid => "invalid"
  | object => "object"
  | deleteMarker => "delete-marker"
  | legacy => "legacy"

@[simp] theorem ofCode?_code (k : Kind) : ofCode? k.code = some k := by
  cases k <;> rfl

end Kind

/-- The flags of a version, one bit each. -/
structure Flags where
  bits : UInt8
deriving DecidableEq, Repr

namespace Flags

/-- Every bit of `mask` is set. -/
def contains (f : Flags) (mask : UInt8) : Bool := f.bits &&& mask == mask

/-- The version only tracks the space of an object moved to another tier. -/
def isFree (f : Flags) : Bool := f.contains 1

/-- The object's data lie in a directory next to the record. -/
def usesDataDir (f : Flags) : Bool := f.contains 2

/-- The object's data lie in the record's inline store. -/
def hasInlineData (f : Flags) : Bool := f.contains 4

end Flags

/-! ## The header -/

abbrev Id := FixedBytes 16

/-- The header of one version. -/
structure Header where
  id : Id
  /-- Nanoseconds since 1 January 1970. -/
  modTime : Int64
  /-- A fingerprint of the content, for comparing copies. -/
  signature : FixedBytes 4
  /-- The type byte, known or not. -/
  type : UInt8
  flags : Flags
deriving DecidableEq

namespace Header

def arity : UInt32 := 5

def bytes (h : Header) : Bytes :=
  MessagePack.Write.arrayLength arity ++
    MessagePack.Write.bin h.id.bytes ++
    MessagePack.Write.int h.modTime ++
    MessagePack.Write.bin h.signature.bytes ++
    MessagePack.Write.uint h.type.toUInt64 ++
    MessagePack.Write.uint h.flags.bits.toUInt64

/-- A read that keeps what it consumed before it failed. -/
abbrev Scan (α : Type) := ExceptT DecodeError (StateM Bytes) α

/-- Read one field; a failure names it and leaves the field's bytes in place. -/
def field {α : Type} (name : HeaderField) (r : Read α) : Scan α := fun buf =>
  match r buf with
  | .ok (a, rest) => (.ok a, rest)
  | .error cause => (.error (.truncatedHeader name cause), buf)

/-- Read a header from the front, field by field. -/
def scan : Scan Header := do
  let count ← field .arity Read.arrayLength
  if count ≠ arity then throw (.arityMismatch arity count)
  let id ← field .versionId (Read.fixedBin 16)
  let modTime ← field .modTime Read.int
  let signature ← field .signature (Read.fixedBin 4)
  let type ← field .type Read.uint8
  let flags ← field .flags Read.uint8
  return { id, modTime, signature, type, flags := ⟨flags⟩ }

/-- Read a header from the front: the header or the cause of failure, and the
bytes left in either case. -/
def read (buf : Bytes) : Except DecodeError Header × Bytes := scan.run buf

/-- The header at the front of a byte string. -/
def decode (buf : Bytes) : Except DecodeError Header := (read buf).1

/-- The kind of version, if the type byte is known. -/
def kind? (h : Header) : Option Kind := Kind.ofCode? h.type

/-- The name of the kind of version. -/
def typeName (h : Header) : String := (h.kind?.map Kind.name).getD "unknown"

/-- The version without an identifier of its own. -/
def isNull (h : Header) : Bool := h.id = FixedBytes.zero 16

/-- The modification time as a point in time. -/
def instant (h : Header) : Calendar.Instant := .ofNanos h.modTime.toInt

def line (h : Header) : String :=
  Bytes.hex h.id.bytes ++ " " ++ h.instant.text ++ " " ++ h.typeName

/-! ## Newest first -/

/-- `a` stands before `b` in an index: it is newer, or equally old and its
identifier is greater.  Every copy of a record derives the same order. -/
def sortsBefore (a b : Header) : Prop :=
  b.modTime < a.modTime ∨ b.modTime = a.modTime ∧ b.id.bytes < a.id.bytes

instance (a b : Header) : Decidable (a.sortsBefore b) :=
  inferInstanceAs (Decidable (_ ∨ _ ∧ _))

end Header

end MetaRecord.Version

/-
# `MetaRecord.Record.Payload` — what follows the preamble

The minor version selects one of three layouts.  The oldest is one
self-describing value.  The others open with a blob — a single version's
metadata, or an index of versions — which an optional checksum and an inline
store follow.

The checksum is an integer and a store opens with its version byte, 0 or 1,
so both can begin with the same byte: what reads as an integer there is taken
for the checksum.
-/
import MetaRecord.Checksum.Status
import MetaRecord.Inline.Store
import MetaRecord.MessagePack.Skip
import MetaRecord.Version.Index

namespace MetaRecord.Record

open MessagePack (Read)

/-- The layout of a payload. -/
inductive Layout where
  | legacy
  | single
  | multi
deriving DecidableEq, Repr

/-- The layout that a minor version selects. -/
def Layout.ofMinor (minor : UInt16) : Except DecodeError Layout :=
  match minor with
  | 0 => .ok .legacy
  | 1 | 2 => .ok .single
  | 3 => .ok .multi
  | other => .error (.unsupportedMinor other)

/-- A decoded payload. -/
inductive Payload where
  | legacy (metadata : Bytes)
  | single (metadata : Bytes) (checksum : Option UInt32) (store : Inline.Store)
  /-- The index stands beside the blob it was decoded from. -/
  | multi (index : Version.Index) (blob : Bytes) (checksum : Option UInt32)
      (store : Inline.Store)
deriving DecidableEq

namespace Payload

def layout : Payload → Layout
  | legacy .. => .legacy
  | single .. => .single
  | multi .. => .multi

/-- The first minor version in which a checksum may follow the blob. -/
def checksumMinor : UInt16 := 2

/-- The parts of a payload that opens with a blob. -/
structure Parts where
  blob : Bytes
  checksum : Option UInt32
  /-- The bytes of the inline store. -/
  rest : Bytes
deriving DecidableEq

/-- Split a payload into its blob, its checksum if the minor version allows
one and it is there, and the bytes after them. -/
def split (payload : Bytes) (minor : UInt16) : Except DecodeError Parts := do
  let (blob, rest) ← (Read.bin payload).mapError .malformedMetadata
  if minor < checksumMinor then return ⟨blob, none, rest⟩
  let (checksum, rest) := Read.uint32? rest
  return ⟨blob, checksum, rest⟩

/-- Decode the layout that is one value; bytes after it are kept with it. -/
def decodeLegacy (payload : Bytes) : Except DecodeError Payload := do
  let _ ← (Read.skip payload).mapError .malformedMetadata
  return legacy payload

/-- Decode the layout with the metadata of one version. -/
def decodeSingle (payload : Bytes) (minor : UInt16) : Except DecodeError Payload := do
  let parts ← split payload minor
  let store ← Inline.Store.parse parts.rest
  return single parts.blob parts.checksum store

/-- Decode the layout with an index of versions.  The store is checked before
the index. -/
def decodeMulti (payload : Bytes) (minor : UInt16) : Except DecodeError Payload := do
  let parts ← split payload minor
  let store ← Inline.Store.parse parts.rest
  let index ← Version.Index.decode parts.blob
  return multi index parts.blob parts.checksum store

/-- Decode a payload of a known minor version. -/
def decode (payload : Bytes) (minor : UInt16) : Except DecodeError Payload := do
  match ← Layout.ofMinor minor with
  | .legacy => decodeLegacy payload
  | .single => decodeSingle payload minor
  | .multi => decodeMulti payload minor

end Payload

end MetaRecord.Record

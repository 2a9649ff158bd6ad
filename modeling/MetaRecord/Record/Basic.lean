/-
# `MetaRecord.Record.Basic` — metadata records

A record is its format version and the payload decoded by it.  A wrong
checksum does not keep a record from being decoded: it is a finding about the
record, which `Record.status` reports.
-/
import MetaRecord.Record.Payload
import MetaRecord.Record.Preamble

namespace MetaRecord

/-- A decoded metadata record. -/
structure Record where
  version : FormatVersion
  payload : Record.Payload
deriving DecidableEq

namespace Record

def decode (buf : Bytes) : Except DecodeError Record := do
  let opening ← Preamble.validate buf
  let payload ← Payload.decode opening.payload opening.version.minor
  return ⟨opening.version, payload⟩

/-- What comparing the stored checksum with the blob shows.  A legacy record
has no checksum. -/
def status (r : Record) : Checksum.Status :=
  match r.payload with
  | .legacy _ => .absent
  | .single metadata checksum _ => .check checksum metadata
  | .multi _ blob checksum _ => .check checksum blob

/-- The metadata of a record that holds one version. -/
def metadata? (r : Record) : Option Bytes :=
  match r.payload with
  | .legacy metadata | .single metadata .. => some metadata
  | .multi .. => none

/-- The index of a record that has one. -/
def index? (r : Record) : Option Version.Index :=
  match r.payload with
  | .multi index .. => some index
  | _ => none

/-- The inline store; a legacy record has none. -/
def store? (r : Record) : Option Inline.Store :=
  match r.payload with
  | .legacy _ => none
  | .single _ _ store | .multi _ _ _ store => some store

end Record

end MetaRecord

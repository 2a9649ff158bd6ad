/-
# `MetaRecord.DecodeError` — why a record could not be decoded

Each cause ends the decoding that met it.  The causes fall into two classes
that are repaired differently: a record may be *damaged*, and then it is
rebuilt from its peers, or it may be written by a *newer* revision of the
format, and then rebuilding it would lose data.
-/
import MetaRecord.MessagePack.Error

namespace MetaRecord

open MessagePack (ReadError)

/-- The fields of a version header, in stored order; the first stands for the
count that opens it. -/
inductive HeaderField where
  | arity | versionId | modTime | signature | type | flags
deriving DecidableEq, Repr

/-- The name of a header field in messages. -/
def HeaderField.name : HeaderField → String
  | .arity => "arity"
  | .versionId => "version_id"
  | .modTime => "mod_time"
  | .signature => "signature"
  | .type => "type"
  | .flags => "flags"

/-- Why a record, or a part of one, could not be decoded. -/
inductive DecodeError where
  /-- The record ends before its payload starts. -/
  | tooShort (size : Nat)
  /-- The record does not open with the magic bytes. -/
  | badMagic (found : FixedBytes 4)
  /-- The major version is above the highest one known. -/
  | unsupportedMajor (major highest : UInt16)
  /-- The minor version selects no known layout. -/
  | unsupportedMinor (minor : UInt16)
  | malformedMetadata (cause : ReadError)
  | malformedIndex (cause : ReadError)
  /-- The index's headers follow a newer revision. -/
  | unknownHeaderRevision (found highest : UInt64)
  /-- The index's metadata follow a newer revision. -/
  | unknownMetadataRevision (found highest : UInt64)
  | negativeVersionCount (count : Int64)
  /-- A version header has another number of fields. -/
  | arityMismatch (expected found : UInt32)
  /-- A version header fails at one of its fields. -/
  | truncatedHeader (field : HeaderField) (cause : ReadError)
  | malformedInline (cause : ReadError)
  /-- The inline entry at position `index` has no key. -/
  | emptyInlineKey (index : Nat)
  /-- The inline store follows a newer version. -/
  | unknownInlineVersion (found : UInt8)
deriving DecidableEq

namespace DecodeError

/-- The record was written by a newer revision of the format, not damaged. -/
def isUnsupported : DecodeError → Bool
  | unsupportedMajor .. | unsupportedMinor _ | unknownHeaderRevision ..
  | unknownMetadataRevision .. | unknownInlineVersion _ => true
  | _ => false

/-- Bytes as a bracketed list of hexadecimal codes. -/
def byteList (bytes : Bytes) : String :=
  "[" ++ ", ".intercalate (bytes.map fun b => Bytes.hex [b]) ++ "]"

def message : DecodeError → String
  | tooShort size => s!"record too short: {size} bytes, header needs more than 8"
  | badMagic found => "bad magic " ++ byteList found.bytes
  | unsupportedMajor major highest =>
    s!"unsupported major version {major} (highest known {highest})"
  | unsupportedMinor minor => s!"unsupported minor version {minor}"
  | malformedMetadata cause => "malformed metadata: " ++ cause.message
  | malformedIndex cause => "malformed version index: " ++ cause.message
  | unknownHeaderRevision found highest =>
    s!"unknown version header version {found} (highest known {highest})"
  | unknownMetadataRevision found highest =>
    s!"unknown version metadata version {found} (highest known {highest})"
  | negativeVersionCount count =>
    "negative version count " ++ String.ofList (Text.signedDecimal count.toInt)
  | arityMismatch expected found =>
    s!"version header has {found} fields, expected {expected}"
  | truncatedHeader field cause =>
    "version header truncated at " ++ field.name ++ ": " ++ cause.message
  | malformedInline cause => "malformed inline data: " ++ cause.message
  | emptyInlineKey index => s!"inline data entry {index} has an empty key"
  | unknownInlineVersion found => s!"unknown inline data version {found}"

end DecodeError

end MetaRecord

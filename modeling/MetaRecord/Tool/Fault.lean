/-
# `MetaRecord.Tool.Fault` — why the tool could not do its work

Every command ends in its result or in one fault.  A fault has its wording, a
process exit code, and says whether the record at hand should be repaired from
its peers: a record in a newer format is not damaged.
-/
import MetaRecord.DecodeError
import MetaRecord.Files.Error
import MetaRecord.Text.Quoted

namespace MetaRecord.Tool

open Files (IoError)

/-- Why the tool could not do its work. -/
inductive Fault where
  | diskIo (cause : IoError)
  /-- The record file has `size` bytes, more than the `limit`. -/
  | recordTooLarge (size limit : Nat)
  | corrupt (detail : String)
  | unsupported (detail : String)
  /-- The stored checksum is `expected`, the blob's is `actual`. -/
  | checksumMismatch (expected actual : UInt32)
  | encoding (detail : String)
  /-- An export would replace the file `target`. -/
  | exportExists (target : String)
  /-- An export ended after the files `written` were in place. -/
  | exportIncomplete (written : List String) (cause : IoError)
  | invalidArgument (detail : String)
  | configuration (detail : String)
deriving DecidableEq, Repr

namespace Fault

/-- The fault of a record that could not be decoded. -/
def ofDecodeError (e : DecodeError) : Fault :=
  if e.isUnsupported then .unsupported e.message else .corrupt e.message

/-- The record should be repaired from its peers. -/
def isCorruption : Fault → Bool
  | corrupt _ | checksumMismatch .. => true
  | _ => false

/-- The exit code of a process that ends with the fault. -/
def exitCode : Fault → UInt8
  | corrupt _ | checksumMismatch .. => 2
  | unsupported _ => 3
  | invalidArgument _ | configuration _ => 64
  | _ => 1

def message : Fault → String
  | diskIo cause => "disk I/O error: " ++ cause.message
  | recordTooLarge size limit =>
    s!"metadata record too large: {size} bytes (limit {limit})"
  | corrupt detail => "corrupt metadata record: " ++ detail
  | unsupported detail => "unsupported metadata format: " ++ detail
  | checksumMismatch expected actual =>
    "checksum mismatch: expected " ++ Text.code32 expected ++ ", got " ++ Text.code32 actual
  | encoding detail => "encoding error: " ++ detail
  | exportExists target => "export target already exists: " ++ target
  | exportIncomplete written cause =>
    "export stopped after writing " ++ Text.Quoted.encodeList written ++ ": " ++ cause.message
  | invalidArgument detail => "invalid argument: " ++ detail
  | configuration detail => "configuration error: " ++ detail

/-- The cause underneath, which a report on the command line repeats. -/
def cause? : Fault → Option IoError
  | diskIo cause => some cause
  | exportIncomplete _ cause => some cause
  | _ => none

end Fault

end MetaRecord.Tool

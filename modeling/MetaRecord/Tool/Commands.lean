/-
# `MetaRecord.Tool.Commands` — what the tool does with one record file

Each command reads one file, decodes it and gives the text to print or a
fault.  The text is only there once everything has succeeded, so a failing
command prints nothing.
-/
import MetaRecord.Document.Record
import MetaRecord.Files.System
import MetaRecord.Tool.Fault

namespace MetaRecord.Tool

open Files (IoError Path System)

/-- How the commands read and print. -/
structure Settings where
  /-- One compact document a line, instead of an indented one. -/
  ndjson : Bool
  /-- List the inline store in documents. -/
  includeInline : Bool
  /-- The largest file read, in bytes. -/
  maxRecordSize : Nat
deriving DecidableEq, Repr

variable {m : Type → Type} [Monad m]

/-- A file operation as part of a command. -/
def diskIo {α : Type} (op : m (Except IoError α)) : ExceptT Fault m α := do
  match ← op with
  | .ok a => return a
  | .error cause => throw (.diskIo cause)

/-- The result of decoding as part of a command. -/
def decoded {α : Type} : Except DecodeError α → ExceptT Fault m α
  | .ok a => return a
  | .error e => throw (.ofDecodeError e)

/-- The contents of a file of at most `limit` bytes. -/
def readRecord (fs : System m) (file : Path) (limit : Nat) : ExceptT Fault m Bytes := do
  let size ← diskIo (fs.size file)
  if limit < size then throw (.recordTooLarge size limit)
  diskIo (fs.read file)

def loadRecord (fs : System m) (file : Path) (limit : Nat) : ExceptT Fault m Record := do
  decoded (Record.decode (← readRecord fs file limit))

/-! ## Documents -/

/-- The text of a record's document, with its file named in it. -/
def documentText (settings : Settings) (file : Path) (document : Json) : String :=
  let named := document.setMember "File" (.str file.text)
  (if settings.ndjson then named.compact else named.pretty) ++ "\n"

/-- The document of the record in a file. -/
def inspect (fs : System m) (settings : Settings) (file : Path) : ExceptT Fault m String := do
  let record ← loadRecord fs file settings.maxRecordSize
  let document ← decoded (Document.record record settings.includeInline)
  return documentText settings file document

/-! ## Listings -/

def listingLine (position id time type flags : String) : String :=
  Text.padRight 4 position ++ " " ++ Text.padRight 32 id ++ " " ++ Text.padRight 30 time ++ " " ++
    Text.padRight 13 type ++ " " ++ Text.padLeft 5 flags ++ "\n"

/-- The line of the version at a position. -/
def versionLine (position : Nat) (h : Version.Header) : String :=
  listingLine (toString position) (Bytes.hex h.id.bytes) h.instant.text h.typeName
    (toString h.flags.bits.toNat)

/-- The width of the rule under the head of a listing. -/
def ruleWidth : Nat := 88

def listing (record : Record) : String :=
  match record.index? with
  | none => "No version index (format " ++ record.version.text ++ ")\n"
  | some index =>
    listingLine "IDX" "VERSION ID" "MOD TIME" "TYPE" "FLAGS" ++
      String.ofList (List.replicate ruleWidth '-') ++ "\n" ++
      String.join (index.entries.zipIdx.map fun (e, position) => versionLine position e.header)

/-- The listing of the versions of the record in a file. -/
def versions (fs : System m) (settings : Settings) (file : Path) : ExceptT Fault m String := do
  return listing (← loadRecord fs file settings.maxRecordSize)

/-! ## Verification -/

/-- The standing of the checksum of the record in a file; a mismatch is a
fault. -/
def verify (fs : System m) (settings : Settings) (file : Path) :
    ExceptT Fault m Checksum.Status := do
  match (← loadRecord fs file settings.maxRecordSize).status with
  | .mismatch stored computed => throw (.checksumMismatch stored computed)
  | status => return status

end MetaRecord.Tool

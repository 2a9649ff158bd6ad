/-
# `MetaRecord.Tool.Config` — the configuration file

A configuration is a TOML table of four sections.  Every section and every
setting may be left out, and what the tool does not know is ignored; a setting
of the wrong kind makes the whole file unusable.
-/
import MetaRecord.Files.System
import MetaRecord.Toml.Document
import MetaRecord.Tool.Commands

namespace MetaRecord.Tool

open Files (IoError Path System)
open Toml (Members Value)

/-- A configuration, first of all the one that no file changes. -/
structure Config where
  /-- Print one compact document a line. -/
  ndjson : Bool := false
  /-- List the inline store in documents. -/
  includeInline : Bool := true
  /-- The directory that exports go to. -/
  exportDir : Path := ⟨"./inline-export"⟩
  /-- Exports replace files that are there already. -/
  overwrite : Bool := false
  /-- The largest record file read, in bytes. -/
  maxRecordSize : Nat := 16777216
  /-- How much the tool logs. -/
  logLevel : String := "warn"
deriving DecidableEq, Repr

namespace Config

/-- A configuration that does what one without a file does.  Its directory may
be spelled otherwise. -/
def isDefault (c : Config) : Bool :=
  let usual : Config := {}
  c.exportDir.components = usual.exportDir.components &&
    { c with exportDir := usual.exportDir } = usual

/-! ## Settings -/

/-- The settings in a section.  A moment has none that the tool knows. -/
def sectionNamed (name : String) (top : Members) : Option Members :=
  match top.find? name with
  | none | some .moment => some []
  | some (.table _ settings) => some settings
  | some _ => none

/-- A setting of a section: its usual value where it is left out. -/
def setting {α : Type} (read : Value → Option α) (name : String) (usual : α)
    (settings : Members) : Option α :=
  match settings.find? name with
  | none => some usual
  | some value => read value

def switch : Value → Option Bool
  | .boolean b => some b
  | _ => none

/-- A number of bytes. -/
def size : Value → Option Nat
  | .integer (.ofNat n) => some n
  | _ => none

def text : Value → Option String
  | .text s => some s
  | _ => none

def path : Value → Option Path
  | .text s => some ⟨s⟩
  | _ => none

def ofMembers? (top : Members) : Option Config := do
  let usual : Config := {}
  let output ← sectionNamed "output" top
  let exporting ← sectionNamed "export" top
  let limits ← sectionNamed "limits" top
  let logging ← sectionNamed "logging" top
  return {
    ndjson := ← setting switch "ndjson" usual.ndjson output
    includeInline := ← setting switch "include_inline" usual.includeInline output
    exportDir := ← setting path "dir" usual.exportDir exporting
    overwrite := ← setting switch "overwrite" usual.overwrite exporting
    maxRecordSize := ← setting size "max_record_size" usual.maxRecordSize limits
    logLevel := ← setting text "level" usual.logLevel logging }

/-! ## Files -/

/-- What a text that is no configuration is reported as. -/
def syntaxReport : String := "TOML parse error"

def parse (text : String) : Except Fault Config :=
  match Toml.parse? text >>= ofMembers? with
  | some config => .ok config
  | none => .error (.configuration syntaxReport)

/-- The configuration in a file; without the file, the usual one. -/
def load {m : Type → Type} [Monad m] (fs : System m) (file : Path) : ExceptT Fault m Config := do
  if !(← fs.present file) then return {}
  let contents ← diskIo (fs.read file)
  let some text := Text.ofUtf8? contents | throw (.diskIo .notText)
  match parse text with
  | .ok config => return config
  | .error fault => throw (.configuration (file.text ++ ": " ++ fault.message))

end Config

end MetaRecord.Tool

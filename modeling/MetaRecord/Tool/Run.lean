/-
# `MetaRecord.Tool.Run` — running the tool

A run prints to two streams and ends with an exit code.  A command over
several files goes on after a file that fails; what it prints is what it would
print for each file alone, and its exit code is the largest of theirs.
-/
import MetaRecord.Tool.CommandLine
import MetaRecord.Tool.Config
import MetaRecord.Tool.Export

namespace MetaRecord.Tool

open Files (Path System)

/-! ## Reports -/

/-- What a process leaves behind besides files. -/
structure Report where
  status : UInt8
  out : String
  err : String
deriving DecidableEq, Repr

namespace Report

def empty : Report := ⟨0, "", ""⟩

/-- The report of doing one thing and then another. -/
def append (a b : Report) : Report := ⟨max a.status b.status, a.out ++ b.out, a.err ++ b.err⟩

instance : Append Report := ⟨append⟩

/-- The report of what was printed without a fault. -/
def ofText (text : String) : Report := ⟨0, text, ""⟩

/-- The line about a fault with a file, which repeats the cause underneath. -/
def faultLine (file : Path) (fault : Fault) : String :=
  let cause := match fault.cause? with
    | some cause => ": " ++ cause.message
    | none => ""
  file.text ++ ": " ++ fault.message ++ cause ++ "\n"

/-- The report of what a command did with a file. -/
def ofOutcome (file : Path) : Except Fault String → Report
  | .ok text => ofText text
  | .error fault => ⟨fault.exitCode, "", faultLine file fault⟩

end Report

/-! ## Commands -/

variable {m : Type → Type} [Monad m]

def onFile (act : Path → ExceptT Fault m String) (file : Path) : m Report := do
  return Report.ofOutcome file (← act file)

/-- A command on files, one after another, after those already reported. -/
def onFiles (act : Path → ExceptT Fault m String) (before : Report) : List Path → m Report
  | [] => return before
  | file :: rest => do onFiles act (before ++ (← onFile act file)) rest

/-- The line about a file whose checksum is in order. -/
def verifiedLine (file : Path) (status : Checksum.Status) : String :=
  match status with
  | .absent => file.text ++ ": ok (no checksum)\n"
  | _ => file.text ++ ": ok\n"

def verifyAction (fs : System m) (settings : Settings) (file : Path) : ExceptT Fault m String := do
  return verifiedLine file (← verify fs settings file)

/-- The command that exports the inline values of a file. -/
def exportAction (fs : System m) (dir : Path) (overwrite : Bool) (limit : Nat) (file : Path) :
    ExceptT Fault m String := do
  let written ← exportInline fs file dir overwrite limit
  return String.join (written.map fun path => path.text ++ "\n")

/-- A command under a configuration.  What the command line says goes before
what the configuration says. -/
def runCommand (fs : System m) (config : Config) (maxRecordSize : Option Nat)
    (command : Command) : m Report :=
  let settings : Settings :=
    ⟨config.ndjson, config.includeInline, maxRecordSize.getD config.maxRecordSize⟩
  match command with
  | .inspect files ndjson noData =>
    let settings : Settings :=
      { settings with
        ndjson := settings.ndjson || ndjson
        includeInline := settings.includeInline && !noData }
    onFiles (inspect fs settings) .empty files
  | .versions file => onFile (versions fs settings) file
  | .extract file out overwrite =>
    let dir := out.getD config.exportDir
    onFile (exportAction fs dir (overwrite || config.overwrite) settings.maxRecordSize) file
  | .verify files => onFiles (verifyAction fs settings) .empty files

/-! ## Whole runs -/

def toolVersion : String := "xlmeta 0.1.0\n"

/-- The report of arguments that make no sense. -/
def usageReport : Report :=
  ⟨2, "", "usage: xlmeta [OPTIONS] <inspect|versions|export|verify> [ARGUMENTS]\n"⟩

/-- A command under the configuration in its file.  A file that cannot be used
is reported by its fault alone. -/
def runInvocation (fs : System m) (i : Invocation) : m Report := do
  match ← Config.load fs i.config with
  | .ok config => runCommand fs config i.maxRecordSize i.command
  | .error fault => return ⟨fault.exitCode, "", fault.message ++ "\n"⟩

/-- The tool, run with arguments; `environment` is the configuration file that
the environment names. -/
def run (fs : System m) (environment : Option String) (arguments : List String) : m Report :=
  match Request.ofArguments environment arguments with
  | none => return usageReport
  | some .version => return .ofText toolVersion
  | some (.run invocation) => runInvocation fs invocation

end MetaRecord.Tool

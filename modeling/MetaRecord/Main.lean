/-
# `MetaRecord.Main` — the tool as a program

The only module that touches the outside world: it gives the tool the real
files, prints the report and ends with its exit code.
-/
import MetaRecord.Tool.Run

namespace MetaRecord

open Files (IoError Path System)

/-- The number of a failure in the operating system.  Some operations report
it negated. -/
def failureNumber (code : UInt32) : Nat :=
  if code.toNat < 0x80000000 then code.toNat else 0x100000000 - code.toNat

/-- The cause of a failure, by its number in the operating system. -/
def ioError (e : IO.Error) : IoError :=
  match e with
  | .noFileOrDirectory .. => .notFound
  | .alreadyExists _ code _ | .inappropriateType _ code _ | .invalidArgument _ code _ =>
    match failureNumber code with
    | 17 => .alreadyExists
    | 20 => .notADirectory
    | 21 => .isADirectory
    | 36 => .nameTooLong
    | _ => .other (toString e)
  | _ => .other (toString e)

/-- An operation whose failure is a result. -/
def tried {α : Type} (op : IO α) : IO (Except IoError α) := do
  match ← op.toBaseIO with
  | .ok a => return .ok a
  | .error e => return .error (ioError e)

/-- What the operating system tells about what stands at a path.  Nothing is
opened for it. -/
def metadata (p : Path) : IO IO.FS.Metadata := (System.mkFilePath [p.text]).metadata

/-- The real files. -/
def realFiles : System IO where
  size p := tried do return (← metadata p).byteSize.toNat
  read p := tried do return (← IO.FS.readBinFile p.text).data.toList
  present p := return (← tried (metadata p)).isOk
  isDirectory p := do
    match ← tried (metadata p) with
    | .ok found => return found.type == .dir
    | .error _ => return false
  createDir p := tried (IO.FS.createDir p.text)
  write p contents := tried (IO.FS.writeBinFile p.text contents.toByteArray)
  rename source target := tried (IO.FS.rename source.text target.text)
  remove p := tried (IO.FS.removeFile p.text)

end MetaRecord

open MetaRecord in
def main (arguments : List String) : IO UInt32 := do
  let report ← Tool.run realFiles (← IO.getEnv "XLMETA_CONFIG") arguments
  IO.print report.out
  IO.eprint report.err
  return report.status.toUInt32

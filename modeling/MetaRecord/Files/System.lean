/-
# `MetaRecord.Files.System` — the file operations that the tool uses

The tool is written over these operations and nothing else, in any monad that
has them.  An operation succeeds or gives its cause of failure.  A directory
together with those above it takes several steps, and those before a failure
stay done.
-/
import MetaRecord.Bytes.Basic
import MetaRecord.Files.Error
import MetaRecord.Files.Path

namespace MetaRecord.Files

/-- The file operations, in a monad. -/
structure System (m : Type → Type) where
  /-- The size in bytes of what stands at a path. -/
  size : Path → m (Except IoError Nat)
  /-- The contents of a file. -/
  read : Path → m (Except IoError Bytes)
  /-- Something stands at a path. -/
  present : Path → m Bool
  /-- A directory stands at a path. -/
  isDirectory : Path → m Bool
  /-- Create a directory in one that exists. -/
  createDir : Path → m (Except IoError Unit)
  /-- Create a file with the given contents, or replace its contents. -/
  write : Path → Bytes → m (Except IoError Unit)
  /-- Move a file onto a path, in place of a file there. -/
  rename : (source target : Path) → m (Except IoError Unit)
  /-- Remove a file. -/
  remove : Path → m (Except IoError Unit)

namespace System

variable {m : Type → Type} [Monad m]

/-- Create a directory, if it does not exist already. -/
def ensureDir (fs : System m) (p : Path) : m (Except IoError Unit) := do
  match ← fs.createDir p with
  | .error .alreadyExists =>
    return if ← fs.isDirectory p then .ok () else .error .alreadyExists
  | outcome => return outcome

/-- Create the directory at a path of `n` names.  Where the way to it is
missing, the one above it is created first and then it is tried again.  The
empty path asks for nothing. -/
def ensureDirs (fs : System m) : Nat → Path → m (Except IoError Unit)
  | 0, p => if p.text = "" then return .ok () else fs.ensureDir p
  | n + 1, p => do
    match ← fs.ensureDir p with
    | .error .notFound =>
      match ← fs.ensureDirs n p.parent with
      | .ok () => fs.ensureDir p
      | failed => return failed
    | outcome => return outcome

/-- Create a directory and those above it, where they are missing. -/
def createDirs (fs : System m) (p : Path) : m (Except IoError Unit) :=
  fs.ensureDirs p.names.length p

end System

end MetaRecord.Files

/-
# `MetaRecord.Files.Error` — why a file operation failed

The causes are the ones the tool's operations can meet, with the wording and
the number that the operating system gives them.
-/
namespace MetaRecord.Files

/-- Why a file operation failed. -/
inductive IoError where
  | notFound
  | alreadyExists
  /-- The path goes through something that is no directory. -/
  | notADirectory
  /-- A directory stands where a file belongs. -/
  | isADirectory
  /-- A name in the path is longer than names may be. -/
  | nameTooLong
  /-- The path has a zero byte in it. -/
  | zeroInPath
  | notText
  /-- Any other cause, by its wording. -/
  | other (text : String)
deriving DecidableEq, Repr

def IoError.message : IoError → String
  | .notFound => "No such file or directory (os error 2)"
  | .alreadyExists => "File exists (os error 17)"
  | .notADirectory => "Not a directory (os error 20)"
  | .isADirectory => "Is a directory (os error 21)"
  | .nameTooLong => "File name too long (os error 36)"
  | .zeroInPath => "file name contained an unexpected NUL byte"
  | .notText => "stream did not contain valid UTF-8"
  | .other text => text

end MetaRecord.Files

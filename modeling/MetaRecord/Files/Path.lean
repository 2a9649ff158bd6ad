/-
# `MetaRecord.Files.Path` — paths as they are given

A path is the text it was given as, and is shown as that text.  Its meaning is
the sequence of names between its slashes; empty names and single dots stay
where they are, except that a dot in front keeps a relative path apart from
the same path without it when two paths are compared.
-/
namespace MetaRecord.Files

/-- A path, as its text. -/
structure Path where
  text : String
deriving DecidableEq, Repr

namespace Path

/-- The pieces of a text between slashes; there is always one more than there
are slashes. -/
def splitSlashes : List Char → List (List Char)
  | [] => [[]]
  | c :: rest =>
    match splitSlashes rest with
    | [] => [[c]]
    | piece :: pieces => if c = '/' then [] :: piece :: pieces else (c :: piece) :: pieces

/-- The pieces of a path between slashes. -/
def pieces (p : Path) : List String := (splitSlashes p.text.toList).map String.ofList

def isAbsolute (p : Path) : Bool := p.text.toList.head? = some '/'

/-- A piece between slashes that stays where it is. -/
def isIdle (piece : String) : Bool := piece = "" || piece = "."

/-- The names that the path goes through; two dots go back. -/
def names (p : Path) : List String := p.pieces.filter fun piece => !isIdle piece

/-- The path is written so that only a directory can stand there. -/
def wantsDirectory (p : Path) : Bool :=
  match p.pieces.getLast? with
  | some last => last = "" || last = "." || last = ".."
  | none => false

/-- The last thing in the path, slashes aside, is a single dot. -/
def endsInDot (p : Path) : Bool := (p.pieces.filter (· ≠ "")).getLast? = some "."

/-- What stands before the names: the slash of the root, a dot, or nothing. -/
def lead (p : Path) : String :=
  if p.isAbsolute then "/" else if p.pieces.head? = some "." then "." else ""

/-- What two paths are compared by: the root or a dot in front, and the names. -/
def components (p : Path) : List String :=
  if p.lead = "" then p.names else p.lead :: p.names

/-- The pieces after what stands before the names. -/
def body (p : Path) : List String := if p.lead = "" then p.pieces else p.pieces.tail

/-- The path of pieces after what stands before them. -/
def ofPieces (lead : String) (pieces : List String) : Path :=
  if lead = "." then ⟨"/".intercalate (lead :: pieces)⟩ else ⟨lead ++ "/".intercalate pieces⟩

/-- The path without its last name, and without the slashes and dots around
that name.  A path without names loses all but its start. -/
def parent (p : Path) : Path :=
  let before := (p.body.reverse.dropWhile isIdle).tail
  ofPieces p.lead (before.dropWhile isIdle).reverse

/-- The path of `name` in the directory `dir`.  No directory at all leaves the
name alone, and a slash at the end is not doubled. -/
def join (dir : Path) (name : String) : Path :=
  match dir.text.toList.getLast? with
  | none => ⟨name⟩
  | some '/' => ⟨dir.text ++ name⟩
  | some _ => ⟨dir.text ++ "/" ++ name⟩

/-- The path with its last name replaced. -/
def withName (p : Path) (name : String) : Path := p.parent.join name

end Path

end MetaRecord.Files

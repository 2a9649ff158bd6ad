/-
# `MetaRecord.Files.Disk` — files and directories as a value

A disk maps locations to files and directories.  A location is the list of
names from the working directory down; locations under the root of the whole
system start with a slash, which no name is.  Both starting points are
directories that are always there.

The operations resolve a path name by name: every name but the last has to be
a directory that exists.
-/
import MetaRecord.Files.System
import MetaRecord.Text.Utf8

namespace MetaRecord.Files

/-- The names from a starting point down to a place. -/
abbrev Location := List String

/-- What stands at a place. -/
inductive Node where
  | file (contents : Bytes)
  | directory
deriving DecidableEq

/-- Files and directories, each place at most once. -/
structure Disk where
  nodes : List (Location × Node)
deriving DecidableEq

namespace Disk

def empty : Disk := ⟨[]⟩

def root : Location := ["/"]

/-- What stands at a place, if anything does. -/
def lookup (d : Disk) (place : Location) : Option Node :=
  if place = [] ∨ place = root then some .directory
  else (d.nodes.find? fun n => n.1 = place).map (·.2)

/-- The disk with nothing at a place. -/
def erase (d : Disk) (place : Location) : Disk :=
  ⟨d.nodes.filter fun n => n.1 ≠ place⟩

/-- The disk with `node` at a place. -/
def set (d : Disk) (place : Location) (node : Node) : Disk :=
  ⟨(place, node) :: (d.erase place).nodes⟩

/-! ## Resolving paths -/

/-- The most bytes that a name may have. -/
def longestName : Nat := 255

/-- The most bytes that a path may have. -/
def longestPath : Nat := 4095

/-- The size that a directory reports. -/
def directorySize : Nat := 4096

def start (p : Path) : Location := if p.isAbsolute then root else []

/-- The place that `name` leads to from `place`. -/
def step (place : Location) (name : String) : Except IoError Location :=
  if name = ".." then
    .ok (if place = root then root else place.dropLast)
  else if longestName < (Text.utf8 name).length then .error .nameTooLong
  else .ok (place ++ [name])

/-- The same, from a place that has to be an existing directory. -/
def enter (d : Disk) (place : Location) (name : String) : Except IoError Location :=
  match d.lookup place with
  | none => .error .notFound
  | some (.file _) => .error .notADirectory
  | some .directory => step place name

/-- The path can be followed at all. -/
def followable (p : Path) : Except IoError Unit :=
  if '\x00' ∈ p.text.toList then .error .zeroInPath
  else if p.text = "" then .error .notFound
  else if longestPath < (Text.utf8 p.text).length then .error .nameTooLong
  else .ok ()

/-- The place that a path leads to, whether anything stands there or not. -/
def resolve (d : Disk) (p : Path) : Except IoError Location := do
  followable p
  p.names.foldlM d.enter (start p)

/-- The place that a path leads to and what stands there. -/
def find (d : Disk) (p : Path) : Except IoError (Location × Node) := do
  let place ← d.resolve p
  match d.lookup place with
  | none => .error .notFound
  | some (.file contents) =>
    if p.wantsDirectory then .error .notADirectory else .ok (place, .file contents)
  | some .directory => .ok (place, .directory)

/-! ## Operations -/

/-- The size of what stands at a path. -/
def size (d : Disk) (p : Path) : Except IoError Nat := do
  match (← d.find p).2 with
  | .file contents => return contents.length
  | .directory => return directorySize

/-- The contents of the file at a path. -/
def read (d : Disk) (p : Path) : Except IoError Bytes := do
  match (← d.find p).2 with
  | .file contents => return contents
  | .directory => throw .isADirectory

def present (d : Disk) (p : Path) : Bool := (d.find p).isOk

/-- The disk with the file at a path created or replaced. -/
def write (d : Disk) (p : Path) (contents : Bytes) : Except IoError Disk := do
  let place ← d.resolve p
  if p.wantsDirectory || d.lookup place = some .directory then throw .isADirectory
  return d.set place (.file contents)

/-- The disk with the file at one path moved onto another. -/
def rename (d : Disk) (source target : Path) : Except IoError Disk := do
  let (place, node) ← d.find source
  let goal ← d.resolve target
  if node = .directory || target.wantsDirectory || d.lookup goal = some .directory then
    throw .isADirectory
  return (d.erase place).set goal node

/-- The disk without the file at a path. -/
def remove (d : Disk) (p : Path) : Except IoError Disk := do
  let (place, node) ← d.find p
  if node = .directory then throw .isADirectory
  return d.erase place

def isDirectory (d : Disk) (p : Path) : Bool :=
  match d.find p with
  | .ok (_, .directory) => true
  | _ => false

/-- The disk with a directory made at a path.  A dot at the end stands for the
directory before it, which has to be there for that. -/
def createDir (d : Disk) (p : Path) : Except IoError Disk := do
  let place ← d.resolve p
  match d.lookup place with
  | some (.file _) => throw (if p.endsInDot then .notADirectory else .alreadyExists)
  | some .directory => throw .alreadyExists
  | none => if p.endsInDot then throw .notFound else return d.set place .directory

/-- The order of a listing: each place before those inside it, and the places
of a directory by their names. -/
def precedes : Location → Location → Bool
  | [], _ => true
  | _ :: _, [] => false
  | name :: rest, other :: others => name < other || name = other && precedes rest others

/-- Everything below the working directory. -/
def listing (d : Disk) : List (Location × Node) :=
  (d.nodes.filter fun n => n.1.head? ≠ some "/").mergeSort fun a b => precedes a.1 b.1

/-- An operation that changes the disk when it succeeds. -/
def changing (op : Disk → Except IoError Disk) : StateM Disk (Except IoError Unit) := fun d =>
  match op d with
  | .ok changed => (.ok (), changed)
  | .error e => (.error e, d)

/-- The file operations on a disk. -/
def system : System (StateM Disk) where
  size p := return (← get).size p
  read p := return (← get).read p
  present p := return (← get).present p
  isDirectory p := return (← get).isDirectory p
  createDir p := changing (·.createDir p)
  write p contents := changing (·.write p contents)
  rename source target := changing (·.rename source target)
  remove p := changing (·.remove p)

end Disk

end MetaRecord.Files

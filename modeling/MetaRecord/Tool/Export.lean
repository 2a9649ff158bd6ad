/-
# `MetaRecord.Tool.Export` — inline values as files

Every inline value of a record is written to a file of its own, named after
its key.  All targets are checked before anything is written; then every value
is written under a hidden staging name, and only when all of them are there are
they renamed, in stored order.  A failure while staging takes the staged files
away again; a failure while renaming says which files are already in place.

Main statements: `isSafe_fileName` (a file name denotes an entry of the export
directory itself) and `fileName_of_isSafe` (a safe name is its own file name).
-/
import MetaRecord.Tool.Commands

namespace MetaRecord.Tool

open Files (IoError Path System)

/-! ## Names -/

/-- A character that file names keep. -/
def isNameChar (c : Char) : Bool :=
  c.isAlphanum || c = '-' || c = '_' || c = '.'

/-- A name that denotes an entry of its own directory: made of kept characters,
and neither nothing, nor one dot, nor two. -/
def isSafe (name : String) : Bool :=
  name.toList.all isNameChar && name ≠ "" && name ≠ "." && name ≠ ".."

/-- A key with every other character replaced by an underscore. -/
def flatten (key : String) : List Char :=
  key.toList.map fun c => if isNameChar c then c else '_'

/-- The file name of a key.  What would denote no file or another directory
becomes underscores, as many as it has characters and at least one. -/
def fileName (key : String) : String :=
  let name := String.ofList (flatten key)
  if name = "" ∨ name = "." ∨ name = ".." then
    String.ofList (List.replicate (max name.length 1) '_')
  else name

def stagingName (name : String) : String := "." ++ name ++ ".xlmeta-tmp"

/-! ## Targets -/

/-- One value on its way to a file. -/
structure Target where
  path : Path
  staging : Path
  value : Bytes
deriving DecidableEq

/-- The target of an inline entry in a directory. -/
def Target.ofEntry (dir : Path) (e : Inline.Entry) : Target :=
  let name := fileName e.1
  let path := dir.join name
  ⟨path, path.withName (stagingName name), e.2⟩

variable {m : Type → Type} [Monad m]

/-- The targets of entries, after those already `done`, which are kept latest
first.  Two entries may not have one target, and without `overwrite` nothing
may stand at a target. -/
def plan (fs : System m) (dir : Path) (overwrite : Bool) (done : List Target) :
    List Inline.Entry → ExceptT Fault m (List Target)
  | [] => return done.reverse
  | e :: rest => do
    let target := Target.ofEntry dir e
    if done.any fun t => t.path = target.path then
      throw (.invalidArgument ("inline keys collide on " ++ target.path.text))
    if !overwrite then
      if ← fs.present target.path then throw (.exportExists target.path.text)
    plan fs dir overwrite (target :: done) rest

/-! ## Writing -/

/-- Remove the staged files of targets; one that cannot be removed stays. -/
def discard (fs : System m) : List Target → m Unit
  | [] => return ()
  | t :: rest => do
    let _ ← fs.remove t.staging
    discard fs rest

/-- Write the values of targets under their staging names, after those already
`staged`, which are kept latest first. -/
def stage (fs : System m) (staged : List Target) : List Target → ExceptT Fault m Unit
  | [] => return ()
  | t :: rest => do
    match ← fs.write t.staging t.value with
    | .ok () => stage fs (t :: staged) rest
    | .error cause =>
      (discard fs staged.reverse : m Unit)
      throw (.diskIo cause)

/-- Rename the staged files of targets into place, after those already
`written`, which are kept latest first. -/
def place (fs : System m) (written : List Path) : List Target → ExceptT Fault m (List Path)
  | [] => return written.reverse
  | t :: rest => do
    match ← fs.rename t.staging t.path with
    | .ok () => place fs (t.path :: written) rest
    | .error cause =>
      (discard fs (t :: rest) : m Unit)
      throw (.exportIncomplete (written.reverse.map Path.text) cause)

/-- Export the inline values of the record in a file into a directory; gives
the files written, in stored order. -/
def exportInline (fs : System m) (file dir : Path) (overwrite : Bool) (limit : Nat) :
    ExceptT Fault m (List Path) := do
  let record ← loadRecord fs file limit
  let entries := (record.store?.map Inline.Store.entries).getD []
  if entries.isEmpty then return []
  let targets ← plan fs dir overwrite [] entries
  diskIo (fs.createDirs dir)
  stage fs [] targets
  place fs [] targets

/-! ## What file names are made of -/

theorem isNameChar_flatten (key : String) : (flatten key).all isNameChar := by
  simp only [flatten, List.all_map, List.all_eq_true, Function.comp_apply]
  intro c _
  split
  · assumption
  · decide

/-- The characters of a safe name are kept. -/
theorem flatten_of_all {name : String} (h : name.toList.all isNameChar) :
    flatten name = name.toList := by
  simp only [List.all_eq_true] at h
  exact (List.map_congr_left fun c hc => if_pos (h c hc)).trans (List.map_id _)

/-- A file name denotes an entry of the export directory itself. -/
theorem isSafe_fileName (key : String) : isSafe (fileName key) := by
  have hall := isNameChar_flatten key
  unfold fileName
  dsimp only
  split
  · rename_i h
    rcases h with h | h | h <;> rw [h] <;> decide
  · rename_i h
    simp only [not_or] at h
    simp [isSafe, hall, h]

/-- A safe name is its own file name. -/
theorem fileName_of_isSafe {name : String} (h : isSafe name) : fileName name = name := by
  simp only [isSafe, Bool.and_eq_true, decide_eq_true_eq] at h
  obtain ⟨⟨⟨hall, h₁⟩, h₂⟩, h₃⟩ := h
  have hflat : String.ofList (flatten name) = name := by
    rw [flatten_of_all hall, String.ofList_toList]
  unfold fileName
  dsimp only
  rw [hflat, if_neg (by simp [h₁, h₂, h₃])]

end MetaRecord.Tool

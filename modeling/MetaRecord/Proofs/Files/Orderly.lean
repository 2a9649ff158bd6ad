/-
# `MetaRecord.Proofs.Files.Orderly` — operations and the files they leave alone

`Lawful` tells what writing and renaming do.  What an export leaves alone
depends on all operations of a file system: `Orderly` adds that looking changes
nothing, that a directory is only made where nothing was, and that removing
empties one place.  An operation that fails changes nothing here as well.

`Keeps` follows a property of the state through a program, whatever the
outcome: the rules are one for each way that programs are put together, so a
loop over operations keeps what each of them keeps.

Main statements: `Orderly.keeps_write` and those beside it, which files each
operation leaves alone; and `Disk.orderly`, by which the files of a `Disk` are an
instance.
-/
import MetaRecord.Proofs.Files.Lawful

namespace MetaRecord

/-! ## What a program keeps -/

/-- Whatever comes of the program, the property holds after it if it held
before. -/
def Keeps {σ α : Type} (I : σ → Prop) (op : StateM σ α) : Prop := ∀ s, I s → I (op.run s).2

namespace Keeps

variable {ε σ α β : Type} {I : σ → Prop}

theorem pure (a : α) : Keeps I (Pure.pure a) := fun _ hs => hs

theorem of_run {op : StateM σ α} {s s' : σ} {a : α} (hop : Keeps I op) (hs : I s)
    (h : op.run s = (a, s')) : I s' := by
  have hkept := hop s hs
  rw [h] at hkept
  exact hkept

theorem bind {op : StateM σ α} {f : α → StateM σ β} (hop : Keeps I op) (hf : ∀ a, Keeps I (f a)) :
    Keeps I (op >>= f) := fun s hs =>
  hf (op.run s).1 _ (hop s hs)

theorem run_pure (a : α) : Keeps I (Pure.pure a : ExceptT ε (StateM σ) α).run := pure _

theorem run_throw (e : ε) : Keeps I (throw e : ExceptT ε (StateM σ) α).run := pure _

theorem run_throw_bind (e : ε) (f : α → ExceptT ε (StateM σ) β) :
    Keeps I (throw e >>= f).run := fun _ hs => hs

theorem run_lift {op : StateM σ α} (hop : Keeps I op) :
    Keeps I (liftM op : ExceptT ε (StateM σ) α).run := hop

theorem run_bind {x : ExceptT ε (StateM σ) α} {f : α → ExceptT ε (StateM σ) β}
    (hx : Keeps I x.run) (hf : ∀ a, Keeps I (f a).run) : Keeps I (x >>= f).run := by
  rw [ExceptT.run_bind]
  refine hx.bind fun outcome => ?_
  cases outcome with
  | ok a => exact hf a
  | error e => exact pure _

end Keeps

end MetaRecord

namespace MetaRecord.Files

/-! ## Directories on the way -/

/-- The directory `dir` and those above it. -/
inductive Path.Above (dir : Path) : Path → Prop
  | self : Above dir dir
  | parent {p : Path} : Above dir p → Above dir p.parent

namespace System

variable {σ : Type} {I : σ → Prop} {fs : System (StateM σ)} {dir p : Path}

theorem keeps_ensureDir (hlook : Keeps I (fs.isDirectory p)) (hmake : Keeps I (fs.createDir p)) :
    Keeps I (fs.ensureDir p) := by
  refine hmake.bind fun outcome => ?_
  split
  · exact hlook.bind fun _ => .pure _
  · exact .pure _

/-- Making a directory takes no more than looking for directories and making
them, at that directory and above it. -/
theorem keeps_createDirs (hlook : ∀ p, Keeps I (fs.isDirectory p))
    (hmake : ∀ p, Path.Above dir p → Keeps I (fs.createDir p)) : Keeps I (fs.createDirs dir) := by
  suffices h : ∀ n p, Path.Above dir p → Keeps I (fs.ensureDirs n p) from h _ dir .self
  intro n
  induction n with
  | zero =>
      intro p hp
      rw [System.ensureDirs]
      split
      · exact .pure _
      · exact keeps_ensureDir (hlook p) (hmake p hp)
  | succ n ih =>
      intro p hp
      have hself : Keeps I (fs.ensureDir p) := keeps_ensureDir (hlook p) (hmake p hp)
      refine hself.bind fun outcome => ?_
      split
      · refine (ih p.parent hp.parent).bind fun above => ?_
        split
        · exact hself
        · exact .pure _
      · exact .pure _

end System

/-- All file operations do what their names say to a map from places. -/
structure Orderly {σ Place : Type} [DecidableEq Place] (fs : System (StateM σ))
    (place : Path → Place) (node : σ → Place → Option Node) : Prop
    extends Lawful fs place node where
  size_node (p : Path) (s : σ) : node ((fs.size p).run s).2 = node s
  read_node (p : Path) (s : σ) : node ((fs.read p).run s).2 = node s
  present_node (p : Path) (s : σ) : node ((fs.present p).run s).2 = node s
  isDirectory_node (p : Path) (s : σ) : node ((fs.isDirectory p).run s).2 = node s
  createDir_ok {p : Path} {s s' : σ} : (fs.createDir p).run s = (.ok (), s') →
    node s (place p) = none ∧ node s' = Function.update (node s) (place p) (some .directory)
  createDir_error {p : Path} {s s' : σ} {cause : IoError} :
    (fs.createDir p).run s = (.error cause, s') → node s' = node s
  remove_ok {p : Path} {s s' : σ} : (fs.remove p).run s = (.ok (), s') →
    node s' = Function.update (node s) (place p) none
  remove_error {p : Path} {s s' : σ} {cause : IoError} :
    (fs.remove p).run s = (.error cause, s') → node s' = node s

/-! ## What the operations keep -/

namespace Orderly

variable {σ Place : Type} {node : σ → Place → Option Node} {x : Place} {contents : Bytes}

/-- A state in which a file with the given contents is at a place. -/
def Holds (node : σ → Place → Option Node) (x : Place) (contents : Bytes) (s : σ) : Prop :=
  node s x = some (.file contents)

variable [DecidableEq Place] {fs : System (StateM σ)} {place : Path → Place} {data : Bytes}
  {p source target : Path} (hfs : Orderly fs place node)

include hfs

theorem keeps_isDirectory : Keeps (Holds node x contents) (fs.isDirectory p) := by
  intro s hs
  rw [Holds, hfs.isDirectory_node p s]
  exact hs

theorem keeps_createDir : Keeps (Holds node x contents) (fs.createDir p) := by
  intro s hs
  rcases hrun : (fs.createDir p).run s with ⟨_ | ⟨⟨⟩⟩, s'⟩
  · rw [Holds, hfs.createDir_error hrun]
    exact hs
  · obtain ⟨hnone, hnode⟩ := hfs.createDir_ok hrun
    have hx : x ≠ place p := by
      rintro rfl
      exact nomatch hnone.symm.trans hs
    rw [Holds, hnode, Function.update_of_ne hx]
    exact hs

theorem keeps_write (hx : x ≠ place p) : Keeps (Holds node x contents) (fs.write p data) := by
  intro s hs
  rcases hrun : (fs.write p data).run s with ⟨_ | ⟨⟨⟩⟩, s'⟩
  · rw [Holds, hfs.write_error hrun]
    exact hs
  · rw [Holds, hfs.write_ok hrun, Function.update_of_ne hx]
    exact hs

theorem keeps_remove (hx : x ≠ place p) : Keeps (Holds node x contents) (fs.remove p) := by
  intro s hs
  rcases hrun : (fs.remove p).run s with ⟨_ | ⟨⟨⟩⟩, s'⟩
  · rw [Holds, hfs.remove_error hrun]
    exact hs
  · rw [Holds, hfs.remove_ok hrun, Function.update_of_ne hx]
    exact hs

theorem keeps_rename (hsource : x ≠ place source) (htarget : x ≠ place target) :
    Keeps (Holds node x contents) (fs.rename source target) := by
  intro s hs
  rcases hrun : (fs.rename source target).run s with ⟨_ | ⟨⟨⟩⟩, s'⟩
  · rw [Holds, hfs.rename_error hrun]
    exact hs
  · obtain ⟨moved, -, hnode⟩ := hfs.rename_ok hrun
    rw [Holds, hnode, Function.update_of_ne htarget, Function.update_of_ne hsource]
    exact hs

/-- Making directories leaves every file where it is. -/
theorem keeps_createDirs : Keeps (Holds node x contents) (fs.createDirs p) :=
  System.keeps_createDirs (fun _ => hfs.keeps_isDirectory) fun _ _ => hfs.keeps_createDir

end Orderly

/-! ## The files of a disk -/

namespace Disk

variable {d d' : Disk} {p : Path}

theorem remove_eq_ok (h : d.remove p = .ok d') :
    d'.lookup = Function.update d.lookup (location p) none := by
  obtain ⟨⟨place, node⟩, hfind, h⟩ := bind_eq_ok.mp h
  obtain ⟨rfl, hnode⟩ := find_eq_ok hfind
  dsimp only at h
  split at h
  · exact absurd h throw_ne_ok
  · next hfile =>
      obtain rfl := Except.ok.inj h
      refine d.lookup_erase ?_
      rw [hnode]
      exact fun h => hfile (Option.some.inj h)

theorem createDir_eq_ok (h : d.createDir p = .ok d') :
    d.lookup (location p) = none ∧
      d'.lookup = Function.update d.lookup (location p) (some .directory) := by
  obtain ⟨place, hplace, h⟩ := bind_eq_ok.mp h
  obtain rfl := resolve_eq_ok hplace
  split at h
  · exact absurd h throw_ne_ok
  · exact absurd h throw_ne_ok
  · next hnone =>
      split at h
      · exact absurd h throw_ne_ok
      · obtain rfl := Except.ok.inj h
        refine ⟨hnone, d.lookup_set _ ?_⟩
        rw [hnone]
        exact nofun

theorem orderly : Orderly system location lookup where
  toLawful := lawful
  size_node _ _ := rfl
  read_node _ _ := rfl
  present_node _ _ := rfl
  isDirectory_node _ _ := rfl
  createDir_ok h := createDir_eq_ok (changing_eq_ok h)
  createDir_error h := by rw [changing_eq_error h]
  remove_ok h := remove_eq_ok (changing_eq_ok h)
  remove_error h := by rw [changing_eq_error h]

end Disk

end MetaRecord.Files

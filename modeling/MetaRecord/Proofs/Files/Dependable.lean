/-
# `MetaRecord.Proofs.Files.Dependable` — files that can be taken away again

A program that cleans up after a failure needs more of a file system than that
its operations do what their names say: what it wrote has to go away when it is
removed.  A removal fails where the path cannot be followed, so `Dependable`
asks for it where the path could be followed once and no directory has gone
since.  Directories do not go by themselves: files are not written or moved
onto them.

What an export may change besides its own files is the way to its directory.
`AsBefore` says of one place that it is as it was, or that nothing was there
and it is a directory now, that one or one above it.

Main statements: `Removable.remove` and `Removable.later`, by which a program
that keeps track of what it wrote can remove it; `Orderly.asBefore_createDirs`;
and `Disk.dependable`, by which the files of a `Disk` are an instance.
-/
import MetaRecord.Proofs.Files.Orderly

namespace MetaRecord.Files

/-! ## Places that are as before -/

section Before

variable {σ Place : Type} {place : Path → Place} {dir : Path}
  {before after : Place → Option Node} {x : Place}

/-- What stands at a place has not changed, or nothing stood there and it has
become a directory on the way to `dir`. -/
def AsBefore (place : Path → Place) (dir : Path) (before after : Place → Option Node)
    (x : Place) : Prop :=
  after x = before x ∨
    before x = none ∧ after x = some .directory ∧ ∃ p, Path.Above dir p ∧ x = place p

/-- Files are as before in any case. -/
theorem AsBefore.file_iff (h : AsBefore place dir before after x) (contents : Bytes) :
    after x = some (.file contents) ↔ before x = some (.file contents) := by
  rcases h with h | ⟨hbefore, hafter, -⟩
  · rw [h]
  · rw [hbefore, hafter]
    simp

theorem AsBefore.of_eq {after' : Place → Option Node} (h : AsBefore place dir before after x)
    (hx : after' x = after x) : AsBefore place dir before after' x := by
  rw [AsBefore, hx]
  exact h

variable [DecidableEq Place] {fs : System (StateM σ)} {node : σ → Place → Option Node}
  {s s' : σ}

/-- Making a directory changes no place but those on the way to it at which
nothing stood. -/
theorem Orderly.asBefore_createDirs (hfs : Orderly fs place node)
    {outcome : Except IoError Unit} (h : (fs.createDirs dir).run s = (outcome, s')) :
    ∀ x, AsBefore place dir (node s) (node s') x := by
  have hkeeps : Keeps (fun t => ∀ x, AsBefore place dir (node s) (node t) x)
      (fs.createDirs dir) := by
    refine System.keeps_createDirs (fun p t ht => ?_) fun p hp t ht => ?_
    · rw [hfs.isDirectory_node p t]
      exact ht
    · rcases hrun : (fs.createDir p).run t with ⟨_ | ⟨⟨⟩⟩, t'⟩
      · rw [hfs.createDir_error hrun]
        exact ht
      · obtain ⟨hnone, hnode⟩ := hfs.createDir_ok hrun
        intro x
        by_cases hx : x = place p
        · -- Nothing was there before either: it would have stayed, or be a directory now.
          subst hx
          refine Or.inr ⟨?_, by rw [hnode, Function.update_self], p, hp, rfl⟩
          rcases ht (place p) with hsame | ⟨hbefore, -⟩
          · exact hsame.symm.trans hnone
          · exact hbefore
        · exact (ht x).of_eq (by rw [hnode, Function.update_of_ne hx])
  exact hkeeps.of_run (fun _ => Or.inl rfl) h

end Before

/-! ## Directories that stay -/

section Directories

variable {σ Place : Type} {node : σ → Place → Option Node} {s s' s'' : σ}

/-- Every directory of one state is still there in the other. -/
def DirectoriesStay (node : σ → Place → Option Node) (s s' : σ) : Prop :=
  ∀ x, node s x = some .directory → node s' x = some .directory

theorem DirectoriesStay.of_eq (h : node s' = node s) : DirectoriesStay node s s' := by
  intro x hx
  rw [h]
  exact hx

theorem DirectoriesStay.trans (h : DirectoriesStay node s s')
    (h' : DirectoriesStay node s' s'') : DirectoriesStay node s s'' := fun x hx => h' x (h x hx)

/-- A change of one place at which there was no directory. -/
theorem DirectoriesStay.of_update [DecidableEq Place] {y : Place} {now : Option Node}
    (hy : node s y ≠ some .directory) (h : node s' = Function.update (node s) y now) :
    DirectoriesStay node s s' := by
  intro x hx
  have hne : x ≠ y := by
    rintro rfl
    exact hy hx
  rw [h, Function.update_of_ne hne]
  exact hx

end Directories

/-! ## File systems to clean up on -/

/-- Files do not take the place of directories, and a file that was written can
be removed while the directories of that time are there. -/
structure Dependable {σ Place : Type} [DecidableEq Place] (fs : System (StateM σ))
    (place : Path → Place) (node : σ → Place → Option Node) : Prop
    extends Orderly fs place node where
  write_onto {p : Path} {contents : Bytes} {s s' : σ} :
    (fs.write p contents).run s = (.ok (), s') → node s (place p) ≠ some .directory
  rename_onto {source target : Path} {s s' : σ} :
    (fs.rename source target).run s = (.ok (), s') → node s (place target) ≠ some .directory
  remove_written {p : Path} {contents data : Bytes} {s s' t : σ} :
    (fs.write p contents).run s = (.ok (), s') → DirectoriesStay node s t →
    node t (place p) = some (.file data) → ∃ t', (fs.remove p).run t = (.ok (), t')

section Removable

variable {σ Place : Type} {fs : System (StateM σ)} {place : Path → Place}
  {node : σ → Place → Option Node} {s s' : σ} {p source target : Path} {contents : Bytes}

/-- A file stands at `p`, and `p` was written when there was no directory that
is gone. -/
structure Removable (fs : System (StateM σ)) (place : Path → Place)
    (node : σ → Place → Option Node) (s : σ) (p : Path) : Prop where
  file : ∃ data, node s (place p) = some (.file data)
  written : ∃ t contents t', (fs.write p contents).run t = (.ok (), t') ∧ DirectoriesStay node t s

/-- A removable file stays so while it and the directories are there. -/
theorem Removable.later (h : Removable fs place node s p) (hdirs : DirectoriesStay node s s')
    (hfile : node s' (place p) = node s (place p)) : Removable fs place node s' p where
  file := by
    rw [hfile]
    exact h.file
  written := by
    obtain ⟨t, contents, t', hwrite, hstay⟩ := h.written
    exact ⟨t, contents, t', hwrite, hstay.trans hdirs⟩

theorem Removable.not_directory (h : Removable fs place node s p) :
    node s (place p) ≠ some .directory := by
  obtain ⟨data, hfile⟩ := h.file
  rw [hfile]
  simp

variable [DecidableEq Place] (hfs : Dependable fs place node)

include hfs

theorem Removable.remove (h : Removable fs place node s p) :
    ∃ s', (fs.remove p).run s = (.ok (), s') ∧
      node s' = Function.update (node s) (place p) none ∧ DirectoriesStay node s s' := by
  obtain ⟨data, hfile⟩ := h.file
  obtain ⟨t, contents, t', hwrite, hstay⟩ := h.written
  obtain ⟨s', hremove⟩ := hfs.remove_written hwrite hstay hfile
  have hnode := hfs.remove_ok hremove
  exact ⟨s', hremove, hnode, .of_update h.not_directory hnode⟩

theorem Dependable.directoriesStay_write (h : (fs.write p contents).run s = (.ok (), s')) :
    DirectoriesStay node s s' :=
  .of_update (hfs.write_onto h) (hfs.write_ok h)

theorem Dependable.removable_write (h : (fs.write p contents).run s = (.ok (), s')) :
    Removable fs place node s' p where
  file := ⟨contents, by rw [hfs.write_ok h, Function.update_self]⟩
  written := ⟨s, contents, s', h, hfs.directoriesStay_write h⟩

theorem Dependable.directoriesStay_rename
    (h : (fs.rename source target).run s = (.ok (), s')) : DirectoriesStay node s s' := by
  obtain ⟨data, hsource, hnode⟩ := hfs.rename_ok h
  intro x hx
  have hne : x ≠ place source := by
    rintro rfl
    exact nomatch hsource.symm.trans hx
  have hne' : x ≠ place target := by
    rintro rfl
    exact hfs.rename_onto h hx
  rw [hnode, Function.update_of_ne hne', Function.update_of_ne hne]
  exact hx

end Removable

/-! ## The files of a disk -/

namespace Disk

variable {d d' : Disk} {p : Path} {place goal : Location}

theorem enter_stays (hdirs : DirectoriesStay lookup d d') {name : String}
    (h : d.enter place name = .ok goal) : d'.enter place name = .ok goal := by
  obtain ⟨hplace, h⟩ := lookup_of_enter h
  rw [enter, hdirs place hplace]
  exact h

theorem foldlM_enter_stays (hdirs : DirectoriesStay lookup d d') :
    ∀ {names : List String} {place : Location},
      names.foldlM d.enter place = .ok goal → names.foldlM d'.enter place = .ok goal
  | [], _, h => h
  | name :: names, place, h => by
      rw [List.foldlM_cons] at h ⊢
      obtain ⟨next, hnext, hrest⟩ := bind_eq_ok.mp h
      rw [enter_stays hdirs hnext, ok_bind]
      exact foldlM_enter_stays hdirs hrest

/-- A path that could be followed can be followed while the directories are
there. -/
theorem resolve_stays (hdirs : DirectoriesStay lookup d d') (h : d.resolve p = .ok place) :
    d'.resolve p = .ok place := by
  obtain ⟨⟨⟩, hfollow, h⟩ := bind_eq_ok.mp h
  exact bind_eq_ok.mpr ⟨(), hfollow, foldlM_enter_stays hdirs h⟩

theorem resolve_of_write {contents : Bytes} (h : d.write p contents = .ok d') :
    d.resolve p = .ok (location p) ∧ p.wantsDirectory = false ∧
      d.lookup (location p) ≠ some .directory := by
  obtain ⟨place, hplace, h⟩ := bind_eq_ok.mp h
  obtain rfl := resolve_eq_ok hplace
  dsimp only at h
  split at h
  · exact absurd h throw_ne_ok
  · next hfile =>
      rw [Bool.or_eq_true, not_or, decide_eq_true_eq, Bool.not_eq_true] at hfile
      exact ⟨hplace, hfile⟩

theorem not_directory_of_rename {source target : Path} (h : d.rename source target = .ok d') :
    d.lookup (location target) ≠ some .directory := by
  obtain ⟨⟨_, node⟩, -, h⟩ := bind_eq_ok.mp h
  obtain ⟨goal, hgoal, h⟩ := bind_eq_ok.mp h
  obtain rfl := resolve_eq_ok hgoal
  dsimp only at h
  split at h
  · exact absurd h throw_ne_ok
  · next hfile =>
      rw [Bool.or_eq_true, not_or, decide_eq_true_eq] at hfile
      exact hfile.2

theorem remove_of_file {data : Bytes} (hplace : d.resolve p = .ok (location p))
    (hwants : p.wantsDirectory = false) (hfile : d.lookup (location p) = some (.file data)) :
    d.remove p = .ok (d.erase (location p)) := by
  have hfind : d.find p = .ok (location p, .file data) := by
    rw [find, hplace, ok_bind, hfile]
    dsimp only
    rw [hwants]
    rfl
  rw [remove, hfind]
  rfl

theorem dependable : Dependable system location lookup where
  toOrderly := orderly
  write_onto h := (resolve_of_write (changing_eq_ok h)).2.2
  rename_onto h := not_directory_of_rename (changing_eq_ok h)
  remove_written {p contents data d d' t} h hdirs hfile := by
    obtain ⟨hplace, hwants, -⟩ := resolve_of_write (changing_eq_ok h)
    refine ⟨t.erase (location p), ?_⟩
    show (changing (·.remove p)).run t = _
    rw [run_changing, remove_of_file (resolve_stays hdirs hplace) hwants hfile]

end Disk

end MetaRecord.Files

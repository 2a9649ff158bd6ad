/-
# `MetaRecord.Proofs.Tool.Loading` — what a command gets to see of a file

Every command asks for the size of its file, reads the file if it is not too
large, and decodes what it has read.  None of this changes anything, so what
comes of it can be said without the run: `contentsOf` is the contents or the
fault that keeps a command from them, and a file that is there and not too
large is `Readable`.

Main statements: `run_loadRecord`, by which loading is reading and decoding;
`contentsOf_eq_ok_iff`, and for the files of a disk `Disk.readable_iff`.
-/
import MetaRecord.Files.Disk
import MetaRecord.Proofs.Outcome
import MetaRecord.Tool.Commands

namespace MetaRecord.Files

/-- Looking at files changes nothing. -/
structure Steady {σ : Type} (fs : System (StateM σ)) : Prop where
  size_state (p : Path) (s : σ) : ((fs.size p).run s).2 = s
  read_state (p : Path) (s : σ) : ((fs.read p).run s).2 = s

theorem Disk.steady : Steady Disk.system where
  size_state _ _ := rfl
  read_state _ _ := rfl

end MetaRecord.Files

namespace MetaRecord.Tool

open Files (Disk IoError Path Steady System)

variable {σ : Type} {fs : System (StateM σ)} {file : Path} {limit : Nat} {s s' : σ}

/-! ## File operations in a command -/

section DiskIo

variable {fault : Fault}

theorem run_diskIo {α : Type} (op : StateM σ (Except IoError α)) (s : σ) :
    (diskIo op).run.run s = ((op.run s).1.mapError Fault.diskIo, (op.run s).2) := by
  rw [diskIo, run_lift_bind]
  cases (op.run s).1 <;> rfl

theorem run_diskIo_eq_ok {α : Type} {op : StateM σ (Except IoError α)} {a : α} :
    (diskIo op).run.run s = (.ok a, s') ↔ op.run s = (.ok a, s') := by
  rw [run_diskIo]
  generalize op.run s = result
  obtain ⟨outcome, t⟩ := result
  rw [Prod.mk.injEq, Prod.mk.injEq, mapError_eq_ok]

theorem run_diskIo_eq_error {α : Type} {op : StateM σ (Except IoError α)} :
    (diskIo op).run.run s = (.error fault, s') ↔
      ∃ cause, op.run s = (.error cause, s') ∧ fault = .diskIo cause := by
  rw [run_diskIo]
  generalize op.run s = result
  obtain ⟨outcome, t⟩ := result
  rw [Prod.mk.injEq, mapError_eq_error]
  constructor
  · rintro ⟨⟨cause, rfl, rfl⟩, rfl⟩
    exact ⟨cause, rfl, rfl⟩
  · rintro ⟨cause, hcause, rfl⟩
    obtain ⟨rfl, rfl⟩ := Prod.mk.inj hcause
    exact ⟨⟨cause, rfl, rfl⟩, rfl⟩

end DiskIo

/-! ## Contents -/

/-- The contents of a file, or what keeps a command from them. -/
def contentsOf (fs : System (StateM σ)) (s : σ) (limit : Nat) (file : Path) :
    Except Fault Bytes := do
  let size ← ((fs.size file).run s).1.mapError .diskIo
  if limit < size then throw (.recordTooLarge size limit)
  ((fs.read file).run s).1.mapError .diskIo

/-- The file can be read, is not too large and has these contents. -/
structure Readable (fs : System (StateM σ)) (s : σ) (limit : Nat) (file : Path)
    (contents : Bytes) : Prop where
  size : ∃ n ≤ limit, ((fs.size file).run s).1 = .ok n
  read : ((fs.read file).run s).1 = .ok contents

theorem contentsOf_eq_ok_iff {contents : Bytes} :
    contentsOf fs s limit file = .ok contents ↔ Readable fs s limit file contents := by
  rw [contentsOf, bind_eq_ok]
  constructor
  · rintro ⟨n, hsize, h⟩
    obtain hsize := mapError_eq_ok.mp hsize
    split at h
    · exact nomatch h
    · next hsmall => exact ⟨⟨n, Nat.le_of_not_lt hsmall, hsize⟩, mapError_eq_ok.mp h⟩
  · rintro ⟨⟨n, hsmall, hsize⟩, hread⟩
    refine ⟨n, mapError_eq_ok.mpr hsize, ?_⟩
    rw [if_neg (Nat.not_lt.mpr hsmall)]
    exact mapError_eq_ok.mpr hread

/-- What keeps a command from the contents of a file is no fault of a record. -/
theorem exitCode_of_contentsOf {fault : Fault} (h : contentsOf fs s limit file = .error fault) :
    fault.exitCode = 1 := by
  rw [contentsOf, bind_eq_error] at h
  rcases h with hsize | ⟨n, -, h⟩
  · obtain ⟨cause, -, rfl⟩ := mapError_eq_error.mp hsize
    rfl
  · split at h
    · obtain rfl := Except.error.inj h
      rfl
    · obtain ⟨cause, -, rfl⟩ := mapError_eq_error.mp h
      rfl

theorem run_readRecord (hfs : Steady fs) (limit : Nat) (file : Path) (s : σ) :
    (readRecord fs file limit).run.run s = (contentsOf fs s limit file, s) := by
  have hsize := run_diskIo (fs.size file) s
  rw [hfs.size_state] at hsize
  have hread := run_diskIo (fs.read file) s
  rw [hfs.read_state] at hread
  rw [readRecord, contentsOf]
  cases hn : ((fs.size file).run s).1 with
  | error cause =>
      rw [hn, mapError_error] at hsize
      exact run_bind_eq_error.mpr (Or.inl hsize)
  | ok n =>
      rw [hn, mapError_ok] at hsize
      rw [run_bind_of_ok hsize, mapError_ok, ok_bind]
      split
      · rfl
      · exact hread

/-- The record in a file, or what keeps a command from it. -/
def loaded (fs : System (StateM σ)) (s : σ) (limit : Nat) (file : Path) : Except Fault Record := do
  let contents ← contentsOf fs s limit file
  (Record.decode contents).mapError .ofDecodeError

theorem loaded_eq_ok_iff {r : Record} :
    loaded fs s limit file = .ok r ↔
      ∃ contents, Readable fs s limit file contents ∧ Record.decode contents = .ok r := by
  simp only [loaded, bind_eq_ok, mapError_eq_ok, contentsOf_eq_ok_iff]

theorem run_loadRecord (hfs : Steady fs) (limit : Nat) (file : Path) (s : σ) :
    (loadRecord fs file limit).run.run s = (loaded fs s limit file, s) := by
  have hread := run_readRecord hfs limit file s
  rw [loadRecord, loaded]
  cases hcontents : contentsOf fs s limit file with
  | error fault =>
      rw [hcontents] at hread
      exact run_bind_eq_error.mpr (Or.inl hread)
  | ok contents =>
      rw [hcontents] at hread
      rw [run_bind_of_ok hread, ok_bind]
      cases Record.decode contents <;> rfl

/-- What a command does with the record once it is loaded, if that changes
nothing either. -/
theorem run_loadRecord_bind {α : Type} (hfs : Steady fs) {f : Record → ExceptT Fault (StateM σ) α}
    {g : Record → Except Fault α} (hf : ∀ r, (f r).run.run s = (g r, s)) :
    (loadRecord fs file limit >>= f).run.run s = (loaded fs s limit file >>= g, s) := by
  have hload := run_loadRecord hfs limit file s
  cases h : loaded fs s limit file with
  | error fault =>
      rw [h] at hload
      exact run_bind_eq_error.mpr (Or.inl hload)
  | ok r =>
      rw [h] at hload
      rw [run_bind_of_ok hload, hf, ok_bind]

end MetaRecord.Tool

namespace MetaRecord.Files.Disk

/-! ## The files of a disk -/

/-- A file on a disk is as large as its contents are long. -/
theorem readable_iff {d : Disk} {limit : Nat} {file : Path} {contents : Bytes} :
    Tool.Readable system d limit file contents ↔
      d.read file = .ok contents ∧ contents.length ≤ limit := by
  have hread (c : Bytes) : d.read file = .ok c → d.size file = .ok c.length := by
    intro h
    obtain ⟨⟨place, node⟩, hfind, h⟩ := bind_eq_ok.mp h
    rw [size, hfind, ok_bind]
    cases node with
    | directory => exact nomatch h
    | file data =>
        obtain rfl := Except.ok.inj h
        rfl
  constructor
  · rintro ⟨⟨n, hsmall, hsize⟩, hcontents⟩
    refine ⟨hcontents, ?_⟩
    have hlength : Except.ok n = Except.ok contents.length :=
      hsize.symm.trans (hread contents hcontents)
    rwa [← Except.ok.inj hlength]
  · rintro ⟨hcontents, hsmall⟩
    exact ⟨⟨contents.length, hsmall, hread contents hcontents⟩, hcontents⟩

end MetaRecord.Files.Disk

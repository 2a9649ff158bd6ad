/-
# `MetaRecord.Proofs.Tool.Verification` — what verifying many files reports

Verifying goes through the files in the order in which they are given, and a
file that fails does not end it.  So the report is put together from what each
file would bring about alone: the lines follow one another, and the exit code
is the largest that any file asks for.

What a file asks for is its `Verdict`, which is read off the contents: they are
a record whose checksum is in order or missing, or damaged, or written by a
newer revision; or there are none to be had.

Main statements: `run_onFiles`, for any command over several files;
`run_verifyAction`, what verifying one file comes to; `verify_reports`.
-/
import Mathlib.Data.List.Perm.Basic
import MetaRecord.Proofs.Tool.Loading
import MetaRecord.Record.Draft
import MetaRecord.Tool.Run

namespace MetaRecord.Tool

open Files (Disk Path Steady System)

/-! ## Reports one after another -/

namespace Report

theorem toNat_max (a b : UInt8) : (max a b).toNat = max a.toNat b.toNat := by
  show (if a ≤ b then b else a).toNat = _
  split
  · next h => rw [Nat.max_eq_right (UInt8.le_iff_toNat_le.mp h)]
  · next h =>
      have hlt := Nat.lt_of_not_le fun hle => h (UInt8.le_iff_toNat_le.mpr hle)
      rw [Nat.max_eq_left (Nat.le_of_lt hlt)]

theorem append_eq (a b : Report) :
    a ++ b = ⟨max a.status b.status, a.out ++ b.out, a.err ++ b.err⟩ := rfl

theorem append_assoc (a b c : Report) : a ++ b ++ c = a ++ (b ++ c) := by
  have hstatus : max (max a.status b.status) c.status = max a.status (max b.status c.status) := by
    rw [← UInt8.toNat_inj]
    simp only [toNat_max, Nat.max_assoc]
  simp only [append_eq, String.append_assoc, hstatus]

theorem append_empty (a : Report) : a ++ empty = a := by
  have hstatus : max a.status 0 = a.status := by
    rw [← UInt8.toNat_inj, toNat_max, UInt8.toNat_zero, Nat.max_zero]
  simp only [append_eq, empty, String.append_empty, hstatus]

theorem empty_append (a : Report) : empty ++ a = a := by
  have hstatus : max 0 a.status = a.status := by
    rw [← UInt8.toNat_inj, toNat_max, UInt8.toNat_zero, Nat.zero_max]
  simp only [append_eq, empty, String.empty_append, hstatus]

/-- The report of doing several things. -/
def all : List Report → Report
  | [] => empty
  | r :: reports => r ++ all reports

theorem out_all (reports : List Report) :
    (all reports).out = String.join (reports.map (·.out)) := by
  induction reports with
  | nil => rfl
  | cons r reports ih => rw [all, List.map_cons, String.join_cons, ← ih, append_eq]

theorem err_all (reports : List Report) :
    (all reports).err = String.join (reports.map (·.err)) := by
  induction reports with
  | nil => rfl
  | cons r reports ih => rw [all, List.map_cons, String.join_cons, ← ih, append_eq]

theorem status_all (reports : List Report) :
    (all reports).status.toNat = (reports.map (·.status.toNat)).foldr max 0 := by
  induction reports with
  | nil => rfl
  | cons r reports ih => rw [all, List.map_cons, List.foldr_cons, ← ih, append_eq, toNat_max]

end Report

/-- Lines that are there for some of the items only. -/
theorem join_map_getD {α : Type} (line? : α → Option String) (items : List α) :
    String.join (items.map fun a => (line? a).getD "") = String.join (items.filterMap line?) := by
  induction items with
  | nil => rfl
  | cons a items ih =>
      rw [List.map_cons, String.join_cons, ih, List.filterMap_cons]
      cases line? a with
      | none => exact String.empty_append
      | some line => exact String.join_cons.symm

variable {σ : Type} {fs : System (StateM σ)} {s : σ} {limit : Nat} {settings : Settings}

/-- A command over several files that changes nothing reports what it would
report of each file alone. -/
theorem run_onFiles {act : Path → ExceptT Fault (StateM σ) String}
    {outcome : Path → Except Fault String} (hact : ∀ file, (act file).run.run s = (outcome file, s))
    (before : Report) (files : List Path) :
    (onFiles act before files).run s =
      (before ++ .all (files.map fun file => Report.ofOutcome file (outcome file)), s) := by
  induction files generalizing before with
  | nil =>
      rw [List.map_nil, Report.all, Report.append_empty]
      rfl
  | cons file files ih =>
      have hfile : (onFile act file).run s = (Report.ofOutcome file (outcome file), s) := by
        show (Report.ofOutcome file ((act file).run.run s).1, ((act file).run.run s).2) = _
        rw [hact]
      rw [onFiles, StateT.run_bind, hfile, List.map_cons, Report.all, ← Report.append_assoc]
      exact ih _

/-! ## Verdicts -/

/-- What verifying a file finds out about it. -/
inductive Verdict where
  /-- It is a record, and its checksum is in order if it has one. -/
  | passed (checked : Bool)
  /-- It is no record, or its checksum is another one's. -/
  | damaged
  /-- It was written by a newer revision of the format. -/
  | newer
  /-- Its contents are not to be had. -/
  | unread
deriving DecidableEq

namespace Verdict

/-- The verdict on what is in a file. -/
def ofContents (contents : Bytes) : Verdict :=
  match Record.decode contents with
  | .error e => if e.isUnsupported then newer else damaged
  | .ok r =>
    match r.status with
    | .absent => passed false
    | .valid => passed true
    | .mismatch .. => damaged

/-- The exit code that the verdict asks for. -/
def code : Verdict → Nat
  | passed _ => 0
  | damaged => 2
  | newer => 3
  | unread => 1

/-- The line about a file that passes. -/
def line? (file : Path) : Verdict → Option String
  | passed true => some (file.text ++ ": ok\n")
  | passed false => some (file.text ++ ": ok (no checksum)\n")
  | _ => none

theorem code_eq_zero_iff {v : Verdict} : v.code = 0 ↔ ∃ checked, v = passed checked := by
  cases v <;> simp [code]

end Verdict

/-- The verdict on a file. -/
def verdict (fs : System (StateM σ)) (s : σ) (limit : Nat) (file : Path) : Verdict :=
  match contentsOf fs s limit file with
  | .ok contents => .ofContents contents
  | .error _ => .unread

/-- A mismatch is a fault, and any other standing is the result. -/
def settle : Checksum.Status → Except Fault Checksum.Status
  | .mismatch stored computed => .error (.checksumMismatch stored computed)
  | status => .ok status

/-- The standing of the checksum in a file, or the fault of the file. -/
def verified (fs : System (StateM σ)) (s : σ) (limit : Nat) (file : Path) :
    Except Fault Checksum.Status :=
  loaded fs s limit file >>= fun r => settle r.status

theorem run_verify (hfs : Steady fs) (settings : Settings) (file : Path) (s : σ) :
    (verify fs settings file).run.run s = (verified fs s settings.maxRecordSize file, s) := by
  refine run_loadRecord_bind hfs fun r => ?_
  cases r.status <;> rfl

theorem run_verifyAction (hfs : Steady fs) (settings : Settings) (file : Path) (s : σ) :
    (verifyAction fs settings file).run.run s =
      ((verified fs s settings.maxRecordSize file).map (verifiedLine file), s) := by
  have hverify := run_verify hfs settings file s
  rw [verifyAction]
  cases h : verified fs s settings.maxRecordSize file with
  | error fault =>
      rw [h] at hverify
      exact run_bind_eq_error.mpr (Or.inl hverify)
  | ok status =>
      rw [h] at hverify
      rw [run_bind_of_ok hverify]
      rfl

/-- The report of verifying a file. -/
def verifiedReport (fs : System (StateM σ)) (s : σ) (limit : Nat) (file : Path) : Report :=
  .ofOutcome file ((verified fs s limit file).map (verifiedLine file))

theorem exitCode_ofDecodeError (e : DecodeError) :
    (Fault.ofDecodeError e).exitCode = if e.isUnsupported then 3 else 2 := by
  rw [Fault.ofDecodeError]
  split <;> rfl

/-- A file is reported by the verdict on it. -/
theorem verifiedReport_verdict (file : Path) :
    (verifiedReport fs s limit file).status.toNat = (verdict fs s limit file).code ∧
      (verifiedReport fs s limit file).out = ((verdict fs s limit file).line? file).getD "" := by
  rw [verifiedReport, verified, verdict, loaded]
  cases hcontents : contentsOf fs s limit file with
  | error fault =>
      refine ⟨?_, rfl⟩
      show fault.exitCode.toNat = 1
      rw [exitCode_of_contentsOf hcontents]
      rfl
  | ok contents =>
      rw [ok_bind]
      dsimp only
      rw [Verdict.ofContents]
      cases Record.decode contents with
      | error e =>
          let v := if e.isUnsupported then Verdict.newer else .damaged
          refine ⟨?_, ?_⟩
          · show (Fault.ofDecodeError e).exitCode.toNat = v.code
            rw [exitCode_ofDecodeError]
            dsimp only [v]
            split <;> rfl
          · show "" = (v.line? file).getD ""
            dsimp only [v]
            split <;> rfl
      | ok r =>
          rw [mapError_ok, ok_bind]
          dsimp only
          cases r.status <;> exact ⟨rfl, rfl⟩

/-- A file passes exactly when its contents are a record whose checksum is not
another one's. -/
theorem code_verdict_eq_zero_iff (file : Path) :
    (verdict fs s limit file).code = 0 ↔ ∃ contents r, Readable fs s limit file contents ∧
      Record.decode contents = .ok r ∧ r.status.isOk := by
  rw [Verdict.code_eq_zero_iff]
  constructor
  · rintro ⟨checked, hverdict⟩
    rw [verdict] at hverdict
    split at hverdict
    · next contents hcontents =>
        rw [Verdict.ofContents] at hverdict
        split at hverdict
        · next e _ => cases hu : e.isUnsupported <;> simp [hu] at hverdict
        · next r hdecode =>
            refine ⟨contents, r, contentsOf_eq_ok_iff.mp hcontents, hdecode, ?_⟩
            cases hstatus : r.status with
            | absent | valid => rfl
            | mismatch => simp [hstatus] at hverdict
    · exact nomatch hverdict
  · rintro ⟨contents, r, hreadable, hdecode, hok⟩
    simp only [verdict, contentsOf_eq_ok_iff.mpr hreadable, Verdict.ofContents, hdecode]
    cases hstatus : r.status with
    | absent | valid => exact ⟨_, rfl⟩
    | mismatch => simp [hstatus, Checksum.Status.isOk] at hok

/-- What is said of a file that fails. -/
def complaint? (fs : System (StateM σ)) (s : σ) (limit : Nat) (file : Path) : Option String :=
  match verified fs s limit file with
  | .ok _ => none
  | .error fault => some (Report.faultLine file fault)

/-! ## Verifying several files -/

section Command

theorem run_verifyCommand (hfs : Steady fs) (config : Config) (maxRecordSize : Option Nat)
    (files : List Path) (s : σ) :
    (runCommand fs config maxRecordSize (.verify files)).run s =
      (.all (files.map (verifiedReport fs s (maxRecordSize.getD config.maxRecordSize))), s) := by
  let settings : Settings :=
    ⟨config.ndjson, config.includeInline, maxRecordSize.getD config.maxRecordSize⟩
  have hrun := run_onFiles (fun file => run_verifyAction hfs settings file s) .empty files
  rw [Report.empty_append] at hrun
  exact hrun

theorem err_verifiedReport (file : Path) :
    (verifiedReport fs s limit file).err = (complaint? fs s limit file).getD "" := by
  rw [verifiedReport, complaint?]
  cases verified fs s limit file <;> rfl

theorem foldr_max_eq_zero_iff (codes : List Nat) :
    codes.foldr max 0 = 0 ↔ ∀ code ∈ codes, code = 0 := by
  induction codes with
  | nil => simp
  | cons code codes ih =>
      rw [List.foldr_cons, List.forall_mem_cons, Nat.max_eq_zero_iff, ih]

/-- **Verifying reports on every file, and its exit code is the largest that any
file asks for.**  Files that pass have their lines in the order in which the files
are given, and so have the complaints about those that fail.  The exit code is 0
exactly when every file can be read and is a record whose checksum is in order or
missing; the order of the files does not matter to it. -/
theorem verify_reports (hfs : Steady fs) (s : σ) (config : Config) (maxRecordSize : Option Nat)
    (files : List Path) :
    let limit := maxRecordSize.getD config.maxRecordSize
    ∃ report, (runCommand fs config maxRecordSize (.verify files)).run s = (report, s) ∧
      report.out = String.join (files.filterMap fun file =>
        (verdict fs s limit file).line? file) ∧
      report.err = String.join (files.filterMap (complaint? fs s limit)) ∧
      report.status.toNat = (files.map fun file => (verdict fs s limit file).code).foldr max 0 ∧
      (report.status = 0 ↔ ∀ file ∈ files, ∃ contents r,
        Readable fs s limit file contents ∧ Record.decode contents = .ok r ∧ r.status.isOk) ∧
      ∀ others, files.Perm others →
        ((runCommand fs config maxRecordSize (.verify others)).run s).1.status = report.status := by
  intro limit
  have hrun (files : List Path) := run_verifyCommand hfs config maxRecordSize files s
  have hstatus (files : List Path) :
      (Report.all (files.map (verifiedReport fs s limit))).status.toNat =
        (files.map fun file => (verdict fs s limit file).code).foldr max 0 := by
    rw [Report.status_all, List.map_map]
    congr 2
    funext file
    exact (verifiedReport_verdict file).1
  refine ⟨_, hrun files, ?_, ?_, hstatus files, ?_, fun others hperm => ?_⟩
  · rw [Report.out_all, List.map_map, ← join_map_getD]
    congr 2
    funext file
    exact (verifiedReport_verdict file).2
  · rw [Report.err_all, List.map_map, ← join_map_getD]
    congr 2
    funext file
    exact err_verifiedReport file
  · rw [← UInt8.toNat_inj, hstatus, UInt8.toNat_zero, foldr_max_eq_zero_iff, List.forall_mem_map]
    simp only [code_verdict_eq_zero_iff]
  · rw [hrun others, ← UInt8.toNat_inj, hstatus, hstatus]
    exact ((hperm.map _).foldr_eq 0).symm

/-- A disk with a record of no versions, one without its checksum, one with a wrong
one, one of which only the opening is left, and one of a newer revision. -/
def mixedDisk : Disk :=
  let blob := MessagePack.Write.bin Version.Index.empty.encode
  let opening := FormatVersion.current.bytes
  ⟨[(["whole"], .file Record.Draft.empty.bytes), (["plain"], .file (opening ++ blob)),
    (["wrong"], .file (opening ++ blob ++ MessagePack.Write.uint 0)),
    (["cut"], .file opening), (["new"], .file (FormatVersion.bytes ⟨2, 0⟩ ++ [0xc0]))]⟩

/-- Files behind those that fail are verified all the same.  A record with a wrong
checksum is decoded, and it asks for the exit code 2. -/
theorem verify_reports_mixed :
    let files : List Path := [⟨"plain"⟩, ⟨"cut"⟩, ⟨"wrong"⟩, ⟨"gone"⟩, ⟨"new"⟩, ⟨"whole"⟩]
    let blob := Version.Index.empty.encode
    ∃ report, (runCommand Disk.system {} none (.verify files)).run mixedDisk = (report, mixedDisk) ∧
      report.out = "plain: ok (no checksum)\nwhole: ok\n" ∧ report.status = 3 ∧
      ((runCommand Disk.system {} none (.verify files.reverse)).run mixedDisk).1.status = 3 ∧
      ∃ contents r damage, Readable Disk.system mixedDisk 16777216 ⟨"wrong"⟩ contents ∧
        Record.decode contents = .ok r ∧ r.status = .mismatch 0 (Checksum.ofBlob blob) ∧
        (runCommand Disk.system {} none (.verify [⟨"wrong"⟩, ⟨"whole"⟩])).run mixedDisk =
          (damage, mixedDisk) ∧
        damage.out = "whole: ok\n" ∧ damage.status = 2 := by
  intro files blob
  have hplain : verdict Disk.system mixedDisk 16777216 ⟨"plain"⟩ = .passed false := by
    decide +kernel
  have hcut : verdict Disk.system mixedDisk 16777216 ⟨"cut"⟩ = .damaged := by decide +kernel
  have hwrong : verdict Disk.system mixedDisk 16777216 ⟨"wrong"⟩ = .damaged := by decide +kernel
  have hgone : verdict Disk.system mixedDisk 16777216 ⟨"gone"⟩ = .unread := by decide +kernel
  have hnew : verdict Disk.system mixedDisk 16777216 ⟨"new"⟩ = .newer := by decide +kernel
  have hwhole : verdict Disk.system mixedDisk 16777216 ⟨"whole"⟩ = .passed true := by
    decide +kernel
  obtain ⟨report, hrun, hout, -, hstatus, -, hperm⟩ :=
    verify_reports Disk.steady mixedDisk {} none files
  obtain ⟨damage, hrun', hout', -, hstatus', -, -⟩ :=
    verify_reports Disk.steady mixedDisk {} none [⟨"wrong"⟩, ⟨"whole"⟩]
  simp only [files, Option.getD_none, List.filterMap_cons, List.filterMap_nil, List.map_cons,
    List.map_nil, hplain, hcut, hwrong, hgone, hnew, hwhole] at hout hstatus hout' hstatus'
  have hcode : report.status = 3 := UInt8.toNat_inj.mp hstatus
  refine ⟨report, hrun, hout, hcode, ?_, _, ⟨.current, .multi .empty blob (some 0) .empty⟩, damage,
    Disk.readable_iff.mpr ⟨rfl, by decide⟩, by decide +kernel, ?_, hrun', hout',
    UInt8.toNat_inj.mp hstatus'⟩
  · rw [← hcode]
    exact hperm _ files.reverse_perm.symm
  · exact Checksum.Status.check_eq_mismatch_iff.mpr ⟨rfl, rfl, by decide +kernel⟩

end Command

end MetaRecord.Tool

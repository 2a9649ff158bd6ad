/-
# `MetaRecord.Proofs.Tool.Inspection` — what inspecting a file prints

The text of a document is made once the file has been read and decoded and every
value in it rendered, so a file that cannot be inspected leaves no output.  One
that can leaves a text that stands for the document, with the file named in it,
and a line break.  A compact text has no line break of its own, so with compact
documents every line is one document.

Main statements: `run_inspect` and `inspect_prints`, and `run_inspectCommand` for
several files.
-/
import MetaRecord.Proofs.Document.Proper
import MetaRecord.Proofs.Json.Visible
import MetaRecord.Proofs.Tool.Verification

namespace MetaRecord.Tool

open Files (Disk Path Steady System)
open Json.Grammar (Denotes)

variable {σ : Type} {fs : System (StateM σ)} {s : σ} {settings : Settings} {file : Path}

/-! ## Documents of files -/

/-- The file can be read, its contents are a record, and this is its document. -/
def Documented (fs : System (StateM σ)) (s : σ) (settings : Settings) (file : Path)
    (document : Json) : Prop :=
  ∃ contents r, Readable fs s settings.maxRecordSize file contents ∧
    Record.decode contents = .ok r ∧
    Document.record r settings.includeInline = .ok document

/-- The text for a file, or what keeps a command from it. -/
def inspected (fs : System (StateM σ)) (s : σ) (settings : Settings) (file : Path) :
    Except Fault String := do
  let r ← loaded fs s settings.maxRecordSize file
  let document ← (Document.record r settings.includeInline).mapError .ofDecodeError
  return documentText settings file document

theorem run_inspect (hfs : Steady fs) (settings : Settings) (file : Path) (s : σ) :
    (inspect fs settings file).run.run s = (inspected fs s settings file, s) := by
  refine run_loadRecord_bind hfs fun r => ?_
  cases Document.record r settings.includeInline <;> rfl

theorem inspected_eq_ok_iff {text : String} :
    inspected fs s settings file = .ok text ↔
      ∃ document, Documented fs s settings file document ∧
        text = documentText settings file document := by
  rw [inspected, bind_eq_ok]
  constructor
  · rintro ⟨r, hloaded, h⟩
    obtain ⟨contents, hreadable, hdecode⟩ := loaded_eq_ok_iff.mp hloaded
    obtain ⟨document, hdocument, htext⟩ := bind_eq_ok.mp h
    exact ⟨document, ⟨contents, r, hreadable, hdecode, mapError_eq_ok.mp hdocument⟩,
      (Except.ok.inj htext).symm⟩
  · rintro ⟨document, ⟨contents, r, hreadable, hdecode, hdocument⟩, rfl⟩
    exact ⟨r, loaded_eq_ok_iff.mpr ⟨contents, hreadable, hdecode⟩,
      bind_eq_ok.mpr ⟨document, mapError_eq_ok.mpr hdocument, rfl⟩⟩

theorem exists_documented_iff :
    (∃ document, Documented fs s settings file document) ↔
      (inspected fs s settings file).isOk := by
  constructor
  · rintro ⟨document, hdocument⟩
    rw [inspected_eq_ok_iff.mpr ⟨document, hdocument, rfl⟩]
    rfl
  · intro hok
    cases h : inspected fs s settings file with
    | error fault => rw [h] at hok; exact nomatch hok
    | ok text =>
        obtain ⟨document, hdocument, -⟩ := inspected_eq_ok_iff.mp h
        exact ⟨document, hdocument⟩

theorem Documented.proper {document : Json} (h : Documented fs s settings file document) :
    Json.Proper document := by
  obtain ⟨_, _, -, -, hdocument⟩ := h
  exact Document.proper_record hdocument

/-! ## Texts of documents -/

/-- `named` is the document with its file named in it, and otherwise the same. -/
structure Names (file : Path) (document named : Json) : Prop where
  file : named.member? "File" = some (.str file.text)
  others (name : String) : name ≠ "File" → named.member? name = document.member? name

/-- What is printed of a document before the line break. -/
structure Prints (settings : Settings) (file : Path) (document : Json) (text : String) : Prop where
  value : ∃ named, Names file document named ∧ ∀ v, Denotes text v ↔ v = named
  one_line : settings.ndjson → (10 : UInt8) ∉ Text.utf8 text

theorem Documented.names {document : Json} (h : Documented fs s settings file document) :
    Names file document (document.setMember "File" (.str file.text)) := by
  obtain ⟨_, _, -, -, hdocument⟩ := h
  obtain ⟨body, -, rfl⟩ := Document.record_eq_ok_iff.mp hdocument
  exact ⟨Json.Members.find?_insert_self .., fun name hname =>
    Json.Members.find?_insert_of_ne _ _ hname⟩

/-- Either layout is a text of the value. -/
theorem denotes_layout {v : Json} (h : Json.Proper v) (ndjson : Bool) :
    Denotes (if ndjson then v.compact else v.pretty) v := by
  cases ndjson with
  | false => exact Json.Grammar.denotes_pretty h
  | true => exact Json.Grammar.denotes_compact h

theorem Documented.prints {document : Json} (h : Documented fs s settings file document) :
    ∃ text, documentText settings file document = text ++ "\n" ∧
      Prints settings file document text := by
  refine ⟨_, rfl, ⟨_, h.names, fun v => ?_⟩, fun hndjson => ?_⟩
  · have hdenotes := denotes_layout (h.proper.setMember "File" (.str file.text)) settings.ndjson
    exact ⟨fun hv => hv.unique hdenotes, fun hv => hv ▸ hdenotes⟩
  · rw [if_pos hndjson]
    exact Json.not_mem_utf8_compact _ (by decide)

/-! ## Reports -/

theorem Fault.exitCode_ne_zero (fault : Fault) : fault.exitCode ≠ 0 := by
  unfold Fault.exitCode
  split <;> decide

/-- **Inspecting prints a document and a line break, or nothing.**  The text
stands for the document with the file named in it, and for no other value; if
documents are compact, it has no line break of its own. -/
theorem inspect_prints (hfs : Steady fs) (s : σ) (settings : Settings) (file : Path) :
    ∃ report, (onFile (inspect fs settings) file).run s = (report, s) ∧
      ((¬ ∃ document, Documented fs s settings file document) →
        report.out = "" ∧ report.status ≠ 0) ∧
      ∀ document, Documented fs s settings file document →
        report.status = 0 ∧ report.err = "" ∧
          ∃ text, report.out = text ++ "\n" ∧ Prints settings file document text := by
  refine ⟨.ofOutcome file (inspected fs s settings file), ?_, fun hnone => ?_,
    fun document hdocument => ?_⟩
  · have hrun := run_inspect hfs settings file s
    show (Report.ofOutcome file ((inspect fs settings file).run.run s).1,
      ((inspect fs settings file).run.run s).2) = _
    rw [hrun]
  · rw [exists_documented_iff] at hnone
    cases h : inspected fs s settings file with
    | error fault => exact ⟨rfl, fault.exitCode_ne_zero⟩
    | ok text =>
        rw [h] at hnone
        exact absurd rfl hnone
  · rw [inspected_eq_ok_iff.mpr ⟨document, hdocument, rfl⟩]
    exact ⟨rfl, rfl, hdocument.prints⟩

/-- A disk with a record in a file whose name has a line break in it, and with no
record in another file.  The key of the record's one inline value has a line break
too. -/
def brokenLines : Disk :=
  let store : Inline.Store := .ofEntries [("in\nline", [1])]
  ⟨[(["re\ncord"], .file (Record.Draft.empty.setStore store).bytes), (["empty"], .file [])]⟩

/-- The line breaks do not get into the output. -/
theorem inspect_prints_brokenLines :
    let settings : Settings := ⟨true, true, 4096⟩
    let out (file : Path) := ((onFile (inspect Disk.system settings) file).run brokenLines).1.out
    (∃ text, out ⟨"re\ncord"⟩ = text ++ "\n" ∧ (10 : UInt8) ∉ Text.utf8 text) ∧
      out ⟨"empty"⟩ = "" := by
  intro settings out
  constructor
  · obtain ⟨report, hrun, -, hprints⟩ :=
      inspect_prints Disk.steady brokenLines settings ⟨"re\ncord"⟩
    have hdocumented : ∃ document,
        Documented Disk.system brokenLines settings ⟨"re\ncord"⟩ document := by
      rw [exists_documented_iff]
      decide +kernel
    obtain ⟨document, hdocument⟩ := hdocumented
    obtain ⟨-, -, text, hout, htext⟩ := hprints document hdocument
    refine ⟨text, ?_, htext.one_line rfl⟩
    rw [← hout]
    exact congrArg (·.1.out) hrun
  · obtain ⟨report, hrun, hnothing, -⟩ :=
      inspect_prints Disk.steady brokenLines settings ⟨"empty"⟩
    have hnone : ¬ ∃ document,
        Documented Disk.system brokenLines settings ⟨"empty"⟩ document := by
      rw [exists_documented_iff]
      decide +kernel
    rw [← (hnothing hnone).1]
    exact congrArg (·.1.out) hrun

/-! ## Several files -/

/-- The settings that an inspecting command works under. -/
def inspectSettings (config : Config) (maxRecordSize : Option Nat) (ndjson noData : Bool) :
    Settings where
  ndjson := config.ndjson || ndjson
  includeInline := config.includeInline && !noData
  maxRecordSize := maxRecordSize.getD config.maxRecordSize

/-- The documents of several files follow one another; files that have none are
left out. -/
theorem run_inspectCommand (hfs : Steady fs) (config : Config) (maxRecordSize : Option Nat)
    (files : List Path) (ndjson noData : Bool) :
    let settings := inspectSettings config maxRecordSize ndjson noData
    ((runCommand fs config maxRecordSize (.inspect files ndjson noData)).run s).1.out =
      String.join (files.filterMap fun file => (inspected fs s settings file).toOption) := by
  intro settings
  have hrun := run_onFiles (fun file => run_inspect hfs settings file s) .empty files
  rw [Report.empty_append] at hrun
  show ((onFiles (inspect fs settings) .empty files).run s).1.out = _
  rw [hrun, Report.out_all, List.map_map, ← join_map_getD]
  congr 2
  funext file
  show (Report.ofOutcome file (inspected fs s settings file)).out = _
  cases inspected fs s settings file <;> rfl

end MetaRecord.Tool

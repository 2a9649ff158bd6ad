/-
# `MetaRecord.Proofs.Tool.Names` — where exported values can go

A key may be any text, and an export must not let it lead out of the export
directory.  It does not: a file name is one piece of plain characters that
neither stays in a directory nor goes back, and so is its staging name.  Both
are therefore entries of the export directory itself, however that directory
is written, and `EntryOf` says so of a path: of what it goes through, and of
the place that it leads to on a disk.

Staging names are as distinct as the names they are made from, and longer.

Main statements: `entryOf_join` and `entryOf_staging`; `fileName_confined`.
-/
import MetaRecord.Proofs.Tool.Delivery

namespace MetaRecord.Tool

open Files (Disk Path)

/-! ## Entries of a directory -/

/-- The path goes where `dir` goes and then to the entry `name` of that
directory.  Wherever it leads on a disk, it leads there. -/
structure EntryOf (dir : Path) (name : String) (p : Path) : Prop where
  route : p.route = (dir.isAbsolute, dir.names ++ [name])
  place (d : Disk) (place : Files.Location) : d.resolve p = .ok place →
    place = Disk.location dir ++ [name] ∧ d.lookup (Disk.location dir) = some .directory

section Entry

variable {dir p : Path} {name : String}

/-- A path can be followed to an entry only through its directory. -/
theorem lookup_of_resolve {d : Disk} {place : Files.Location}
    (h : p.route = (dir.isAbsolute, dir.names ++ [name])) (hresolve : d.resolve p = .ok place) :
    d.lookup (Disk.location dir) = some .directory := by
  obtain ⟨habs, hnames⟩ := Prod.mk.inj h
  obtain ⟨-, -, hfollow⟩ := bind_eq_ok.mp hresolve
  rw [hnames, List.foldlM_append] at hfollow
  obtain ⟨parent, hparent, hlast⟩ := bind_eq_ok.mp hfollow
  have hstart : Disk.start p = Disk.start dir := by rw [Disk.start, Disk.start, habs]
  obtain rfl : parent = Disk.location dir := by
    rw [Disk.foldlM_enter_eq_ok hparent, hstart]
    rfl
  rw [List.foldlM_cons] at hlast
  obtain ⟨_, henter, -⟩ := bind_eq_ok.mp hlast
  exact (Disk.lookup_of_enter henter).1

theorem EntryOf.of_route (h : p.route = (dir.isAbsolute, dir.names ++ [name]))
    (hname : Path.IsEntry name) : EntryOf dir name p where
  route := h
  place d place hresolve := by
    refine ⟨?_, lookup_of_resolve h hresolve⟩
    rw [Disk.resolve_eq_ok hresolve, ← Disk.location_join dir hname]
    exact Disk.location_eq (h.trans (Path.route_join dir hname).symm)

end Entry

/-! ## File names and staging names -/

section Names

variable (dir : Path) (key : String) (e : Inline.Entry)

theorem isEntry_fileName : Path.IsEntry (fileName key) := isEntry_of_isSafe (isSafe_fileName key)

theorem isEntry_stagingName : Path.IsEntry (stagingName (fileName key)) :=
  isEntry_of_isSafe (isSafe_stagingName (isSafe_fileName key))

theorem entryOf_join : EntryOf dir (fileName key) (dir.join (fileName key)) :=
  .of_route (Path.route_join dir (isEntry_fileName key)) (isEntry_fileName key)

theorem entryOf_staging :
    EntryOf dir (stagingName (fileName e.1)) (Target.ofEntry dir e).staging :=
  have hname := isEntry_stagingName e.1
  .of_route ((route_staging dir e).trans (Path.route_join dir hname)) hname

theorem location_staging :
    Disk.location (Target.ofEntry dir e).staging =
      Disk.location dir ++ [stagingName (fileName e.1)] := by
  rw [Disk.location_eq (route_staging dir e), Disk.location_join dir (isEntry_stagingName e.1)]

theorem ne_stagingName (name : String) : name ≠ stagingName name := by
  intro h
  have hlength := length_stagingName name
  rw [← h] at hlength
  omega

/-- Two entries are staged at one path, or at one place, only if they have one
file name. -/
theorem staging_eq_iff (a b : Inline.Entry) :
    ((Target.ofEntry dir a).staging = (Target.ofEntry dir b).staging ↔
      fileName a.1 = fileName b.1) ∧
    (Disk.location (Target.ofEntry dir a).staging = Disk.location (Target.ofEntry dir b).staging ↔
      fileName a.1 = fileName b.1) := by
  have hplace : Disk.location (Target.ofEntry dir a).staging =
      Disk.location (Target.ofEntry dir b).staging ↔ fileName a.1 = fileName b.1 := by
    rw [location_staging, location_staging, List.append_cancel_left_eq, List.singleton_inj,
      stagingName_inj]
  refine ⟨⟨fun h => hplace.mp (by rw [h]), fun h => ?_⟩, hplace⟩
  simp only [Target.ofEntry, h]

end Names

/-- An ASCII letter or digit, a dash, an underscore or a dot. -/
def isPlain (c : Char) : Bool :=
  ('a' ≤ c && c ≤ 'z') || ('A' ≤ c && c ≤ 'Z') || ('0' ≤ c && c ≤ '9') ||
    c = '-' || c = '_' || c = '.'

/-- The characters that file names keep are the plain ones. -/
theorem isNameChar_eq (c : Char) : isNameChar c = isPlain c := by
  have hletter : c.isAlphanum =
      ((decide ('A' ≤ c ∧ c ≤ 'Z') || ('a' ≤ c && c ≤ 'z')) || ('0' ≤ c && c ≤ '9')) := rfl
  rw [isNameChar, isPlain, hletter, Bool.decide_and, Bool.or_comm (decide _ && _)]

/-- **A key cannot lead out of the export directory.**  Its file name is a name,
made of plain characters, that stands for itself and for no directory, and in the
export directory it is an entry of that directory; so is its staging name, which
is another name.  Values are staged at one path, and at one place, exactly when
their file names are the same. -/
theorem fileName_confined (dir : Path) :
    (∀ key, fileName key ≠ "" ∧ (fileName key).toList.all isPlain ∧
      fileName key ≠ "." ∧ fileName key ≠ ".." ∧ fileName (fileName key) = fileName key ∧
      EntryOf dir (fileName key) (dir.join (fileName key))) ∧
    (∀ e : Inline.Entry, fileName e.1 ≠ stagingName (fileName e.1) ∧
      EntryOf dir (fileName e.1) (Target.ofEntry dir e).path ∧
      EntryOf dir (stagingName (fileName e.1)) (Target.ofEntry dir e).staging) ∧
    ∀ a b : Inline.Entry,
      ((Target.ofEntry dir a).staging = (Target.ofEntry dir b).staging ↔
        fileName a.1 = fileName b.1) ∧
      (Disk.location (Target.ofEntry dir a).staging =
        Disk.location (Target.ofEntry dir b).staging ↔ fileName a.1 = fileName b.1) := by
  refine ⟨fun key => ?_, fun e => ?_, staging_eq_iff dir⟩
  · have hsafe := isSafe_fileName key
    have hname := fileName_of_isSafe hsafe
    simp only [isSafe, Bool.and_eq_true, decide_eq_true_eq] at hsafe
    obtain ⟨⟨⟨hall, hempty⟩, hdot⟩, hback⟩ := hsafe
    rw [funext isNameChar_eq] at hall
    exact ⟨hempty, hall, hdot, hback, hname, entryOf_join dir key⟩
  · exact ⟨ne_stagingName _, entryOf_join dir e.1, entryOf_staging dir e⟩

example : fileName "../etc/passwd" = ".._etc_passwd" ∧ fileName ".." = "__" := by decide

end MetaRecord.Tool

/-
# `MetaRecord.Proofs.Tool.Delivery` — when exported values arrive

An export that succeeds has gone through two loops.  The first writes every
value under a staging name, the second moves the staged files onto their
targets in stored order.  Targets are distinct and staging names are distinct,
but a target may be the staging name of another one: the file name of a key is
free to look like one.  If it is moved into place before that other one, it
overwrites a staged value, and is then itself moved away.

So every value arrives exactly when no target is the staging name of a later
one.  `stage_holds` says what the first loop leaves behind, `place_delivers`
and `place_loses` what the second one does to one target.

Main statement: `exportInline_delivers_iff`.
-/
import MetaRecord.Proofs.Files.Lawful
import MetaRecord.Tool.Export

namespace MetaRecord.Tool

open Files (IoError Lawful Node Path System)

/-! ## Names -/

section Names

variable {name : String}

theorem isEntry_of_isSafe (h : isSafe name) : Path.IsEntry name := by
  simp only [isSafe, Bool.and_eq_true, decide_eq_true_eq, List.all_eq_true] at h
  obtain ⟨⟨⟨hall, hempty⟩, hdot⟩, hback⟩ := h
  exact {
    single := fun hslash => absurd (hall '/' hslash) (by decide)
    moves := by simp [Path.isIdle, hempty, hdot]
    deeper := hback }

theorem toList_stagingName (name : String) :
    (stagingName name).toList = '.' :: (name.toList ++ ".xlmeta-tmp".toList) := by
  simp [stagingName]

theorem length_stagingName (name : String) :
    (stagingName name).toList.length = name.toList.length + 12 := by
  rw [toList_stagingName, List.length_cons, List.length_append]
  rfl

theorem isSafe_stagingName (h : isSafe name) : isSafe (stagingName name) := by
  simp only [isSafe, Bool.and_eq_true, decide_eq_true_eq] at h ⊢
  have hne : ∀ other : String, other.toList.length < 12 → stagingName name ≠ other := by
    rintro other hother rfl
    rw [length_stagingName] at hother
    omega
  refine ⟨⟨⟨?_, hne "" (by decide)⟩, hne "." (by decide)⟩, hne ".." (by decide)⟩
  rw [toList_stagingName, List.all_cons, List.all_append, h.1.1.1]
  decide

theorem stagingName_inj {a b : String} : stagingName a = stagingName b ↔ a = b := by
  constructor
  · intro h
    have hlist := congrArg String.toList h
    rw [toList_stagingName, toList_stagingName, List.cons.injEq, List.append_cancel_right_eq]
      at hlist
    exact String.toList_inj.mp hlist.2
  · intro h
    rw [h]

end Names

variable {σ Place : Type} [DecidableEq Place] {fs : System (StateM σ)} {spot : Path → Place}
  {node : σ → Place → Option Node} {dir : Path} {overwrite : Bool} {s s' : σ}

/-! ## Steps that succeed -/

section Steps

variable {t : Target} {ts targets done : List Target} {e : Inline.Entry} {es : List Inline.Entry}
  {written paths : List Path}

/-- A plan that goes on after an entry has no target like its target, and
without `overwrite` it has looked at that and seen nothing. -/
theorem plan_cons_eq_ok
    (h : (plan fs dir overwrite done (e :: es)).run.run s = (.ok targets, s')) :
    (∀ t ∈ done, t.path ≠ (Target.ofEntry dir e).path) ∧
      ∃ s₁, (overwrite = false →
          (fs.present (Target.ofEntry dir e).path).run s = (false, s₁)) ∧
        (plan fs dir overwrite (Target.ofEntry dir e :: done) es).run.run s₁
          = (.ok targets, s') := by
  rw [plan] at h
  dsimp only at h
  split at h
  · obtain ⟨_, _, hthrow, -⟩ := run_bind_eq_ok.mp h
    exact absurd hthrow run_throw_ne_ok
  · next hdistinct =>
      refine ⟨by simpa using hdistinct, ?_⟩
      split at h
      · obtain ⟨present, s₁, hpresent, h⟩ := run_bind_eq_ok.mp h
        rw [run_lift_eq_ok] at hpresent
        split at h
        · obtain ⟨_, _, hthrow, -⟩ := run_bind_eq_ok.mp h
          exact absurd hthrow run_throw_ne_ok
        · next habsent =>
            rw [Bool.not_eq_true] at habsent
            rw [habsent] at hpresent
            exact ⟨s₁, fun _ => hpresent, h⟩
      · next hover => exact ⟨s, fun hno => absurd (congrArg (!·) hno) hover, h⟩

theorem stage_cons_eq_ok (h : (stage fs done (t :: ts)).run.run s = (.ok (), s')) :
    ∃ s₁, (fs.write t.staging t.value).run s = (.ok (), s₁) ∧
      (stage fs (t :: done) ts).run.run s₁ = (.ok (), s') := by
  rw [stage] at h
  obtain ⟨outcome, s₁, hwrite, h⟩ := run_bind_eq_ok.mp h
  rw [run_lift_eq_ok] at hwrite
  split at h
  · exact ⟨s₁, hwrite, h⟩
  · obtain ⟨_, _, -, hthrow⟩ := run_bind_eq_ok.mp h
    exact absurd hthrow run_throw_ne_ok

theorem place_cons_eq_ok (h : (place fs written (t :: ts)).run.run s = (.ok paths, s')) :
    ∃ s₁, (fs.rename t.staging t.path).run s = (.ok (), s₁) ∧
      (place fs (t.path :: written) ts).run.run s₁ = (.ok paths, s') := by
  rw [place] at h
  obtain ⟨outcome, s₁, hrename, h⟩ := run_bind_eq_ok.mp h
  rw [run_lift_eq_ok] at hrename
  split at h
  · exact ⟨s₁, hrename, h⟩
  · obtain ⟨_, _, -, hthrow⟩ := run_bind_eq_ok.mp h
    exact absurd hthrow run_throw_ne_ok

/-- The targets of a plan are those of the entries, with distinct names. -/
theorem plan_eq_ok (h : (plan fs dir overwrite done es).run.run s = (.ok targets, s')) :
    targets = done.reverse ++ es.map (Target.ofEntry dir) ∧
      (es.map fun e => fileName e.1).Nodup ∧
      ∀ e ∈ es, ∀ t ∈ done, t.path ≠ (Target.ofEntry dir e).path := by
  induction es generalizing done s with
  | nil =>
      rw [plan, run_pure_eq_ok] at h
      exact ⟨by simp [h.1], List.nodup_nil, fun _ he => absurd he List.not_mem_nil⟩
  | cons e es ih =>
      obtain ⟨hdistinct, s₁, -, hrest⟩ := plan_cons_eq_ok h
      obtain ⟨rfl, hnodup, hlater⟩ := ih hrest
      refine ⟨by simp, ?_, ?_⟩
      · rw [List.map_cons, List.nodup_cons]
        refine ⟨?_, hnodup⟩
        intro hmem
        -- an entry of the same name would have been refused at its turn
        obtain ⟨other, hother, hname⟩ := List.mem_map.mp hmem
        exact hlater other hother _ List.mem_cons_self (congrArg dir.join hname.symm)
      · intro other hother t ht
        rcases List.mem_cons.mp hother with rfl | hother
        · exact hdistinct t ht
        · exact hlater other hother t (List.mem_cons_of_mem _ ht)

end Steps

/-! ## Places -/

/-- A target is staged in its own directory. -/
theorem route_staging (dir : Path) (e : Inline.Entry) :
    (Target.ofEntry dir e).staging.route = (dir.join (stagingName (fileName e.1))).route := by
  have hname := isEntry_of_isSafe (isSafe_fileName e.1)
  have hstaging := isEntry_of_isSafe (isSafe_stagingName (isSafe_fileName e.1))
  obtain ⟨habs, hnames⟩ := Prod.mk.inj (Path.route_join dir hname)
  show ((dir.join (fileName e.1)).withName _).route = _
  rw [Path.route_withName _ hstaging, Path.route_join dir hstaging, habs, hnames,
    List.dropLast_concat]

theorem spot_staging (hfs : Lawful fs spot node) (dir : Path) (e : Inline.Entry) :
    spot (Target.ofEntry dir e).staging = spot (dir.join (stagingName (fileName e.1))) :=
  hfs.place_eq (route_staging dir e)

theorem spot_join_inj (hfs : Lawful fs spot node) {a b : String} (ha : isSafe a) (hb : isSafe b) :
    spot (dir.join a) = spot (dir.join b) ↔ a = b :=
  ⟨hfs.place_join (isEntry_of_isSafe ha) (isEntry_of_isSafe hb), fun h => by rw [h]⟩

/-- Two targets neither go to one place nor are staged in one. -/
def Apart (spot : Path → Place) (a b : Target) : Prop :=
  spot a.path ≠ spot b.path ∧ spot a.staging ≠ spot b.staging

theorem apart_of_nodup (hfs : Lawful fs spot node) (dir : Path) {es : List Inline.Entry}
    (h : (es.map fun e => fileName e.1).Nodup) :
    (es.map (Target.ofEntry dir)).Pairwise (Apart spot) := by
  rw [List.Nodup, List.pairwise_map] at h
  rw [List.pairwise_map]
  refine h.imp ?_
  intro a b hname
  constructor
  · intro hpath
    exact hname ((spot_join_inj hfs (isSafe_fileName a.1) (isSafe_fileName b.1)).mp hpath)
  · intro hstaging
    rw [spot_staging hfs, spot_staging hfs, spot_join_inj hfs
      (isSafe_stagingName (isSafe_fileName a.1)) (isSafe_stagingName (isSafe_fileName b.1)),
      stagingName_inj] at hstaging
    exact hname hstaging

/-- A target is in the place where another is staged if its name is that one's
staging name. -/
theorem spot_path_eq_staging_iff (hfs : Lawful fs spot node) (dir : Path) (a b : Inline.Entry) :
    spot (Target.ofEntry dir a).path = spot (Target.ofEntry dir b).staging
      ↔ fileName a.1 = stagingName (fileName b.1) := by
  rw [spot_staging hfs]
  exact spot_join_inj hfs (isSafe_fileName a.1) (isSafe_stagingName (isSafe_fileName b.1))

/-! ## Both loops -/

section Loops

variable {t : Target} {ts : List Target} {done : List Target} {written paths : List Path}
  {x : Place}

/-- Staging touches no place but the staging names'. -/
theorem stage_frame (hfs : Lawful fs spot node)
    (h : (stage fs done ts).run.run s = (.ok (), s')) (hx : ∀ t ∈ ts, x ≠ spot t.staging) :
    node s' x = node s x := by
  induction ts generalizing done s with
  | nil =>
      rw [stage, run_pure_eq_ok] at h
      rw [h.2]
  | cons t ts ih =>
      obtain ⟨s₁, hwrite, hrest⟩ := stage_cons_eq_ok h
      have hlater : ∀ t' ∈ ts, x ≠ spot t'.staging := by
        intro t' ht'
        exact hx t' (List.mem_cons_of_mem _ ht')
      rw [ih hrest hlater, hfs.write_ok hwrite, Function.update_of_ne (hx t List.mem_cons_self)]

/-- Staging leaves every value under its staging name. -/
theorem stage_holds (hfs : Lawful fs spot node)
    (h : (stage fs done ts).run.run s = (.ok (), s')) (hapart : ts.Pairwise (Apart spot)) :
    ∀ t ∈ ts, node s' (spot t.staging) = some (.file t.value) := by
  induction ts generalizing done s with
  | nil =>
      intro t ht
      exact absurd ht List.not_mem_nil
  | cons first ts ih =>
      obtain ⟨s₁, hwrite, hrest⟩ := stage_cons_eq_ok h
      obtain ⟨hfirst, hapart⟩ := List.pairwise_cons.mp hapart
      intro t ht
      rcases List.mem_cons.mp ht with rfl | ht
      · have hlater : ∀ t' ∈ ts, spot t.staging ≠ spot t'.staging := by
          intro t' ht'
          exact (hfirst t' ht').2
        rw [stage_frame hfs hrest hlater, hfs.write_ok hwrite, Function.update_self]
      · exact ih hrest hapart t ht

theorem place_paths (h : (place fs written ts).run.run s = (.ok paths, s')) :
    paths = written.reverse ++ ts.map Target.path := by
  induction ts generalizing written s with
  | nil =>
      rw [place, run_pure_eq_ok] at h
      simp [h.1]
  | cons t ts ih =>
      obtain ⟨s₁, -, hrest⟩ := place_cons_eq_ok h
      rw [ih hrest]
      simp

/-- Renaming touches no place but those it renames from and to. -/
theorem place_frame (hfs : Lawful fs spot node)
    (h : (place fs written ts).run.run s = (.ok paths, s'))
    (hpath : ∀ t ∈ ts, x ≠ spot t.path) (hstaging : ∀ t ∈ ts, x ≠ spot t.staging) :
    node s' x = node s x := by
  induction ts generalizing written s with
  | nil =>
      rw [place, run_pure_eq_ok] at h
      rw [h.2]
  | cons t ts ih =>
      obtain ⟨s₁, hrename, hrest⟩ := place_cons_eq_ok h
      obtain ⟨contents, -, hnode⟩ := hfs.rename_ok hrename
      rw [List.forall_mem_cons] at hpath hstaging
      rw [ih hrest hpath.2 hstaging.2, hnode, Function.update_of_ne hpath.1,
        Function.update_of_ne hstaging.1]

/-- Targets that are not where a later one is staged receive their values. -/
theorem place_delivers (hfs : Lawful fs spot node)
    (h : (place fs written ts).run.run s = (.ok paths, s')) (hapart : ts.Pairwise (Apart spot))
    (hclear : ts.Pairwise fun a b => spot a.path ≠ spot b.staging)
    (hstaged : ∀ t ∈ ts, node s (spot t.staging) = some (.file t.value)) :
    ∀ t ∈ ts, node s' (spot t.path) = some (.file t.value) := by
  induction ts generalizing written s with
  | nil =>
      intro t ht
      exact absurd ht List.not_mem_nil
  | cons first ts ih =>
      obtain ⟨s₁, hrename, hrest⟩ := place_cons_eq_ok h
      obtain ⟨contents, hsource, hnode⟩ := hfs.rename_ok hrename
      have hcontents : contents = first.value := by
        rw [hstaged first List.mem_cons_self] at hsource
        exact (Node.file.inj (Option.some.inj hsource)).symm
      obtain ⟨hfirst, hapart⟩ := List.pairwise_cons.mp hapart
      obtain ⟨hclearFirst, hclear⟩ := List.pairwise_cons.mp hclear
      -- the move neither takes away nor overwrites what is still staged
      have hstaged₁ : ∀ t ∈ ts, node s₁ (spot t.staging) = some (.file t.value) := by
        intro t ht
        rw [hnode, Function.update_of_ne (hclearFirst t ht).symm,
          Function.update_of_ne (hfirst t ht).2.symm]
        exact hstaged t (List.mem_cons_of_mem _ ht)
      intro t ht
      rcases List.mem_cons.mp ht with rfl | ht
      · have hpath : ∀ t' ∈ ts, spot t.path ≠ spot t'.path := by
          intro t' ht'
          exact (hfirst t' ht').1
        rw [place_frame hfs hrest hpath hclearFirst, hnode, Function.update_self, hcontents]
      · exact ih hrest hapart hclear hstaged₁ t ht

/-- Nothing stays at a staging name that is not a target itself. -/
theorem place_loses (hfs : Lawful fs spot node)
    (h : (place fs written ts).run.run s = (.ok paths, s')) (hapart : ts.Pairwise (Apart spot))
    (ht : t ∈ ts) (hpaths : ∀ t' ∈ ts, spot t.staging ≠ spot t'.path) :
    node s' (spot t.staging) = none := by
  induction ts generalizing written s with
  | nil => exact absurd ht List.not_mem_nil
  | cons first ts ih =>
      obtain ⟨s₁, hrename, hrest⟩ := place_cons_eq_ok h
      obtain ⟨contents, -, hnode⟩ := hfs.rename_ok hrename
      obtain ⟨hfirst, hapart⟩ := List.pairwise_cons.mp hapart
      obtain ⟨hpath, hpathsLater⟩ := List.forall_mem_cons.mp hpaths
      rcases List.mem_cons.mp ht with rfl | ht
      · have hlater : ∀ t' ∈ ts, spot t.staging ≠ spot t'.staging := by
          intro t' ht'
          exact (hfirst t' ht').2
        rw [place_frame hfs hrest hpathsLater hlater, hnode, Function.update_of_ne hpath,
          Function.update_self]
      · exact ih hrest hapart ht hpathsLater

/-- If something is at every target, none of them was where a later one was
staged: it would have been moved away. -/
theorem clear_of_delivered (hfs : Lawful fs spot node)
    (h : (place fs written ts).run.run s = (.ok paths, s')) (hapart : ts.Pairwise (Apart spot))
    (hdelivered : ∀ t ∈ ts, node s' (spot t.path) ≠ none) :
    ts.Pairwise fun a b => spot a.path ≠ spot b.staging := by
  induction ts generalizing written s with
  | nil => exact List.Pairwise.nil
  | cons first ts ih =>
      obtain ⟨s₁, -, hrest⟩ := place_cons_eq_ok h
      obtain ⟨hfirst, hapart⟩ := List.pairwise_cons.mp hapart
      obtain ⟨hthere, hdelivered⟩ := List.forall_mem_cons.mp hdelivered
      refine List.pairwise_cons.mpr ⟨?_, ih hrest hapart hdelivered⟩
      intro later hmem heq
      have hpaths : ∀ t' ∈ ts, spot later.staging ≠ spot t'.path := by
        intro t' ht'
        rw [← heq]
        exact (hfirst t' ht').1
      refine hthere ?_
      rw [heq]
      exact place_loses hfs hrest hapart hmem hpaths

end Loops

/-! ## Exports -/

/-- An export that succeeds for a record with values has planned, staged and
placed the targets of its entries. -/
theorem exportInline_eq_ok {file : Path} {limit : Nat} {record : Record} {store : Inline.Store}
    {s₀ : σ} {written : List Path} (hload : (loadRecord fs file limit).run.run s = (.ok record, s₀))
    (hstore : record.store? = some store) (hne : store.entries ≠ [])
    (h : (exportInline fs file dir overwrite limit).run.run s = (.ok written, s')) :
    (store.entries.map fun e => fileName e.1).Nodup ∧
      ∃ s₁ s₂, (stage fs [] (store.entries.map (Target.ofEntry dir))).run.run s₁ = (.ok (), s₂) ∧
        (place fs [] (store.entries.map (Target.ofEntry dir))).run.run s₂ = (.ok written, s') := by
  rw [exportInline] at h
  obtain ⟨_, _, hload', h⟩ := run_bind_eq_ok.mp h
  obtain ⟨hrecord, rfl⟩ := Prod.mk.inj (hload.symm.trans hload')
  obtain rfl := Except.ok.inj hrecord
  simp only [hstore, Option.map_some, Option.getD_some, List.isEmpty_iff, hne, if_false] at h
  obtain ⟨targets, s₂, hplan, h⟩ := run_bind_eq_ok.mp h
  obtain ⟨-, s₃, -, h⟩ := run_bind_eq_ok.mp h
  obtain ⟨⟨⟩, s₄, hstage, hplace⟩ := run_bind_eq_ok.mp h
  obtain ⟨rfl, hnodup, -⟩ := plan_eq_ok hplan
  exact ⟨hnodup, s₃, s₄, hstage, hplace⟩

/-- **Every value of a successful export arrives exactly when no file name is
the staging name of a later one.**  The files are reported in stored order in
any case.  The file system may fail whenever it likes, and may hold anything
beforehand. -/
theorem exportInline_delivers_iff (hfs : Lawful fs spot node) {file : Path} {limit : Nat}
    {record : Record} {store : Inline.Store} {s₀ : σ} {written : List Path}
    (hload : (loadRecord fs file limit).run.run s = (.ok record, s₀))
    (hstore : record.store? = some store) (hne : store.entries ≠ [])
    (h : (exportInline fs file dir overwrite limit).run.run s = (.ok written, s')) :
    written = store.entries.map (fun e => dir.join (fileName e.1)) ∧
      ((∀ e ∈ store.entries, node s' (spot (dir.join (fileName e.1))) = some (.file e.2)) ↔
        store.entries.Pairwise fun earlier later =>
          fileName earlier.1 ≠ stagingName (fileName later.1)) := by
  obtain ⟨hnodup, s₁, s₂, hstage, hplace⟩ := exportInline_eq_ok hload hstore hne h
  have hapart := apart_of_nodup hfs dir hnodup
  have hpaths := place_paths hplace
  rw [List.reverse_nil, List.nil_append, List.map_map] at hpaths
  have hclear : (store.entries.map (Target.ofEntry dir)).Pairwise
      (fun a b => spot a.path ≠ spot b.staging) ↔
      store.entries.Pairwise fun earlier later =>
        fileName earlier.1 ≠ stagingName (fileName later.1) := by
    rw [List.pairwise_map]
    simp only [ne_eq, spot_path_eq_staging_iff hfs]
  refine ⟨hpaths, ?_⟩
  rw [← hclear]
  constructor
  · intro hdelivered
    refine clear_of_delivered hfs hplace hapart ?_
    rw [List.forall_mem_map]
    intro e he
    show node s' (spot (dir.join (fileName e.1))) ≠ none
    rw [hdelivered e he]
    exact Option.some_ne_none _
  · intro hclear e he
    exact place_delivers hfs hplace hapart hclear (stage_holds hfs hstage hapart) _
      (List.mem_map.mpr ⟨e, he, rfl⟩)

/-- A disk with one file, a record of the given values. -/
def shelf (es : List Inline.Entry) : Files.Disk :=
  ⟨[(["r"], .file (FormatVersion.bytes ⟨1, 1⟩ ++ MessagePack.Write.bin [] ++
    (Inline.Store.ofEntries es).bytes))]⟩

/-- What exporting the record of a shelf into a new directory comes to. -/
def exportShelf (es : List Inline.Entry) : Except Fault (List Path) × Files.Disk :=
  (exportInline Files.Disk.system ⟨"r"⟩ ⟨"out"⟩ false 100).run.run (shelf es)

/-- The record of a shelf. -/
def shelved (es : List Inline.Entry) : Record := ⟨⟨1, 1⟩, .single [] none (.ofEntries es)⟩

/-- A name that is the staging name of an earlier one does no harm. -/
theorem exportInline_delivers_staged_earlier :
    let es := [("a", [0x31]), (".a.xlmeta-tmp", [0x32])]
    (exportShelf es).1.toOption = some [⟨"out/a"⟩, ⟨"out/.a.xlmeta-tmp"⟩] ∧
      (exportShelf es).2.lookup ["out", "a"] = some (.file [0x31]) ∧
      (exportShelf es).2.lookup ["out", ".a.xlmeta-tmp"] = some (.file [0x32]) := by
  intro es
  have hentries : (Inline.Store.ofEntries es).entries = es := by decide +kernel
  have hload : ((loadRecord Files.Disk.system ⟨"r"⟩ 100).run.run (shelf es)).1.toOption
      = some (shelved es) := by decide +kernel
  have hexport : (exportShelf es).1.toOption = some [⟨"out/a"⟩, ⟨"out/.a.xlmeta-tmp"⟩] := by
    decide +kernel
  have hdelivers := (exportInline_delivers_iff Files.Disk.lawful (eq_ok_of_toOption hload) rfl
    (by rw [hentries]; exact List.cons_ne_nil _ _) (eq_ok_of_toOption hexport)).2
  rw [hentries] at hdelivers
  have hall := hdelivers.mpr (by decide +kernel)
  have hfirst := hall ("a", [0x31]) (by simp [es])
  have hsecond := hall (".a.xlmeta-tmp", [0x32]) (by simp [es])
  rw [show Files.Disk.location _ = ["out", "a"] by decide +kernel] at hfirst
  rw [show Files.Disk.location _ = ["out", ".a.xlmeta-tmp"] by decide +kernel] at hsecond
  exact ⟨hexport, hfirst, hsecond⟩

/-- The other way around, the first value is where the second one was, and
nothing is where the first one should be. -/
theorem exportInline_loses_staged_later :
    let es := [(".a.xlmeta-tmp", [0x32]), ("a", [0x31])]
    ((loadRecord Files.Disk.system ⟨"r"⟩ 100).run.run (shelf es)).1.toOption = some (shelved es) ∧
      (Inline.Store.ofEntries es).entries = es ∧
      (exportShelf es).1.toOption = some [⟨"out/.a.xlmeta-tmp"⟩, ⟨"out/a"⟩] ∧
      (exportShelf es).2.lookup ["out", ".a.xlmeta-tmp"] = none ∧
      (exportShelf es).2.lookup ["out", "a"] = some (.file [0x32]) := by
  decide +kernel

end MetaRecord.Tool

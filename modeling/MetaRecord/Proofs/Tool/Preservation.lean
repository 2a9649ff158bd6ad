/-
# `MetaRecord.Proofs.Tool.Preservation` — what an export leaves alone

Without `overwrite`, an export refuses a target at which something stands.  It
does not look at the staging names, which it writes, renames away and removes
again after a failure, so a file that happens to have one of them is lost.  It
also looks at the targets before it makes their directory: where the way to
the directory is missing, nothing is seen, and after it is made a target may
be a file that was there.

No other file is touched, however the export ends.  Each loop keeps a file that
is at none of its places (`keeps_stage`, `keeps_place`, `keeps_discard`), and a
plan that succeeds has looked at every target (`plan_unseen`).

Main statement: `exportInline_keeps`.
-/
import MetaRecord.Proofs.Files.Orderly
import MetaRecord.Proofs.Tool.Delivery

namespace MetaRecord.Tool

open Files (IoError Node Orderly Path System)
open Files.Orderly (Holds)

variable {σ Place : Type} [DecidableEq Place] {fs : System (StateM σ)} {spot : Path → Place}
  {node : σ → Place → Option Node} {file dir : Path} {overwrite : Bool} {limit : Nat} {s s' : σ}

/-! ## Looking -/

section Looking

variable {es : List Inline.Entry} {done targets : List Target} {m : Place → Option Node}

theorem keeps_diskIo {α : Type} {I : σ → Prop} {op : StateM σ (Except IoError α)}
    (hop : Keeps I op) : Keeps I (diskIo op).run := by
  refine Keeps.run_bind (.run_lift hop) fun outcome => ?_
  cases outcome with
  | ok a => exact .run_pure a
  | error cause => exact .run_throw _

/-- Loading a record changes no file. -/
theorem keeps_loadRecord (hfs : Orderly fs spot node) :
    Keeps (fun s => node s = m) (loadRecord fs file limit).run := by
  have hsize : Keeps (fun s => node s = m) (fs.size file) :=
    fun s hs => (hfs.size_node file s).trans hs
  have hread : Keeps (fun s => node s = m) (fs.read file) :=
    fun s hs => (hfs.read_node file s).trans hs
  refine Keeps.run_bind (.run_bind (keeps_diskIo hsize) fun size => ?_) fun bytes => ?_
  · split
    · exact .run_throw_bind _ _
    · exact keeps_diskIo hread
  · cases Record.decode bytes with
    | ok record => exact .run_pure record
    | error e => exact .run_throw _

/-- Planning changes no file. -/
theorem keeps_plan (hfs : Orderly fs spot node) :
    Keeps (fun s => node s = m) (plan fs dir overwrite done es).run := by
  have hpresent (p : Path) : Keeps (fun s => node s = m) (fs.present p) :=
    fun s hs => (hfs.present_node p s).trans hs
  induction es generalizing done with
  | nil => exact .run_pure _
  | cons e es ih =>
      rw [plan]
      dsimp only
      split
      · exact .run_throw_bind _ _
      · split
        · refine .run_bind (.run_lift (hpresent _)) fun present => ?_
          split
          · exact .run_throw_bind _ _
          · exact ih
        · exact ih

/-- A look at the path `p`, with the files as in `s`, sees nothing. -/
def Unseen (fs : System (StateM σ)) (node : σ → Place → Option Node) (s : σ) (p : Path) : Prop :=
  ∃ t t', node t = node s ∧ (fs.present p).run t = (false, t')

/-- A plan that succeeds without `overwrite` has seen nothing at any target. -/
theorem plan_unseen (hfs : Orderly fs spot node)
    (h : (plan fs dir false done es).run.run s = (.ok targets, s')) :
    ∀ e ∈ es, Unseen fs node s (Target.ofEntry dir e).path := by
  induction es generalizing done s with
  | nil => exact fun _ he => absurd he List.not_mem_nil
  | cons first es ih =>
      obtain ⟨-, s₁, hlook, hrest⟩ := plan_cons_eq_ok h
      have hfirst := hlook rfl
      intro e he
      rcases List.mem_cons.mp he with rfl | he
      · exact ⟨s, s₁, rfl, hfirst⟩
      · obtain ⟨t, t', hnode, hunseen⟩ := ih hrest e he
        have hs₁ := hfs.present_node (Target.ofEntry dir first).path s
        rw [hfirst] at hs₁
        exact ⟨t, t', hnode.trans hs₁, hunseen⟩

end Looking

/-! ## Writing -/

section Writing

variable {ts done : List Target} {written : List Path} {x : Place} {contents : Bytes}

theorem keeps_discard (hfs : Orderly fs spot node) (hx : ∀ t ∈ ts, x ≠ spot t.staging) :
    Keeps (Holds node x contents) (discard fs ts) := by
  induction ts with
  | nil => exact .pure ()
  | cons t ts ih =>
      rw [List.forall_mem_cons] at hx
      exact (hfs.keeps_remove hx.1).bind fun _ => ih hx.2

theorem keeps_stage (hfs : Orderly fs spot node) (hdone : ∀ t ∈ done, x ≠ spot t.staging)
    (hx : ∀ t ∈ ts, x ≠ spot t.staging) :
    Keeps (Holds node x contents) (stage fs done ts).run := by
  induction ts generalizing done with
  | nil => exact .run_pure ()
  | cons t ts ih =>
      rw [List.forall_mem_cons] at hx
      refine .run_bind (.run_lift (hfs.keeps_write hx.1)) fun outcome => ?_
      cases outcome with
      | ok _ => exact ih (List.forall_mem_cons.mpr ⟨hx.1, hdone⟩) hx.2
      | error cause =>
          have hstaged : ∀ t ∈ done.reverse, x ≠ spot t.staging := fun t ht =>
            hdone t (List.mem_reverse.mp ht)
          exact .run_bind (.run_lift (keeps_discard hfs hstaged)) fun _ => .run_throw _

theorem keeps_place (hfs : Orderly fs spot node) (hpath : ∀ t ∈ ts, x ≠ spot t.path)
    (hstaging : ∀ t ∈ ts, x ≠ spot t.staging) :
    Keeps (Holds node x contents) (place fs written ts).run := by
  induction ts generalizing written with
  | nil => exact .run_pure _
  | cons t ts ih =>
      have hdiscard : Keeps (Holds node x contents) (discard fs (t :: ts)) :=
        keeps_discard hfs hstaging
      rw [List.forall_mem_cons] at hpath hstaging
      refine .run_bind (.run_lift (hfs.keeps_rename hstaging.1 hpath.1)) fun outcome => ?_
      cases outcome with
      | ok _ => exact ih hpath.2 hstaging.2
      | error cause => exact .run_bind (.run_lift hdiscard) fun _ => .run_throw _

end Writing

/-! ## Exports -/

/-- What an export of the entries leaves unprotected: the staging names, and
targets that a look did not see. -/
def Unprotected (fs : System (StateM σ)) (spot : Path → Place) (node : σ → Place → Option Node)
    (dir : Path) (s : σ) (es : List Inline.Entry) (x : Place) : Prop :=
  ∃ e ∈ es, x = spot (Target.ofEntry dir e).staging ∨
    x = spot (Target.ofEntry dir e).path ∧ Unseen fs node s (Target.ofEntry dir e).path

/-- Whatever comes of an export without `overwrite`, a file that is not
unprotected by it survives. -/
theorem exportInline_survives (hfs : Orderly fs spot node) {x : Place} {contents : Bytes}
    {outcome : Except Fault (List Path)}
    (h : (exportInline fs file dir false limit).run.run s = (outcome, s'))
    (hx : Holds node x contents s)
    (hprotected : ∀ record s₀ store, (loadRecord fs file limit).run.run s = (.ok record, s₀) →
      record.store? = some store → ¬ Unprotected fs spot node dir s store.entries x) :
    Holds node x contents s' := by
  -- While the export only looks, all files are as they were.
  have hsame {t : σ} (hnode : node t = node s) : Holds node x contents t :=
    (congrFun hnode x).trans hx
  rw [exportInline] at h
  rcases run_bind_cases h with ⟨e, hload⟩ | ⟨record, s₀, hload, h⟩
  · exact hsame ((keeps_loadRecord hfs).of_run rfl hload)
  have hs₀ : node s₀ = node s := (keeps_loadRecord hfs).of_run rfl hload
  cases hstore : record.store? with
  | none =>
      rw [hstore] at h
      obtain ⟨-, rfl⟩ := Prod.mk.inj h
      exact hsame hs₀
  | some store =>
      simp only [hstore, Option.map_some, Option.getD_some] at h
      split at h
      · obtain ⟨-, rfl⟩ := Prod.mk.inj h
        exact hsame hs₀
      rcases run_bind_cases h with ⟨e, hplan⟩ | ⟨targets, s₁, hplan, h⟩
      · exact hsame ((keeps_plan hfs).of_run hs₀ hplan)
      have hs₁ := hsame ((keeps_plan hfs).of_run hs₀ hplan)
      obtain ⟨rfl, -, -⟩ := plan_eq_ok hplan
      have hsafe := hprotected record s₀ store hload hstore
      have hstaging : ∀ t ∈ store.entries.map (Target.ofEntry dir), x ≠ spot t.staging := by
        rw [List.forall_mem_map]
        exact fun e he heq => hsafe ⟨e, he, Or.inl heq⟩
      have hpath : ∀ t ∈ store.entries.map (Target.ofEntry dir), x ≠ spot t.path := by
        rw [List.forall_mem_map]
        intro e he heq
        obtain ⟨t, t', hnode, hunseen⟩ := plan_unseen hfs hplan e he
        exact hsafe ⟨e, he, Or.inr ⟨heq, t, t', hnode.trans hs₀, hunseen⟩⟩
      have hdirs : Keeps (Holds node x contents) (diskIo (fs.createDirs dir)).run :=
        keeps_diskIo hfs.keeps_createDirs
      have hstage : Keeps (Holds node x contents) (stage fs [] _).run :=
        keeps_stage hfs (fun _ h => absurd h List.not_mem_nil) hstaging
      have hplace : Keeps (Holds node x contents) (place fs [] _).run :=
        keeps_place hfs hpath hstaging
      rcases run_bind_cases h with ⟨e, hrun⟩ | ⟨_, s₂, hrun, h⟩
      · exact hdirs.of_run hs₁ hrun
      have hs₂ := hdirs.of_run hs₁ hrun
      rcases run_bind_cases h with ⟨e, hrun⟩ | ⟨_, s₃, hrun, h⟩
      · exact hstage.of_run hs₂ hrun
      · exact hplace.of_run (hstage.of_run hs₂ hrun) h

/-- **An export without `overwrite` keeps every file but those at its staging
names and those it does not see at its targets**, however it ends.  When it
succeeds, nothing is left at its staging names, unless one of them is a target
as well. -/
theorem exportInline_keeps (hfs : Orderly fs spot node) {outcome : Except Fault (List Path)}
    (h : (exportInline fs file dir false limit).run.run s = (outcome, s')) :
    (∀ x contents, node s x = some (.file contents) → node s' x = some (.file contents) ∨
      ∃ record s₀ store, (loadRecord fs file limit).run.run s = (.ok record, s₀) ∧
        record.store? = some store ∧ Unprotected fs spot node dir s store.entries x) ∧
    ∀ record s₀ store written, (loadRecord fs file limit).run.run s = (.ok record, s₀) →
      record.store? = some store → outcome = .ok written →
      ∀ e ∈ store.entries, (∀ e' ∈ store.entries, fileName e'.1 ≠ stagingName (fileName e.1)) →
        node s' (spot (dir.join (stagingName (fileName e.1)))) = none := by
  constructor
  · intro x contents hx
    by_cases hlost : ∃ record s₀ store, (loadRecord fs file limit).run.run s = (.ok record, s₀) ∧
        record.store? = some store ∧ Unprotected fs spot node dir s store.entries x
    · exact Or.inr hlost
    · refine Or.inl (exportInline_survives hfs h hx fun record s₀ store hload hstore hun => ?_)
      exact hlost ⟨record, s₀, store, hload, hstore, hun⟩
  · rintro record s₀ store written hload hstore rfl e he hnames
    have hne : store.entries ≠ [] := List.ne_nil_of_mem he
    obtain ⟨hnodup, s₁, s₂, -, hplace⟩ := exportInline_eq_ok hload hstore hne h
    rw [← spot_staging hfs.toLawful]
    refine place_loses hfs.toLawful hplace (apart_of_nodup hfs.toLawful dir hnodup)
      (List.mem_map_of_mem he) ?_
    rw [List.forall_mem_map]
    intro e' he' heq
    exact hnames e' he' ((spot_path_eq_staging_iff hfs.toLawful dir e' e).mp heq.symm)

/-- A shelf with the record of one value, and a directory in which a file of the
given name stands already. -/
def usedShelf (name : String) : Files.Disk :=
  ⟨(shelf [("a", [0x31])]).nodes ++ [(["out"], .directory), (["out", name], .file [0x6f])]⟩

/-- What exporting the record of a used shelf into a directory comes to. -/
def exportUsed (dir : Path) (name : String) : Except Fault (List Path) × Files.Disk :=
  (exportInline Files.Disk.system ⟨"r"⟩ dir false 100).run.run (usedShelf name)

/-- A file beside the value is kept. -/
theorem exportInline_keeps_beside :
    (exportUsed ⟨"out"⟩ "b").1.toOption = some [⟨"out/a"⟩] ∧
      (exportUsed ⟨"out"⟩ "b").2.lookup ["out", "b"] = some (.file [0x6f]) ∧
      (exportUsed ⟨"out"⟩ "b").2.lookup ["out", ".a.xlmeta-tmp"] = none := by
  have hload : ((loadRecord Files.Disk.system ⟨"r"⟩ 100).run.run (usedShelf "b")).1.toOption
      = some (shelved [("a", [0x31])]) := by decide +kernel
  have hexport : (exportUsed ⟨"out"⟩ "b").1.toOption = some [⟨"out/a"⟩] := by decide +kernel
  have hentries : (Inline.Store.ofEntries [("a", [0x31])]).entries = [("a", [0x31])] := by
    decide +kernel
  obtain ⟨hkeeps, hclears⟩ :=
    exportInline_keeps Files.Disk.orderly (eq_ok_of_toOption hexport)
  refine ⟨hexport, ?_, ?_⟩
  · rcases hkeeps ["out", "b"] [0x6f] (by decide +kernel) with
      hkept | ⟨record, s₀, store, hloaded, hstore, e, he, hplace⟩
    · exact hkept
    · obtain ⟨hrecord, -⟩ := Prod.mk.inj ((eq_ok_of_toOption hload).symm.trans hloaded)
      obtain rfl := Except.ok.inj hrecord
      obtain rfl := Option.some.inj hstore
      rw [hentries, List.mem_singleton] at he
      subst he
      rcases hplace with hstaging | ⟨hpath, -⟩
      · exact absurd hstaging (by decide +kernel)
      · exact absurd hpath (by decide +kernel)
  · have hcleared := hclears _ _ _ _ (eq_ok_of_toOption hload) rfl rfl ("a", [0x31])
    rw [hentries, show Files.Disk.location _ = ["out", ".a.xlmeta-tmp"] by decide +kernel]
      at hcleared
    exact hcleared (by simp) (by decide +kernel)

/-- A file that has a staging name is lost. -/
theorem exportInline_loses_staging_name :
    (usedShelf ".a.xlmeta-tmp").lookup ["out", ".a.xlmeta-tmp"] = some (.file [0x6f]) ∧
      (exportUsed ⟨"out"⟩ ".a.xlmeta-tmp").1.toOption = some [⟨"out/a"⟩] ∧
      (exportUsed ⟨"out"⟩ ".a.xlmeta-tmp").2.lookup ["out", ".a.xlmeta-tmp"] = none ∧
      (exportUsed ⟨"out"⟩ ".a.xlmeta-tmp").2.lookup ["out", "a"] = some (.file [0x31]) := by
  decide +kernel

/-- The directory `m` is missing when the target is looked for and is there when
it is written. -/
example :
    (exportUsed ⟨"m/../out"⟩ "a").1.toOption = some [⟨"m/../out/a"⟩] ∧
      (exportUsed ⟨"m/../out"⟩ "a").2.lookup ["out", "a"] = some (.file [0x31]) := by
  decide +kernel

end MetaRecord.Tool

/-
# `MetaRecord.Proofs.Tool.Atomicity` — what a failed export leaves behind

An export can fail while it loads the record or looks at its targets, while it
makes its directory, at the write of any staged file, and at any rename.
`Failure` tells these apart, and `Strikes` says what has been done by then: the
run up to the operation that fails, which is the export of the entries in front
of it.

Up to the directory nothing has changed.  After a write fails, the staged files
are removed, and after a rename fails, those that are still staged.  The values
renamed before that are delivered, and only they, and the fault names them.

The directory stays once it is made, and so do those above it, which is what
`AsBefore` allows for.  A path may lead through a directory of a target's name,
as `out/b/..` does for the target `b`; that target is a directory then.

Main statement: `exportInline_fails`.
-/
import MetaRecord.Proofs.Tool.Cleanup
import MetaRecord.Proofs.Tool.Loading
import MetaRecord.Proofs.Tool.Preservation

namespace MetaRecord.Tool

open Files (AsBefore Dependable IoError Node Orderly Path System)

variable {σ Place : Type} [DecidableEq Place] {fs : System (StateM σ)} {spot : Path → Place}
  {node : σ → Place → Option Node} {file dir : Path} {overwrite : Bool} {limit : Nat}
  {s s₁ s₂ s₃ s' : σ}

/-! ## Exports that fail -/

section Exports

variable {es : List Inline.Entry} {fault : Fault}

/-- The record in the file has the given inline values, and there are some. -/
def Loaded (fs : System (StateM σ)) (file : Path) (limit : Nat) (s : σ)
    (es : List Inline.Entry) (s₀ : σ) : Prop :=
  ∃ record store, (loadRecord fs file limit).run.run s = (.ok record, s₀) ∧
    record.store? = some store ∧ store.entries = es ∧ es ≠ []

/-- No target of the values is refused. -/
def Planned (fs : System (StateM σ)) (file dir : Path) (overwrite : Bool) (limit : Nat) (s : σ)
    (es : List Inline.Entry) (s₁ : σ) : Prop :=
  ∃ s₀, Loaded fs file limit s es s₀ ∧
    (plan fs dir overwrite [] es).run.run s₀ = (.ok (es.map (Target.ofEntry dir)), s₁)

/-- What is done with targets that are not refused. -/
def deliver (fs : System (StateM σ)) (dir : Path) (targets : List Target) :
    ExceptT Fault (StateM σ) (List Path) := do
  diskIo (fs.createDirs dir)
  stage fs [] targets
  place fs [] targets

theorem exportInline_of_loaded {s₀ : σ} (h : Loaded fs file limit s es s₀) :
    (exportInline fs file dir overwrite limit).run.run s =
      (plan fs dir overwrite [] es >>= deliver fs dir).run.run s₀ := by
  obtain ⟨record, store, hload, hstore, rfl, hne⟩ := h
  rw [exportInline, run_bind_of_ok hload]
  simp only [hstore, Option.map_some, Option.getD_some, List.isEmpty_iff, hne, if_false]
  rfl

theorem exportInline_eq_error_iff :
    (exportInline fs file dir overwrite limit).run.run s = (.error fault, s') ↔
      (loadRecord fs file limit).run.run s = (.error fault, s') ∨
      (∃ es s₀, Loaded fs file limit s es s₀ ∧
        (plan fs dir overwrite [] es).run.run s₀ = (.error fault, s')) ∨
      ∃ es s₁, Planned fs file dir overwrite limit s es s₁ ∧
        (deliver fs dir (es.map (Target.ofEntry dir))).run.run s₁ = (.error fault, s') := by
  constructor
  · intro h
    rcases run_bind_eq_error.mp h with hload | ⟨record, s₀, hload, hrest⟩
    · exact Or.inl hload
    -- A record without values ends the export, but not with a fault.
    obtain ⟨store, hstore, hne⟩ : ∃ store, record.store? = some store ∧ store.entries ≠ [] := by
      cases hstore : record.store? with
      | none =>
          rw [hstore] at hrest
          exact nomatch (Prod.mk.inj hrest).1
      | some store =>
          refine ⟨store, rfl, fun hempty => ?_⟩
          simp only [hstore, Option.map_some, Option.getD_some, hempty] at hrest
          exact nomatch (Prod.mk.inj hrest).1
    have hloaded : Loaded fs file limit s store.entries s₀ :=
      ⟨record, store, hload, hstore, rfl, hne⟩
    rw [exportInline_of_loaded hloaded] at h
    rcases run_bind_eq_error.mp h with hplan | ⟨targets, s₁, hplan, hdeliver⟩
    · exact Or.inr (Or.inl ⟨_, s₀, hloaded, hplan⟩)
    · obtain ⟨rfl, -⟩ := plan_eq_ok hplan
      exact Or.inr (Or.inr ⟨_, s₁, ⟨s₀, hloaded, hplan⟩, hdeliver⟩)
  · rintro (hload | ⟨es, s₀, hloaded, hplan⟩ | ⟨es, s₁, ⟨s₀, hloaded, hplan⟩, hdeliver⟩)
    · exact run_bind_eq_error.mpr (Or.inl hload)
    · rw [exportInline_of_loaded hloaded]
      exact run_bind_eq_error.mpr (Or.inl hplan)
    · rw [exportInline_of_loaded hloaded, run_bind_of_ok hplan]
      exact hdeliver

theorem deliver_eq_error_iff {targets : List Target} :
    (deliver fs dir targets).run.run s = (.error fault, s') ↔
      (∃ cause, (fs.createDirs dir).run s = (.error cause, s') ∧ fault = .diskIo cause) ∨
      ∃ s₁, (fs.createDirs dir).run s = (.ok (), s₁) ∧
        ((stage fs [] targets).run.run s₁ = (.error fault, s') ∨
          ∃ s₂, (stage fs [] targets).run.run s₁ = (.ok (), s₂) ∧
            (place fs [] targets).run.run s₂ = (.error fault, s')) := by
  simp only [deliver, run_bind_eq_error, run_diskIo_eq_error, run_diskIo_eq_ok, Unique.exists_iff]

end Exports

/-! ## Failures -/

/-- Where an export fails, and with which cause. -/
inductive Failure where
  /-- There is no record to be had. -/
  | toLoad (fault : Fault)
  /-- A target is refused. -/
  | toPlan (fault : Fault)
  /-- The directory cannot be made. -/
  | toMake (cause : IoError)
  /-- A value cannot be written under its staging name. -/
  | toStage (cause : IoError)
  /-- The values `before` are in place, and the first one `after` cannot be put
  in place. -/
  | toPlace (before after : List Inline.Entry) (cause : IoError)

/-- The fault that an export into `dir` ends with. -/
def Failure.fault (dir : Path) : Failure → Fault
  | toLoad fault | toPlan fault => fault
  | toMake cause | toStage cause => .diskIo cause
  | toPlace before _ cause =>
      .exportIncomplete (before.map fun e => (dir.join (fileName e.1)).text) cause

/-- The export started in `s` runs into the failure. -/
inductive Strikes (fs : System (StateM σ)) (file dir : Path) (overwrite : Bool) (limit : Nat)
    (s : σ) : Failure → Prop
  | toLoad {fault : Fault} {s₀ : σ} :
      (loadRecord fs file limit).run.run s = (.error fault, s₀) →
      Strikes fs file dir overwrite limit s (.toLoad fault)
  | toPlan {es : List Inline.Entry} {fault : Fault} {s₀ s₁ : σ} :
      Loaded fs file limit s es s₀ →
      (plan fs dir overwrite [] es).run.run s₀ = (.error fault, s₁) →
      Strikes fs file dir overwrite limit s (.toPlan fault)
  | toMake {es : List Inline.Entry} {cause : IoError} {s₁ s₂ : σ} :
      Planned fs file dir overwrite limit s es s₁ →
      (fs.createDirs dir).run s₁ = (.error cause, s₂) →
      Strikes fs file dir overwrite limit s (.toMake cause)
  | toStage {before after : List Inline.Entry} {e : Inline.Entry} {cause : IoError}
      {s₁ s₂ s₃ s₄ : σ} :
      Planned fs file dir overwrite limit s (before ++ e :: after) s₁ →
      (fs.createDirs dir).run s₁ = (.ok (), s₂) →
      (stage fs [] (before.map (Target.ofEntry dir))).run.run s₂ = (.ok (), s₃) →
      (fs.write (Target.ofEntry dir e).staging e.2).run s₃ = (.error cause, s₄) →
      Strikes fs file dir overwrite limit s (.toStage cause)
  | toPlace {before after : List Inline.Entry} {e : Inline.Entry} {cause : IoError}
      {paths : List Path} {s₁ s₂ s₃ s₄ s₅ : σ} :
      Planned fs file dir overwrite limit s (before ++ e :: after) s₁ →
      (fs.createDirs dir).run s₁ = (.ok (), s₂) →
      (stage fs [] ((before ++ e :: after).map (Target.ofEntry dir))).run.run s₂ = (.ok (), s₃) →
      (place fs [] (before.map (Target.ofEntry dir))).run.run s₃ = (.ok paths, s₄) →
      (fs.rename (Target.ofEntry dir e).staging (Target.ofEntry dir e).path).run s₄
        = (.error cause, s₅) →
      Strikes fs file dir overwrite limit s (.toPlace before (e :: after) cause)

/-- No entry has the staging name of another for its file name, and nothing in
the directory has one. -/
structure StagingFree (spot : Path → Place) (node : σ → Place → Option Node) (dir : Path) (s : σ)
    (es : List Inline.Entry) : Prop where
  names : ∀ e ∈ es, ∀ e' ∈ es, fileName e'.1 ≠ stagingName (fileName e.1)
  absent : ∀ e ∈ es, node s (spot (dir.join (stagingName (fileName e.1)))) = none

/-- The values `before` have been delivered and nothing else has happened. -/
structure Interrupted (spot : Path → Place) (node : σ → Place → Option Node) (dir : Path)
    (s s' : σ) (before after : List Inline.Entry) : Prop where
  delivered : ∀ e ∈ before, node s' (spot (dir.join (fileName e.1))) = some (.file e.2)
  later : ∀ e ∈ after, AsBefore spot dir (node s) (node s') (spot (dir.join (fileName e.1)))
  unstaged : ∀ e ∈ before ++ after,
    node s' (spot (dir.join (stagingName (fileName e.1)))) = none
  elsewhere : ∀ x, (∀ e ∈ before, x ≠ spot (dir.join (fileName e.1))) →
    AsBefore spot dir (node s) (node s') x

/-- What an export into `dir` that failed has done to the state `s` by `s'`. -/
def Failure.Leaves (spot : Path → Place) (node : σ → Place → Option Node) (dir : Path)
    (s s' : σ) : Failure → Prop
  | toLoad _ | toPlan _ => node s' = node s
  | toMake _ | toStage _ => ∀ x, AsBefore spot dir (node s) (node s') x
  | toPlace before after _ => Interrupted spot node dir s s' before after

/-! ## Failed exports -/

section Failed

variable {es before after : List Inline.Entry} {failure : Failure} {fault : Fault} {s₀ : σ}

theorem node_of_loaded (hfs : Orderly fs spot node) (h : Loaded fs file limit s es s₀) :
    node s₀ = node s := by
  obtain ⟨record, store, hload, -⟩ := h
  exact (keeps_loadRecord hfs).of_run rfl hload

/-- Nothing but the directory has been made when the first value is staged. -/
theorem asBefore_of_planned (hfs : Orderly fs spot node)
    (h : Planned fs file dir overwrite limit s es s₁) {outcome : Except IoError Unit}
    (hmake : (fs.createDirs dir).run s₁ = (outcome, s₂)) :
    ∀ x, AsBefore spot dir (node s) (node s₂) x := by
  obtain ⟨s₀, hload, hplan⟩ := h
  have hnode : node s₁ = node s := (keeps_plan hfs).of_run (node_of_loaded hfs hload) hplan
  rw [← hnode]
  exact hfs.asBefore_createDirs hmake

theorem apart_of_planned (hfs : Orderly fs spot node)
    (h : Planned fs file dir overwrite limit s es s₁) :
    (es.map (Target.ofEntry dir)).Pairwise (Apart spot) := by
  obtain ⟨s₀, -, hplan⟩ := h
  exact apart_of_nodup hfs.toLawful dir (plan_eq_ok hplan).2.1

theorem StagingFree.clear (hfs : Orderly fs spot node) (h : StagingFree spot node dir s es) :
    ∀ a ∈ es.map (Target.ofEntry dir), ∀ b ∈ es.map (Target.ofEntry dir),
      spot a.path ≠ spot b.staging := by
  simp only [List.forall_mem_map]
  intro a ha b hb heq
  exact h.names b hb a ha ((spot_path_eq_staging_iff hfs.toLawful dir a b).mp heq)

theorem StagingFree.empty (hfs : Orderly fs spot node) (h : StagingFree spot node dir s es) :
    ∀ a ∈ es.map (Target.ofEntry dir), node s (spot a.staging) = none := by
  rw [List.forall_mem_map]
  intro e he
  rw [spot_staging hfs.toLawful]
  exact h.absent e he

/-- Where a place is empty that was so before, and the others are as they were
when the directory had been made, all are as before. -/
theorem asBefore_of_cleared {ts : List Target} {x : Place}
    (hmade : AsBefore spot dir (node s) (node s₂) x)
    (hempty : ∀ t ∈ ts, node s (spot t.staging) = none)
    (hcleared : ∀ t ∈ ts, node s' (spot t.staging) = none)
    (hrest : (∀ t ∈ ts, x ≠ spot t.staging) → node s' x = node s₂ x) :
    AsBefore spot dir (node s) (node s') x := by
  by_cases hx : ∀ t ∈ ts, x ≠ spot t.staging
  · exact hmade.of_eq (hrest hx)
  · push Not at hx
    obtain ⟨t, ht, rfl⟩ := hx
    exact Or.inl ((hcleared t ht).trans (hempty t ht).symm)

/-- After a write fails, nothing has happened but to the directory. -/
theorem asBefore_of_write_error (hfs : Dependable fs spot node) {e : Inline.Entry}
    {cause : IoError} {s₄ : σ}
    (hplanned : Planned fs file dir overwrite limit s (before ++ e :: after) s₁)
    (hfree : StagingFree spot node dir s (before ++ e :: after))
    (hmake : (fs.createDirs dir).run s₁ = (.ok (), s₂))
    (hstage : (stage fs [] (before.map (Target.ofEntry dir))).run.run s₂ = (.ok (), s₃))
    (hwrite : (fs.write (Target.ofEntry dir e).staging e.2).run s₃ = (.error cause, s₄)) (x : Place) :
    AsBefore spot dir (node s)
      (node ((discard fs (before.map (Target.ofEntry dir))).run s₄).2) x := by
  have hapart := apart_of_planned hfs.toOrderly hplanned
  have hempty := hfree.empty hfs.toOrderly
  rw [List.map_append] at hapart hempty
  obtain ⟨hcleared, hrest⟩ := staging_clears hfs (List.pairwise_append.mp hapart).1 hstage hwrite
  exact asBefore_of_cleared (asBefore_of_planned hfs.toOrderly hplanned hmake x)
    (fun t ht => hempty t (List.mem_append_left _ ht)) hcleared (hrest x)

/-- After a rename fails, the values in front of it are delivered and nothing
else has happened. -/
theorem interrupted_of_rename_error (hfs : Dependable fs spot node) {e : Inline.Entry}
    {cause : IoError} {paths : List Path} {s₄ s₅ : σ}
    (hplanned : Planned fs file dir overwrite limit s (before ++ e :: after) s₁)
    (hfree : StagingFree spot node dir s (before ++ e :: after))
    (hmake : (fs.createDirs dir).run s₁ = (.ok (), s₂))
    (hstage : (stage fs [] ((before ++ e :: after).map (Target.ofEntry dir))).run.run s₂
      = (.ok (), s₃))
    (hplace : (place fs [] (before.map (Target.ofEntry dir))).run.run s₃ = (.ok paths, s₄))
    (hrename : (fs.rename (Target.ofEntry dir e).staging (Target.ofEntry dir e).path).run s₄
      = (.error cause, s₅)) :
    Interrupted spot node dir s
      ((discard fs ((e :: after).map (Target.ofEntry dir))).run s₅).2 before (e :: after) := by
  have hapart := apart_of_planned hfs.toOrderly hplanned
  have hempty := hfree.empty hfs.toOrderly
  have hclear := hfree.clear hfs.toOrderly
  rw [List.map_append, List.map_cons] at hapart hempty hclear hstage
  obtain ⟨hdelivered, hcleared, hrest⟩ := renaming_clears hfs hapart hclear hstage hplace hrename
  have helsewhere : ∀ x, (∀ a ∈ before, x ≠ spot (dir.join (fileName a.1))) →
      AsBefore spot dir (node s)
        (node ((discard fs ((e :: after).map (Target.ofEntry dir))).run s₅).2) x := by
    intro x hx
    refine asBefore_of_cleared (asBefore_of_planned hfs.toOrderly hplanned hmake x) hempty hcleared
      (hrest x ?_)
    rw [List.forall_mem_map]
    exact hx
  refine {
    delivered := List.forall_mem_map.mp hdelivered
    later := fun b hb => helsewhere _ fun a ha => ?_
    unstaged := ?_
    elsewhere := helsewhere }
  · have hacross := (List.pairwise_append.mp hapart).2.2
    exact (hacross _ (List.mem_map_of_mem ha) (Target.ofEntry dir b)
      (List.mem_map_of_mem (f := Target.ofEntry dir) hb)).1.symm
  · rw [← List.map_cons, ← List.map_append, List.forall_mem_map] at hcleared
    intro b hb
    rw [← spot_staging hfs.toLawful]
    exact hcleared b hb

/-- An export that runs into a failure ends with its fault, and leaves behind
what that failure leaves. -/
theorem Strikes.runs (hfs : Dependable fs spot node)
    (hfree : ∀ es s₀, Loaded fs file limit s es s₀ → StagingFree spot node dir s es)
    (h : Strikes fs file dir overwrite limit s failure) :
    ∃ s', (exportInline fs file dir overwrite limit).run.run s = (.error (failure.fault dir), s') ∧
      failure.Leaves spot node dir s s' := by
  have hfree : ∀ es s₁, Planned fs file dir overwrite limit s es s₁ →
      StagingFree spot node dir s es := fun es _ ⟨s₀, hloaded, _⟩ => hfree es s₀ hloaded
  cases h with
  | toLoad hload =>
      exact ⟨_, exportInline_eq_error_iff.mpr (Or.inl hload),
        (keeps_loadRecord hfs.toOrderly).of_run rfl hload⟩
  | toPlan hloaded hplan =>
      refine ⟨_, exportInline_eq_error_iff.mpr (Or.inr (Or.inl ⟨_, _, hloaded, hplan⟩)), ?_⟩
      exact (keeps_plan hfs.toOrderly).of_run (node_of_loaded hfs.toOrderly hloaded) hplan
  | toMake hplanned hmake =>
      refine ⟨_, exportInline_eq_error_iff.mpr (Or.inr (Or.inr ⟨_, _, hplanned,
        deliver_eq_error_iff.mpr (Or.inl ⟨_, hmake, rfl⟩)⟩)), ?_⟩
      exact asBefore_of_planned hfs.toOrderly hplanned hmake
  | @toStage before after e cause s₁ s₂ s₃ s₄ hplanned hmake hstage hwrite =>
      have hfailed := stage_eq_error (after.map (Target.ofEntry dir)) hstage hwrite
      rw [← List.map_cons, ← List.map_append] at hfailed
      have hrun := deliver_eq_error_iff.mpr (Or.inr ⟨_, hmake, Or.inl hfailed⟩)
      refine ⟨_, exportInline_eq_error_iff.mpr (Or.inr (Or.inr ⟨_, _, hplanned, hrun⟩)), ?_⟩
      exact asBefore_of_write_error hfs hplanned (hfree _ _ hplanned) hmake hstage hwrite
  | @toPlace before after e cause paths s₁ s₂ s₃ s₄ s₅ hplanned hmake hstage hplace hrename =>
      have hfailed := place_eq_error (after.map (Target.ofEntry dir)) hplace hrename
      rw [← List.map_cons, ← List.map_append, List.map_map] at hfailed
      have hrun := deliver_eq_error_iff.mpr (Or.inr ⟨_, hmake, Or.inr ⟨_, hstage, hfailed⟩⟩)
      refine ⟨_, exportInline_eq_error_iff.mpr (Or.inr (Or.inr ⟨_, _, hplanned, hrun⟩)), ?_⟩
      exact interrupted_of_rename_error hfs hplanned (hfree _ _ hplanned) hmake hstage hplace
        hrename

/-- An export that ends with a fault has run into a failure. -/
theorem exists_strikes
    (h : (exportInline fs file dir overwrite limit).run.run s = (.error fault, s')) :
    ∃ failure, Strikes fs file dir overwrite limit s failure := by
  rcases exportInline_eq_error_iff.mp h with hload | ⟨es, s₀, hloaded, hplan⟩ |
    ⟨es, s₁, hplanned, h⟩
  · exact ⟨_, .toLoad hload⟩
  · exact ⟨_, .toPlan hloaded hplan⟩
  rcases deliver_eq_error_iff.mp h with ⟨cause, hmake, -⟩ |
    ⟨s₂, hmake, hstage | ⟨s₃, hstage, hplace⟩⟩
  · exact ⟨_, .toMake hplanned hmake⟩
  · obtain ⟨before, t, after, ⟨⟩, s₃, cause, s₄, hts, hbefore, hwrite⟩ :=
      (stage_stepwise fs).exists_failed hstage
    obtain ⟨bs, bs', rfl, rfl, hbs⟩ := List.map_eq_append_iff.mp hts
    obtain ⟨e, as, rfl, rfl, rfl⟩ := List.map_eq_cons_iff.mp hbs
    exact ⟨_, .toStage hplanned hmake hbefore hwrite⟩
  · obtain ⟨before, t, after, paths, s₄, cause, s₅, hts, hbefore, hrename⟩ :=
      (place_stepwise fs).exists_failed hplace
    obtain ⟨bs, bs', rfl, rfl, hbs⟩ := List.map_eq_append_iff.mp hts
    obtain ⟨e, as, rfl, rfl, rfl⟩ := List.map_eq_cons_iff.mp hbs
    exact ⟨_, .toPlace hplanned hmake hstage hbefore hrename⟩

/-- **Whatever an export fails at, it leaves behind what that failure leaves**,
and it fails at nothing else. -/
theorem exportInline_fails (hfs : Dependable fs spot node)
    (hfree : ∀ es s₀, Loaded fs file limit s es s₀ → StagingFree spot node dir s es) :
    (∀ failure, Strikes fs file dir overwrite limit s failure → ∃ s',
      (exportInline fs file dir overwrite limit).run.run s = (.error (failure.fault dir), s') ∧
        failure.Leaves spot node dir s s') ∧
    ∀ fault s', (exportInline fs file dir overwrite limit).run.run s = (.error fault, s') →
      ∃ failure, Strikes fs file dir overwrite limit s failure ∧ fault = failure.fault dir ∧
        failure.Leaves spot node dir s s' := by
  refine ⟨fun failure h => h.runs hfs hfree, fun fault s' h => ?_⟩
  obtain ⟨failure, hstrikes⟩ := exists_strikes h
  obtain ⟨s'', hrun, hleaves⟩ := hstrikes.runs hfs hfree
  obtain ⟨hfault, rfl⟩ := Prod.mk.inj (h.symm.trans hrun)
  exact ⟨failure, hstrikes, Except.error.inj hfault, hleaves⟩

end Failed

/-- A shelf with the record of three values, and a directory in which the target
of the second is taken by a directory. -/
def blockedShelf : Files.Disk :=
  ⟨(shelf [("a", [0x31]), ("b", [0x32]), ("c", [0x33])]).nodes ++
    [(["out"], .directory), (["out", "b"], .directory)]⟩

/-- The second rename fails: the first value is in place, and neither the third
one nor a staged one is left. -/
theorem exportInline_fails_blocked :
    ∃ d, (exportInline Files.Disk.system ⟨"r"⟩ ⟨"out"⟩ true 100).run.run blockedShelf
        = (.error (.exportIncomplete ["out/a"] .isADirectory), d) ∧
      d.lookup ["out", "a"] = some (.file [0x31]) ∧
      (∀ contents, d.lookup ["out", "c"] ≠ some (.file contents)) ∧
      d.lookup ["out", ".c.xlmeta-tmp"] = none := by
  have hentries : (Inline.Store.ofEntries [("a", [0x31]), ("b", [0x32]), ("c", [0x33])]).entries
      = [("a", [0x31]), ("b", [0x32]), ("c", [0x33])] := by decide +kernel
  have hload := eq_mk_snd (show ((loadRecord Files.Disk.system ⟨"r"⟩ 100).run.run blockedShelf).1
      = .ok (shelved [("a", [0x31]), ("b", [0x32]), ("c", [0x33])]) by decide +kernel)
  have hfree : ∀ es d, Loaded Files.Disk.system ⟨"r"⟩ 100 blockedShelf es d →
      StagingFree Files.Disk.location Files.Disk.lookup ⟨"out"⟩ blockedShelf es := by
    rintro es d ⟨record, store, hrun, hstore, rfl, -⟩
    obtain ⟨hrecord, -⟩ := Prod.mk.inj (hload.symm.trans hrun)
    obtain rfl := Except.ok.inj hrecord
    obtain rfl := Option.some.inj hstore
    rw [hentries]
    exact ⟨by decide +kernel, by decide +kernel⟩
  have hstrikes : Strikes Files.Disk.system ⟨"r"⟩ ⟨"out"⟩ true 100 blockedShelf
      (.toPlace [("a", [0x31])] [("b", [0x32]), ("c", [0x33])] .isADirectory) :=
    .toPlace
      ⟨_, ⟨_, _, hload, rfl, hentries, List.cons_ne_nil _ _⟩, eq_mk_snd (by decide +kernel)⟩
      (eq_mk_snd (by decide +kernel)) (eq_mk_snd (by decide +kernel))
      (eq_mk_snd (show _ = Except.ok [⟨"out/a"⟩] by decide +kernel)) (eq_mk_snd (by decide +kernel))
  obtain ⟨d, hrun, hleaves⟩ := (exportInline_fails Files.Disk.dependable hfree).1 _ hstrikes
  refine ⟨d, hrun, ?_, ?_, ?_⟩
  · have ha := hleaves.delivered ("a", [0x31]) (by simp)
    rwa [show Files.Disk.location _ = ["out", "a"] by decide +kernel] at ha
  · have hc := hleaves.later ("c", [0x33]) (by simp)
    rw [show Files.Disk.location _ = ["out", "c"] by decide +kernel] at hc
    intro contents h
    have hbefore := (hc.file_iff contents).mp h
    rw [show blockedShelf.lookup ["out", "c"] = none by decide +kernel] at hbefore
    exact nomatch hbefore
  · have hc := hleaves.unstaged ("c", [0x33]) (by simp)
    rwa [show Files.Disk.location _ = ["out", ".c.xlmeta-tmp"] by decide +kernel] at hc

/-- A path to the directory that leads through a directory of the target's name
makes that directory of it. -/
example :
    let result := (exportInline Files.Disk.system ⟨"r"⟩ ⟨"out/b/.."⟩ false 100).run.run
      (shelf [("b", [0x31])])
    result.1 = .error (.exportIncomplete [] .isADirectory) ∧
      result.2.lookup ["out", "b"] = some .directory ∧
      result.2.lookup ["out", ".b.xlmeta-tmp"] = none := by
  decide +kernel

end MetaRecord.Tool

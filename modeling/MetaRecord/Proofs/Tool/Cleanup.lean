/-
# `MetaRecord.Proofs.Tool.Cleanup` — loops that fail

The loops of an export write the staged files and rename them into place.  At
an operation that fails they stop and remove what is staged: `stage` removes
what it has written so far, `place` what it has not renamed yet.

What they have in common is `Stepwise`: a loop that is run on a list goes on
where the run on a front part of it has ended, and if it fails, the operation
for the item behind such a part has failed.  `stage_eq_error` and
`place_eq_error` say what the two loops come to then.  What is removed was
written before, and nothing has happened to it since: staging leaves `Removable`
files, and renaming some of them leaves the others so, if no target is where
another value is staged.

Main statements: `staging_clears` and `renaming_clears`.
-/
import MetaRecord.Proofs.Files.Dependable
import MetaRecord.Proofs.Tool.Delivery

namespace MetaRecord.Tool

open Files (Dependable DirectoriesStay IoError Node Path Removable System)

variable {σ Place : Type} {fs : System (StateM σ)} {spot : Path → Place}
  {node : σ → Place → Option Node} {s s₁ s₂ s₃ s' : σ}

/-! ## Loops that stop at a failure -/

/-- The loop does `op` for one item after the other and notes those that are
done.  At the first item for which `op` fails it stops with a fault. -/
structure Stepwise {ε ε' ι κ β : Type} (op : ι → StateM σ (Except ε Unit)) (note : ι → κ)
    (loop : List κ → List ι → ExceptT ε' (StateM σ) β) : Prop where
  nil (done : List κ) (s : σ) : ∃ b, (loop done []).run.run s = (.ok b, s)
  cons_of_ok {i : ι} {s s₁ : σ} (done : List κ) (is : List ι) :
    (op i).run s = (.ok (), s₁) →
    (loop done (i :: is)).run.run s = (loop (note i :: done) is).run.run s₁
  cons_of_error {i : ι} {s s₁ : σ} {cause : ε} (done : List κ) (is : List ι) :
    (op i).run s = (.error cause, s₁) → ∃ e s₂, (loop done (i :: is)).run.run s = (.error e, s₂)

namespace Stepwise

variable {ε ε' ι κ β : Type} {op : ι → StateM σ (Except ε Unit)} {note : ι → κ}
  {loop : List κ → List ι → ExceptT ε' (StateM σ) β} (h : Stepwise op note loop)
  {i : ι} {is js : List ι} {done : List κ} {b : β} {e : ε'}

include h

theorem nil_eq_ok (hrun : (loop done []).run.run s = (.ok b, s')) : s' = s := by
  obtain ⟨b', hnil⟩ := h.nil done s
  exact (Prod.mk.inj (hrun.symm.trans hnil)).2

theorem cons_eq_ok (hrun : (loop done (i :: is)).run.run s = (.ok b, s')) :
    ∃ s₁, (op i).run s = (.ok (), s₁) ∧
      (loop (note i :: done) is).run.run s₁ = (.ok b, s') := by
  rcases hop : (op i).run s with ⟨cause | ⟨⟨⟩⟩, s₁⟩
  · obtain ⟨e, s₂, herror⟩ := h.cons_of_error done is hop
    exact nomatch (Prod.mk.inj (hrun.symm.trans herror)).1
  · exact ⟨s₁, rfl, (h.cons_of_ok done is hop).symm.trans hrun⟩

/-- After the items in front have been done, those behind them are. -/
theorem append (hrun : (loop done is).run.run s = (.ok b, s')) :
    (loop done (is ++ js)).run.run s = (loop ((is.map note).reverse ++ done) js).run.run s' := by
  induction is generalizing done s with
  | nil =>
      rw [h.nil_eq_ok hrun]
      rfl
  | cons i is ih =>
      obtain ⟨s₁, hop, hrest⟩ := h.cons_eq_ok hrun
      rw [List.cons_append, h.cons_of_ok _ _ hop, ih hrest, List.map_cons, List.reverse_cons,
        List.append_assoc]
      rfl

/-- A loop that ends with a fault has come to an item for which `op` fails. -/
theorem exists_failed (hrun : (loop done is).run.run s = (.error e, s')) :
    ∃ front i back b s₁ cause s₂, is = front ++ i :: back ∧
      (loop done front).run.run s = (.ok b, s₁) ∧ (op i).run s₁ = (.error cause, s₂) := by
  induction is generalizing done s with
  | nil =>
      obtain ⟨b, hnil⟩ := h.nil done s
      exact nomatch (Prod.mk.inj (hrun.symm.trans hnil)).1
  | cons i is ih =>
      rcases hop : (op i).run s with ⟨cause | ⟨⟨⟩⟩, s₁⟩
      · obtain ⟨b, hnil⟩ := h.nil done s
        exact ⟨[], i, is, b, s, cause, s₁, rfl, hnil, hop⟩
      · rw [h.cons_of_ok done is hop] at hrun
        obtain ⟨front, i', back, b, s₂, cause, s₃, rfl, hfront, hfailed⟩ := ih hrun
        exact ⟨i :: front, i', back, b, s₂, cause, s₃, rfl,
          (h.cons_of_ok done front hop).trans hfront, hfailed⟩

theorem directoriesStay (hop : ∀ i s s₁, (op i).run s = (.ok (), s₁) → DirectoriesStay node s s₁)
    (hrun : (loop done is).run.run s = (.ok b, s')) : DirectoriesStay node s s' := by
  induction is generalizing done s with
  | nil => exact .of_eq (by rw [h.nil_eq_ok hrun])
  | cons i is ih =>
      obtain ⟨s₁, hstep, hrest⟩ := h.cons_eq_ok hrun
      exact (hop i s s₁ hstep).trans (ih hrest)

end Stepwise

/-! ## Runs that fail -/

section Runs

variable {t : Target} {ts before done : List Target} {written paths : List Path}
  {cause : IoError}

theorem stage_cons_of_error (h : (fs.write t.staging t.value).run s = (.error cause, s₁)) :
    (stage fs done (t :: ts)).run.run s =
      (.error (.diskIo cause), ((discard fs done.reverse).run s₁).2) := by
  rw [stage, run_lift_bind, h]
  rfl

theorem place_cons_of_error (h : (fs.rename t.staging t.path).run s = (.error cause, s₁)) :
    (place fs written (t :: ts)).run.run s =
      (.error (.exportIncomplete (written.reverse.map Path.text) cause),
        ((discard fs (t :: ts)).run s₁).2) := by
  rw [place, run_lift_bind, h]
  rfl

theorem stage_stepwise (fs : System (StateM σ)) :
    Stepwise (fun t => fs.write t.staging t.value) id (stage fs) where
  nil done s := ⟨(), rfl⟩
  cons_of_ok done ts h := by rw [stage, run_lift_bind, h, id]
  cons_of_error done ts h := ⟨_, _, stage_cons_of_error h⟩

theorem place_stepwise (fs : System (StateM σ)) :
    Stepwise (fun t => fs.rename t.staging t.path) Target.path (place fs) where
  nil written s := ⟨written.reverse, rfl⟩
  cons_of_ok written ts h := by rw [place, run_lift_bind, h]
  cons_of_error written ts h := ⟨_, _, place_cons_of_error h⟩

/-- What staging comes to when the write of one value fails. -/
theorem stage_eq_error (after : List Target)
    (hbefore : (stage fs [] before).run.run s = (.ok (), s₁))
    (hwrite : (fs.write t.staging t.value).run s₁ = (.error cause, s₂)) :
    (stage fs [] (before ++ t :: after)).run.run s =
      (.error (.diskIo cause), ((discard fs before).run s₂).2) := by
  rw [(stage_stepwise fs).append hbefore, stage_cons_of_error hwrite, List.append_nil,
    List.reverse_reverse, List.map_id]

/-- What placing comes to when the rename of one value fails. -/
theorem place_eq_error (after : List Target)
    (hbefore : (place fs [] before).run.run s = (.ok paths, s₁))
    (hrename : (fs.rename t.staging t.path).run s₁ = (.error cause, s₂)) :
    (place fs [] (before ++ t :: after)).run.run s =
      (.error (.exportIncomplete (before.map fun t => t.path.text) cause),
        ((discard fs (t :: after)).run s₂).2) := by
  rw [(place_stepwise fs).append hbefore, place_cons_of_error hrename, List.append_nil,
    List.reverse_reverse, List.map_map]
  rfl

end Runs

/-! ## What the loops leave behind -/

section Loops

variable {t : Target} {ts before after done : List Target} {written paths : List Path}
  {cause : IoError} [DecidableEq Place] (hfs : Dependable fs spot node)

include hfs

theorem stage_directoriesStay (h : (stage fs done ts).run.run s = (.ok (), s')) :
    DirectoriesStay node s s' :=
  (stage_stepwise fs).directoriesStay (fun _ _ _ => hfs.directoriesStay_write) h

/-- What has been staged can be removed. -/
theorem stage_removable (h : (stage fs done ts).run.run s = (.ok (), s'))
    (hapart : ts.Pairwise (Apart spot)) : ∀ t ∈ ts, Removable fs spot node s' t.staging := by
  induction ts generalizing done s with
  | nil => exact fun _ ht => absurd ht List.not_mem_nil
  | cons first ts ih =>
      obtain ⟨s₁, hwrite, hrest⟩ := stage_cons_eq_ok h
      obtain ⟨hfirst, hapart⟩ := List.pairwise_cons.mp hapart
      refine List.forall_mem_cons.mpr ⟨?_, ih hrest hapart⟩
      exact (hfs.removable_write hwrite).later (stage_directoriesStay hfs hrest)
        (stage_frame hfs.toLawful hrest fun t ht => (hfirst t ht).2)

theorem place_directoriesStay (h : (place fs written ts).run.run s = (.ok paths, s')) :
    DirectoriesStay node s s' :=
  (place_stepwise fs).directoriesStay (fun _ _ _ => hfs.directoriesStay_rename) h

/-- Discarding what is staged empties the staging places and nothing else. -/
theorem discard_clears (hts : ∀ t ∈ ts, Removable fs spot node s t.staging)
    (hapart : ts.Pairwise (Apart spot)) :
    (∀ t ∈ ts, node ((discard fs ts).run s).2 (spot t.staging) = none) ∧
      ∀ x, (∀ t ∈ ts, x ≠ spot t.staging) → node ((discard fs ts).run s).2 x = node s x := by
  induction ts generalizing s with
  | nil => exact ⟨fun _ ht => absurd ht List.not_mem_nil, fun _ _ => rfl⟩
  | cons first ts ih =>
      obtain ⟨hremovable, hts⟩ := List.forall_mem_cons.mp hts
      obtain ⟨hfirst, hapart⟩ := List.pairwise_cons.mp hapart
      obtain ⟨s₁, hremove, hnode, hdirs⟩ := hremovable.remove hfs
      have hrun : (discard fs (first :: ts)).run s = (discard fs ts).run s₁ := by
        rw [discard, StateT.run_bind, hremove]
        rfl
      have hts₁ : ∀ t ∈ ts, Removable fs spot node s₁ t.staging := fun t ht =>
        (hts t ht).later hdirs (by rw [hnode, Function.update_of_ne (hfirst t ht).2.symm])
      obtain ⟨hcleared, hrest⟩ := ih hts₁ hapart
      rw [hrun]
      refine ⟨List.forall_mem_cons.mpr ⟨?_, hcleared⟩, fun x hx => ?_⟩
      · rw [hrest _ fun t ht => (hfirst t ht).2, hnode, Function.update_self]
      · rw [List.forall_mem_cons] at hx
        rw [hrest x hx.2, hnode, Function.update_of_ne hx.1]

/-- After a write fails, the staging places of the targets in front of it are
empty, and nothing else has changed. -/
theorem staging_clears (hapart : before.Pairwise (Apart spot))
    (hstage : (stage fs [] before).run.run s = (.ok (), s₁))
    (hwrite : (fs.write t.staging t.value).run s₁ = (.error cause, s₂)) :
    (∀ a ∈ before, node ((discard fs before).run s₂).2 (spot a.staging) = none) ∧
      ∀ x, (∀ a ∈ before, x ≠ spot a.staging) →
        node ((discard fs before).run s₂).2 x = node s x := by
  have hnode : node s₂ = node s₁ := hfs.write_error hwrite
  have hremovable : ∀ a ∈ before, Removable fs spot node s₂ a.staging := fun a ha =>
    (stage_removable hfs hstage hapart a ha).later (.of_eq hnode) (by rw [hnode])
  obtain ⟨hcleared, hrest⟩ := discard_clears hfs hremovable hapart
  refine ⟨hcleared, fun x hx => ?_⟩
  rw [hrest x hx, hnode, stage_frame hfs.toLawful hstage hx]

/-- After a rename fails, the targets in front of it have their values, all
staging places are empty, and nothing else has changed. -/
theorem renaming_clears (hapart : (before ++ t :: after).Pairwise (Apart spot))
    (hclear : ∀ a ∈ before ++ t :: after, ∀ b ∈ before ++ t :: after, spot a.path ≠ spot b.staging)
    (hstage : (stage fs [] (before ++ t :: after)).run.run s = (.ok (), s₁))
    (hplace : (place fs [] before).run.run s₁ = (.ok paths, s₂))
    (hrename : (fs.rename t.staging t.path).run s₂ = (.error cause, s₃)) :
    (∀ a ∈ before, node ((discard fs (t :: after)).run s₃).2 (spot a.path) = some (.file a.value)) ∧
      (∀ a ∈ before ++ t :: after,
        node ((discard fs (t :: after)).run s₃).2 (spot a.staging) = none) ∧
      ∀ x, (∀ a ∈ before, x ≠ spot a.path) → (∀ a ∈ before ++ t :: after, x ≠ spot a.staging) →
        node ((discard fs (t :: after)).run s₃).2 x = node s x := by
  obtain ⟨hapartBefore, hapartAfter, hacross⟩ := List.pairwise_append.mp hapart
  have hleft {a : Target} (ha : a ∈ before) : a ∈ before ++ t :: after :=
    List.mem_append_left _ ha
  have hright {a : Target} (ha : a ∈ t :: after) : a ∈ before ++ t :: after :=
    List.mem_append_right _ ha
  have hnode : node s₃ = node s₂ := hfs.rename_error hrename
  have hdirs : DirectoriesStay node s₁ s₃ :=
    (place_directoriesStay hfs hplace).trans (.of_eq hnode)
  -- What is still staged has not been touched by the renames in front of it.
  have hremovable : ∀ a ∈ t :: after, Removable fs spot node s₃ a.staging := by
    intro a ha
    refine (stage_removable hfs hstage hapart a (hright ha)).later hdirs ?_
    rw [hnode]
    exact place_frame hfs.toLawful hplace (fun b hb => (hclear b (hleft hb) a (hright ha)).symm)
      fun b hb => (hacross b hb a ha).2.symm
  obtain ⟨hcleared, hrest⟩ := discard_clears hfs hremovable hapartAfter
  refine ⟨fun a ha => ?_, fun a ha => ?_, fun x hpath hstaging => ?_⟩
  · rw [hrest _ fun b hb => hclear a (hleft ha) b (hright hb), hnode]
    refine place_delivers hfs.toLawful hplace hapartBefore ?_ (fun b hb =>
      stage_holds hfs.toLawful hstage hapart b (hleft hb)) a ha
    exact List.pairwise_of_forall_mem_list fun b hb c hc => hclear b (hleft hb) c (hleft hc)
  · rcases List.mem_append.mp ha with hbefore | hafter
    · rw [hrest _ fun b hb => (hacross a hbefore b hb).2, hnode]
      exact place_loses hfs.toLawful hplace hapartBefore hbefore fun b hb =>
        (hclear b (hleft hb) a ha).symm
    · exact hcleared a hafter
  · rw [hrest x fun b hb => hstaging b (hright hb), hnode,
      place_frame hfs.toLawful hplace hpath fun b hb => hstaging b (hleft hb),
      stage_frame hfs.toLawful hstage hstaging]

end Loops

end MetaRecord.Tool

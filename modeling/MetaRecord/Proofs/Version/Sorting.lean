/-
# `MetaRecord.Proofs.Version.Sorting` — an index brought into order and kept there

The order of versions compares times and identifiers and nothing else, so
different versions may be level: a blob can hold several with one identifier
and one time.  It is total all the same, and a sort by it is stable, so versions
that are level stay as they were stored.

`isSorted` looks at neighbours, an insertion at half of the versions that are
left and a removal at identifiers only.  Each is right about the whole index:
neighbours in order are enough, and an index in order stays so under every
edit, whichever versions share an identifier.

Main statements: `inOrder_sort` and `sort_level`; `inOrder_change`, the step; and
`sorting_and_changes`.
-/
import Mathlib.Data.List.Pairwise
import MetaRecord.Proofs.Version.Codec
import MetaRecord.Proofs.Version.Order

namespace MetaRecord.Version

/-! ## The comparison of a sort -/

/-- `a` may stand in front of `b`. -/
def Entry.mayPrecede (a b : Entry) : Bool := !decide (b.header.sortsBefore a.header)

namespace Entry

theorem mayPrecede_iff {a b : Entry} : a.mayPrecede b = true ↔ ¬ b.header.sortsBefore a.header := by
  rw [mayPrecede, Bool.not_eq_true', decide_eq_false_iff_not]

theorem mayPrecede_trans (a b c : Entry) (hab : a.mayPrecede b = true)
    (hbc : b.mayPrecede c = true) : a.mayPrecede c = true := by
  rw [mayPrecede_iff] at hab hbc ⊢
  exact fun hca => hab (Header.sortsBefore_of_not hbc hca)

theorem mayPrecede_total (a b : Entry) : (a.mayPrecede b || b.mayPrecede a) = true := by
  rw [Bool.or_eq_true, mayPrecede_iff, mayPrecede_iff]
  by_cases h : b.header.sortsBefore a.header
  · exact Or.inr (Header.sortsBefore_asymm h)
  · exact Or.inl h

end Entry

theorem inOrder_iff_pairwise {es : List Entry} :
    InOrder es ↔ es.Pairwise fun a b => a.mayPrecede b = true := by
  simp only [InOrder, Entry.mayPrecede_iff]

namespace Index

variable {index : Index}

/-! ## Sorting -/

theorem sort_entries (index : Index) :
    index.sort.entries = index.entries.mergeSort Entry.mayPrecede := rfl

theorem sort_perm (index : Index) : index.sort.entries.Perm index.entries :=
  List.mergeSort_perm _ _

theorem inOrder_sort (index : Index) : InOrder index.sort.entries := by
  rw [inOrder_iff_pairwise, sort_entries]
  exact List.pairwise_mergeSort Entry.mayPrecede_trans Entry.mayPrecede_total _

theorem sort_of_inOrder (h : InOrder index.entries) : index.sort = index := by
  have hentries : index.sort.entries = index.entries := by
    rw [sort_entries]
    exact List.mergeSort_of_pairwise (inOrder_iff_pairwise.mp h)
  show ({ index with entries := index.sort.entries } : Index) = index
  rw [hentries]

/-- The versions of one time and one identifier, in stored order. -/
def level (index : Index) (modTime : Int64) (id : Id) : List Entry :=
  index.entries.filter fun e => e.header.modTime = modTime ∧ e.header.id = id

theorem mem_level {modTime : Int64} {id : Id} {e : Entry} :
    e ∈ index.level modTime id ↔
      e ∈ index.entries ∧ e.header.modTime = modTime ∧ e.header.id = id := by
  rw [level, List.mem_filter, decide_eq_true_iff]

theorem inOrder_level (index : Index) (modTime : Int64) (id : Id) :
    InOrder (index.level modTime id) := by
  refine List.pairwise_of_forall_mem_list fun a ha b hb => ?_
  obtain ⟨-, hatime, haid⟩ := mem_level.mp ha
  obtain ⟨-, hbtime, hbid⟩ := mem_level.mp hb
  rintro (htime | ⟨-, hid⟩)
  · rw [hatime, hbtime] at htime
    exact Int64.lt_irrefl htime
  · rw [haid, hbid] at hid
    exact List.lt_irrefl _ hid

/-- Versions that are level keep their order. -/
theorem sort_level (index : Index) (modTime : Int64) (id : Id) :
    index.sort.level modTime id = index.level modTime id := by
  -- The list on the right is in order, so the sort has it as a sublist; both
  -- are equally long.
  have hsublist : (index.level modTime id).Sublist index.sort.entries := by
    rw [sort_entries]
    exact List.sublist_mergeSort Entry.mayPrecede_trans Entry.mayPrecede_total
      (inOrder_iff_pairwise.mp (inOrder_level index modTime id)) List.filter_sublist
  have hfilter := hsublist.filter fun e => e.header.modTime = modTime ∧ e.header.id = id
  rw [List.filter_eq_self.mpr fun e he => decide_eq_true (mem_level.mp he).2] at hfilter
  exact (hfilter.eq_of_length ((index.sort_perm.filter _).length_eq.symm)).symm

/-! ## Edits -/

/-- An edit of an index. -/
inductive Change where
  | insert (entry : Entry)
  | remove (id : Id)

/-- The index after one edit. -/
def change (index : Index) : Change → Index
  | .insert entry => index.insert entry
  | .remove id => (index.remove id).2

/-- The index after edits, one after another. -/
def changes (index : Index) (cs : List Change) : Index := cs.foldl change index

theorem inOrder_insert (h : InOrder index.entries) (e : Entry) :
    InOrder (index.insert e).entries := by
  obtain ⟨front, back, hsplit, hinsert, hfront, hback⟩ :=
    exists_insert (inOrder_remove h e.header.id)
  have hothers : InOrder (front ++ back) := hsplit ▸ inOrder_remove h e.header.id
  obtain ⟨hofront, hoback, hacross⟩ := List.pairwise_append.mp hothers
  rw [hinsert]
  refine List.pairwise_append.mpr ⟨hofront, List.pairwise_cons.mpr ⟨hback, hoback⟩, ?_⟩
  intro x hx y hy
  rcases List.mem_cons.mp hy with rfl | hy
  · exact Header.sortsBefore_asymm (hfront x hx)
  · exact hacross x hx y hy

theorem inOrder_change (h : InOrder index.entries) (c : Change) :
    InOrder (index.change c).entries := by
  cases c with
  | insert e => exact inOrder_insert h e
  | remove id => exact inOrder_remove h id

theorem inOrder_changes (h : InOrder index.entries) (cs : List Change) :
    InOrder (index.changes cs).entries := by
  induction cs generalizing index with
  | nil => exact h
  | cons c cs ih => exact ih (inOrder_change h c)

/-- The latest version of an index, if it has any, is one of its versions, and
none sorts before it. -/
theorem latest_of_inOrder (h : InOrder index.entries) (hne : index.entries ≠ []) :
    ∃ latest ∈ index.entries, index.latest? = some latest ∧
      ∀ e ∈ index.entries, ¬ e.header.sortsBefore latest.header := by
  obtain ⟨latest, rest, hentries⟩ := List.exists_cons_of_ne_nil hne
  have hlatest : index.latest? = some latest := by rw [latest?, hentries]; rfl
  exact ⟨latest, hentries ▸ List.mem_cons_self, hlatest,
    (newestFirst_iff.mpr h).2 latest hlatest⟩

/-! ## Both together -/

/-- An index is sorted when no version stands anywhere in front of one that
sorts before it.  Sorting permutes the versions into such an order, leaves
those that are level in the order they had, and leaves a sorted index alone.
From a sorted index, every sequence of edits leads to a sorted index, whose
latest version no other sorts before. -/
theorem sorting_and_changes (index : Index) :
    (index.isSorted = true ↔
      ∀ (i j : Nat) (hi : i < index.entries.length) (hj : j < index.entries.length), i < j →
        ¬ index.entries[j].header.sortsBefore index.entries[i].header) ∧
    (index.sort.entries.Perm index.entries ∧ index.sort.revisions = index.revisions ∧
      index.sort.isSorted = true ∧
      (∀ modTime id, index.sort.level modTime id = index.level modTime id) ∧
      (index.isSorted = true → index.sort = index)) ∧
    (index.isSorted = true → ∀ cs : List Change,
      (index.changes cs).isSorted = true ∧
        ((index.changes cs).entries ≠ [] →
          ∃ latest ∈ (index.changes cs).entries, (index.changes cs).latest? = some latest ∧
            ∀ e ∈ (index.changes cs).entries, ¬ e.header.sortsBefore latest.header)) := by
  refine ⟨isSorted_iff.trans List.pairwise_iff_getElem, ⟨index.sort_perm, rfl,
    isSorted_iff.mpr index.inOrder_sort, index.sort_level, fun h => ?_⟩, fun h cs => ?_⟩
  · exact sort_of_inOrder (isSorted_iff.mp h)
  · have horder := inOrder_changes (isSorted_iff.mp h) cs
    exact ⟨isSorted_iff.mpr horder, latest_of_inOrder horder⟩

/-- Three versions out of order, two of them with one identifier and one time. -/
def shuffled : Index :=
  ⟨.current, [.new (.sample 1 10) [0xa], .new (.sample 2 30) [0xb], .new (.sample 1 10) [0xc]]⟩

theorem sorting_and_changes_shuffled :
    shuffled.isSorted = false ∧ shuffled.sort.isSorted = true ∧
      shuffled.sort.level 10 (Id.repeated 1)
        = [.new (.sample 1 10) [0xa], .new (.sample 1 10) [0xc]] ∧
      (shuffled.sort.changes
        [.insert (.new (.sample 1 20) [0xd]), .remove (Id.repeated 2)]).isSorted = true := by
  obtain ⟨-, ⟨-, -, hsorted, hlevel, -⟩, -⟩ := sorting_and_changes shuffled
  refine ⟨by decide, hsorted, (hlevel _ _).trans (by decide), ?_⟩
  exact ((sorting_and_changes shuffled.sort).2.2 hsorted _).1

end Index

end MetaRecord.Version

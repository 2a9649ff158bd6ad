/-
# `MetaRecord.Proofs.Version.Duplicates` — versions that share an identifier

Edits that start from the empty index never leave two versions with one
identifier.  A blob may hold them all the same: decoding looks at each header
by itself.  `remove` and `insert` find a version by its identifier and take the
first one, so in such an index the next one comes forward.

What matters is the list of the versions that share an identifier, in stored
order.  Removing drops its first element.  Inserting does so too, and puts the
new version among the others at the place its time asks for, which need not be
the first.

Main statement: `remove_insert_sharing`.  `twice_refutes_removal` is a blob of
two versions for which neither edit does all of its work.
-/
import MetaRecord.Proofs.Version.Codec
import MetaRecord.Proofs.Version.Order

namespace MetaRecord.Version.Index

/-- The versions with an identifier, in stored order. -/
def sharing (index : Index) (id : Id) : List Entry :=
  index.entries.filter fun e => e.header.id = id

variable {index : Index} {id other : Id}

theorem find?_eq_head? (index : Index) (id : Id) : index.find? id = (index.sharing id).head? :=
  List.head?_filter.symm

/-! ## Removing -/

theorem sharing_remove (index : Index) (id : Id) :
    (index.remove id).2.sharing id = (index.sharing id).tail := by
  show (index.entries.eraseP _).filter _ = (index.entries.filter _).tail
  induction index.entries with
  | nil => rfl
  | cons e es ih =>
      by_cases hid : e.header.id = id
      · rw [List.eraseP_cons_of_pos (by simpa using hid),
          List.filter_cons_of_pos (by simpa using hid), List.tail_cons]
      · rw [List.eraseP_cons_of_neg (by simpa using hid),
          List.filter_cons_of_neg (by simpa using hid),
          List.filter_cons_of_neg (by simpa using hid), ih]

theorem sharing_remove_of_ne (index : Index) (h : other ≠ id) :
    (index.remove id).2.sharing other = index.sharing other := by
  show (index.entries.eraseP _).filter _ = index.entries.filter _
  induction index.entries with
  | nil => rfl
  | cons e es ih =>
      by_cases hid : e.header.id = id
      · have hother : ¬ e.header.id = other := fun heq => h (heq.symm.trans hid)
        rw [List.eraseP_cons_of_pos (by simpa using hid),
          List.filter_cons_of_neg (by simpa using hother)]
      · rw [List.eraseP_cons_of_neg (by simpa using hid), List.filter_cons, List.filter_cons, ih]

/-- A list without its first element is empty if it had no other. -/
theorem tail_sharing_eq_nil_iff :
    (index.sharing id).tail = [] ↔ (index.sharing id).length ≤ 1 := by
  rw [← List.length_eq_zero_iff, List.length_tail]
  omega

theorem find?_remove_eq_none_iff :
    (index.remove id).2.find? id = none ↔ (index.sharing id).length ≤ 1 := by
  rw [find?_eq_head?, sharing_remove, List.head?_eq_none_iff, tail_sharing_eq_nil_iff]

/-! ## Inserting -/

/-- The new version stands among those that share its identifier, the first of
them left out: behind those that are newer and in front of the others. -/
theorem exists_sharing_insert (h : InOrder index.entries) (e : Entry) :
    ∃ newer older, (index.sharing e.header.id).tail = newer ++ older ∧
      (index.insert e).sharing e.header.id = newer ++ e :: older ∧
      (∀ x ∈ newer, x.header.sortsBefore e.header) ∧
      ∀ x ∈ older, ¬ x.header.sortsBefore e.header := by
  obtain ⟨front, back, hsplit, hinsert, hfront, hback⟩ :=
    exists_insert (inOrder_remove h e.header.id)
  refine ⟨front.filter (fun x => x.header.id = e.header.id),
    back.filter (fun x => x.header.id = e.header.id), ?_, ?_, ?_, ?_⟩
  · rw [← sharing_remove, sharing, hsplit, List.filter_append]
  · rw [sharing, hinsert, List.filter_append, List.filter_cons_of_pos (by simp)]
  · exact fun x hx => hfront x (List.mem_of_mem_filter hx)
  · exact fun x hx => hback x (List.mem_of_mem_filter hx)

theorem find?_insert_eq_some_iff (h : InOrder index.entries) (e : Entry) :
    (index.insert e).find? e.header.id = some e ↔
      ∀ x ∈ (index.sharing e.header.id).tail, ¬ x.header.sortsBefore e.header := by
  obtain ⟨newer, older, htail, hinsert, hnewer, holder⟩ := exists_sharing_insert h e
  rw [find?_eq_head?, hinsert, htail, List.forall_mem_append]
  cases newer with
  | nil => exact ⟨fun _ => ⟨nofun, holder⟩, fun _ => rfl⟩
  | cons x newer =>
      have hx := hnewer x List.mem_cons_self
      constructor
      · intro hfind
        obtain rfl : x = e := Option.some.inj hfind
        exact absurd hx (Header.sortsBefore_irrefl _)
      · exact fun hnone => absurd hx (hnone.1 x List.mem_cons_self)

theorem length_sharing_insert (h : InOrder index.entries) (e : Entry) :
    ((index.insert e).sharing e.header.id).length = 1 ↔
      (index.sharing e.header.id).length ≤ 1 := by
  obtain ⟨newer, older, htail, hinsert, -, -⟩ := exists_sharing_insert h e
  rw [hinsert, ← tail_sharing_eq_nil_iff, htail, List.append_eq_nil_iff]
  simp only [List.length_append, List.length_cons, ← List.length_eq_zero_iff]
  omega

/-! ## Both edits -/

/-- In an index in order, removing an identifier takes out the first version
with it and brings the next one forward, so the identifier is gone exactly when
it had one version at most.  The same decides whether an inserted version is
then the only one with its identifier.  It is the one that is found exactly
when no other that stays is newer. -/
theorem remove_insert_sharing (hsorted : index.isSorted = true) :
    (∀ id, (index.remove id).2.sharing id = (index.sharing id).tail ∧
      (∀ other, other ≠ id → (index.remove id).2.sharing other = index.sharing other) ∧
      ((index.remove id).2.find? id = none ↔ (index.sharing id).length ≤ 1)) ∧
    ∀ e, (((index.insert e).sharing e.header.id).length = 1 ↔
        (index.sharing e.header.id).length ≤ 1) ∧
      ((index.insert e).find? e.header.id = some e ↔
        ∀ x ∈ (index.sharing e.header.id).tail, ¬ x.header.sortsBefore e.header) := by
  have horder := isSorted_iff.mp hsorted
  constructor
  · intro id
    exact ⟨sharing_remove index id, fun _ => sharing_remove_of_ne index, find?_remove_eq_none_iff⟩
  · intro e
    exact ⟨length_sharing_insert horder e, find?_insert_eq_some_iff horder e⟩

/-- Two versions with one identifier, newest first. -/
def twice : Index := ⟨.current, [.new (.sample 1 30) [0xa], .new (.sample 1 10) [0xb]]⟩

/-- A version between the two is found, but it is not the only one. -/
theorem remove_insert_sharing_twice :
    twice.isSorted = true ∧
      (twice.remove (Id.repeated 1)).2.find? (Id.repeated 1) ≠ none ∧
      ((twice.insert (.new (.sample 1 20) [0xc])).sharing (Id.repeated 1)).length ≠ 1 ∧
      (twice.insert (.new (.sample 1 20) [0xc])).find? (Id.repeated 1)
        = some (.new (.sample 1 20) [0xc]) := by
  have hsorted : twice.isSorted = true := by decide
  have hlength : (twice.sharing (Id.repeated 1)).length = 2 := by decide
  obtain ⟨hremove, hinsert⟩ := remove_insert_sharing hsorted
  refine ⟨hsorted, fun hnone => ?_, fun hone => ?_, ?_⟩
  · have := (hremove (Id.repeated 1)).2.2.mp hnone
    omega
  · have : (twice.sharing (Id.repeated 1)).length ≤ 1 :=
      (hinsert (.new (.sample 1 20) [0xc])).1.mp hone
    omega
  · exact (hinsert (.new (.sample 1 20) [0xc])).2.mpr (by decide)

/-- A blob can hold the two versions.  Removing their identifier leaves one of
them, and an older version that is inserted is neither alone nor found. -/
theorem twice_refutes_removal :
    decode twice.encode = .ok twice ∧ twice.isSorted = true ∧
      (twice.remove (Id.repeated 1)).2.find? (Id.repeated 1) = some (.new (.sample 1 10) [0xb]) ∧
      ((twice.insert (.new (.sample 1 5) [0xc])).sharing (Id.repeated 1)).length = 2 ∧
      (twice.insert (.new (.sample 1 5) [0xc])).find? (Id.repeated 1)
        = some (.new (.sample 1 10) [0xb]) := by
  refine ⟨rfl, ?_⟩
  decide +kernel

end MetaRecord.Version.Index

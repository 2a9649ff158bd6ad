/-
# `MetaRecord.Proofs.Record.Rewriting` — the order of a record that is rewritten

An index is newest first when its versions stand in the order that `isSorted`
looks for, and `latest?` takes the first one for the newest.  A record that is
built up from nothing is in this order because each version is inserted at its
place.  One that was read may be in any order: decoding keeps the stored order,
and so do the draft that is made of it, removals and writing.

So a record that was read, relieved of versions and written again has the
versions that remain in the order they were read in, and is newest first
exactly when these were.

Main statement: `removeAll_newestFirst_iff`.  `disordered_stays_disordered` is
a record for which it says no.
-/
import Mathlib.Data.List.Flatten
import Mathlib.Tactic.SplitIfs
import MetaRecord.Proofs.MessagePack.Encoding
import MetaRecord.Proofs.Record.RoundTrip
import MetaRecord.Proofs.Version.Order

namespace MetaRecord

/-! ## The length of a count -/

/-- A larger count is not written in fewer bytes. -/
theorem MessagePack.Write.length_int_mono {m n : Nat} (hmn : m ≤ n) (hn : n < 0x8000000000000000) :
    (Write.int (Int64.ofNat m)).length ≤ (Write.int (Int64.ofNat n)).length := by
  have htoInt : ∀ k < 0x8000000000000000, (Int64.ofNat k).toInt = k :=
    fun k hk => Int64.toInt_ofNat_of_lt (by omega)
  rw [length_int, length_int, htoInt m (by omega), htoInt n hn]
  split_ifs <;> omega

namespace Version.Index

theorem length_encode_remove_le {index : Index} (id : Id)
    (hsize : index.encode.length < 0x100000000) :
    (index.remove id).2.encode.length ≤ index.encode.length := by
  have hsublist : (index.remove id).2.entries.Sublist index.entries := List.eraseP_sublist
  have hentries := (hsublist.flatMap entryBytes).length_le
  have hcount := index.count_le_encode
  have hint := MessagePack.Write.length_int_mono hsublist.length_le (by omega)
  simp only [encode, List.length_append]
  omega

end Version.Index

namespace Record

/-! ## Removing versions one after the other -/

/-- What remains of versions when each identifier takes out the first one with
it. -/
def remaining (ids : List Version.Id) (es : List Version.Entry) : List Version.Entry :=
  ids.foldl (fun es id => es.eraseP fun e => e.header.id = id) es

theorem remaining_sublist (ids : List Version.Id) (es : List Version.Entry) :
    (remaining ids es).Sublist es := by
  induction ids generalizing es with
  | nil => exact List.Sublist.refl es
  | cons id ids ih => exact (ih _).trans List.eraseP_sublist

namespace Draft

def removeAll (ids : List Version.Id) (d : Draft) : Draft :=
  ids.foldl (fun d id => (d.removeVersion id).2) d

variable {d start : Draft} {usable : Inline.Store → Prop}

theorem entries_removeAll (ids : List Version.Id) (d : Draft) :
    (d.removeAll ids).index.entries = remaining ids d.index.entries := by
  induction ids generalizing d with
  | nil => rfl
  | cons id ids ih => exact ih _

theorem Edited.removeAll (h : Edited usable start d) (ids : List Version.Id) :
    Edited usable start (d.removeAll ids) := by
  induction ids generalizing d with
  | nil => exact h
  | cons id ids ih => exact ih (h.removeVersion id)

theorem length_encode_removeAll_le (ids : List Version.Id)
    (hsize : d.index.encode.length < 0x100000000) :
    (d.removeAll ids).index.encode.length ≤ d.index.encode.length := by
  induction ids generalizing d with
  | nil => exact Nat.le_refl _
  | cons id ids ih =>
      have hle : (d.removeVersion id).2.index.encode.length ≤ d.index.encode.length :=
        Version.Index.length_encode_remove_le id hsize
      have hrest := ih (d := (d.removeVersion id).2) (Nat.lt_of_le_of_lt hle hsize)
      exact Nat.le_trans hrest hle

/-! ## Rewriting -/

/-- **A rewritten record is newest first exactly when what is left of it was.**
The record decodes, versions are removed from its draft and it is written
again.  Then the result decodes, has the versions that remain in the order they
were read in, and is newest first exactly when these are.  If the record was
newest first when it was read, it still is. -/
theorem removeAll_newestFirst_iff {buf : Bytes} {r : Record} (h : decode buf = .ok r)
    (hd : r.toDraft? = some d) (hsize : d.index.encode.length < 0x100000000)
    (ids : List Version.Id) :
    ∃ r' index, decode (d.removeAll ids).bytes = .ok r' ∧ r'.index? = some index ∧
      index.entries = remaining ids d.index.entries ∧
      (index.NewestFirst ↔ Version.InOrder (remaining ids d.index.entries)) ∧
      (d.index.NewestFirst → index.NewestFirst) := by
  have hedited : Edited Inline.Store.Obtained d (d.removeAll ids) := Edited.start.removeAll ids
  have hsound := hedited.sound (fun s hs => hs.parse_bytes) (Fresh.decoded h hd).sound
  have hle := length_encode_removeAll_le ids hsize
  have hentries := entries_removeAll ids d
  refine ⟨_, _, hsound.decode_bytes (Nat.lt_of_le_of_lt hle hsize), rfl, hentries, ?_, ?_⟩
  · rw [Version.Index.newestFirst_iff]
    exact iff_of_eq (congrArg Version.InOrder hentries)
  · rw [Version.Index.newestFirst_iff, Version.Index.newestFirst_iff]
    intro horder
    show Version.InOrder (d.removeAll ids).index.entries
    rw [hentries]
    exact horder.sublist (remaining_sublist ids d.index.entries)

/-- Three versions, the oldest in front. -/
def disordered : Draft where
  index := ⟨.current,
    [.new (.sample 1 10) [0xa], .new (.sample 2 30) [0xb], .new (.sample 3 20) [0xc]]⟩
  store := .empty

theorem disordered_sound : disordered.Sound where
  legible := by
    simp only [disordered, List.forall_mem_cons, List.not_mem_nil, false_implies, implies_true,
      and_true]
    exact ⟨Version.Entry.legible_new _ _, Version.Entry.legible_new _ _,
      Version.Entry.legible_new _ _⟩
  parses := rfl

/-- Without the version that is out of place, the others are newest first. -/
theorem removeAll_newestFirst_iff_disordered :
    ¬ disordered.index.NewestFirst ∧
      ∃ r' index, decode (disordered.removeAll [.repeated 1]).bytes = .ok r' ∧
        r'.index? = some index ∧ index.NewestFirst := by
  have hsize : disordered.index.encode.length < 0x100000000 := by decide +kernel
  obtain ⟨r', index, hdecode, hindex, -, hiff, -⟩ := removeAll_newestFirst_iff
    (disordered_sound.decode_bytes hsize) rfl hsize [.repeated 1]
  refine ⟨fun h => absurd h.1 (by decide), r', index, hdecode, hindex, hiff.mpr ?_⟩
  exact Version.Index.isSorted_iff.mp (show (Version.Index.mk .current _).isSorted = true by decide)

/-- Without another one, the record that is written is out of order as the one
that was read: its latest version is older than the one behind it. -/
theorem disordered_stays_disordered :
    ∃ r r' index, decode disordered.bytes = .ok r ∧ r.toDraft? = some disordered ∧
      decode (disordered.removeAll [.repeated 3]).bytes = .ok r' ∧ r'.index? = some index ∧
      index.isSorted = false ∧ index.latest? = some (.new (.sample 1 10) [0xa]) ∧
      index.find? (.repeated 2) = some (.new (.sample 2 30) [0xb]) ∧
      (Version.Header.sample 2 30).sortsBefore (.sample 1 10) := by
  have hedited : Edited (fun _ => False) disordered (disordered.removeAll [.repeated 3]) :=
    Edited.start.removeAll [.repeated 3]
  have hsound := hedited.sound nofun disordered_sound
  refine ⟨_, _, _, disordered_sound.decode_bytes (by decide +kernel), rfl,
    hsound.decode_bytes (by decide +kernel), rfl, ?_⟩
  decide

end Draft

end Record

end MetaRecord

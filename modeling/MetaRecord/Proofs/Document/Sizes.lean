/-
# `MetaRecord.Proofs.Document.Sizes` — what a document says of the inline store

The document lists the inline store as an object, with a member for each key.
An object that is made from entries takes a repeated key for a new value of the
member, so the number that stands under a key is the length of its last value.
A lookup finds the first.  The two tell of the same value as long as no key is
repeated, which the writer sees to and the scan does not.

So every key of the store is listed, and nothing else is; and a number is the
length of what a lookup finds exactly when the first and the last value of the
key have one length.

Main statement: `inline_sizes`.
-/
import MetaRecord.Proofs.Document.Complete
import MetaRecord.Proofs.Inline.Repeats

namespace MetaRecord.Document

open Json (Members)

/-- A store is listed with the length of each key's last value. -/
theorem member?_sizes (store : Inline.Store) (key : String) :
    (sizes store).member? key =
      (store.findLast? key).map fun value => .int (value.length : Int) := by
  rw [sizes, Json.member?_object, Inline.Store.sizes, List.map_map, ← List.map_reverse,
    List.find?_map, Inline.Store.findLast?, Inline.lastOf, Option.map_map, Option.map_map]
  rfl

/-- A store is listed as an object that has its keys for names. -/
theorem sizes_eq_obj (store : Inline.Store) :
    ∃ members : Members, sizes store = .obj members ∧ members.Sorted ∧
      ∀ key, key ∈ members.map (·.1) ↔ key ∈ store.keys := by
  refine ⟨_, rfl, Members.sorted_ofList _, fun key => not_iff_not.mp ?_⟩
  calc
    _ ↔ (sizes store).member? key = none := Members.find?_eq_none_iff.symm
    _ ↔ store.findLast? key = none := by rw [member?_sizes, Option.map_eq_none_iff]
    _ ↔ key ∉ store.keys := Inline.lastOf_eq_none_iff

/-- **A document lists the keys of the inline store, each with the length of its
last value.**  That is the length of the value a lookup finds exactly when the
first and the last value of the key are equally long. -/
theorem inline_sizes {r : Record} {store : Inline.Store} {doc : Json}
    (hstore : r.store? = some store) (hdoc : record r true = .ok doc) :
    ∃ members : Members, doc.member? "Inline" = some (.obj members) ∧ members.Sorted ∧
      (∀ key, key ∈ members.map (·.1) ↔ key ∈ store.keys) ∧
      ∀ key ∈ store.keys, ∃ first last,
        store.find? key = some first ∧ store.findLast? key = some last ∧
        members.find? key = some (.int last.length) ∧
        (members.find? key = some (.int first.length) ↔ first.length = last.length) := by
  obtain ⟨_, -, hinline, -⟩ := member?_record hdoc
  obtain ⟨members, hmembers, hsorted, hkeys⟩ := sizes_eq_obj store
  have hlisted : listed? r true = some store := hstore
  rw [hlisted, Option.map_some, hmembers] at hinline
  refine ⟨members, hinline, hsorted, hkeys, fun key hkey => ?_⟩
  obtain ⟨first, last, hfirst, hlast⟩ := Inline.Store.exists_first_last hkey
  have hnumber : members.find? key = some (.int last.length) := by
    have hmember := member?_sizes store key
    rwa [hmembers, hlast] at hmember
  refine ⟨first, last, hfirst, hlast, hnumber, ?_⟩
  rw [hnumber, Option.some.injEq, Json.int.injEq, Int.ofNat_inj]
  exact eq_comm

/-- A store with two values under the key `a`. -/
def twoValues (first last : Bytes) : Inline.Store := .ofEntries [("a", first), ("a", last)]

/-- A record with null for its metadata and the given store. -/
def nullWith (store : Inline.Store) : Bytes :=
  [0x58, 0x4c, 0x32, 0x20, 1, 0, 1, 0, 0xc4, 1, 0xc0] ++ store.bytes

/-- The two values of a repeated key may be equally long. -/
theorem inline_sizes_equally_long :
    let store := twoValues [1] [3]
    ∃ (r : Record) (doc : Json) (members : Members),
      Record.decode (nullWith store) = .ok r ∧ r.store? = some store ∧
      record r true = .ok doc ∧ doc.member? "Inline" = some (.obj members) ∧
      store.find? "a" = some [1] ∧ members.find? "a" = some (.int 1) := by
  intro store
  let r : Record := ⟨⟨1, 1⟩, .single [0xc0] none store⟩
  have hdecode : Record.decode (nullWith store) = .ok r := by decide +kernel
  have hkey : "a" ∈ store.keys := by decide +kernel
  have hfind : store.find? "a" = some [1] := by decide +kernel
  have hfindLast : store.findLast? "a" = some [3] := by decide +kernel
  obtain ⟨doc, hdoc⟩ : ∃ doc, record r true = .ok doc := ⟨_, rfl⟩
  have hstore : r.store? = some store := rfl
  obtain ⟨members, hmembers, -, -, hnumbers⟩ := inline_sizes hstore hdoc
  obtain ⟨first, last, hfirst, hlast, -, hagree⟩ := hnumbers "a" hkey
  obtain rfl := Option.some.inj (hfirst.symm.trans hfind)
  obtain rfl := Option.some.inj (hlast.symm.trans hfindLast)
  exact ⟨r, doc, members, hdecode, hstore, hdoc, hmembers, hfind, hagree.mpr rfl⟩

/-- If they are not, the number in the document is not the length of what a lookup
finds. -/
theorem inline_sizes_differ :
    let store := twoValues [0x31] [0x32, 0x32]
    ∃ r doc, Record.decode (nullWith store) = .ok r ∧ r.store? = some store ∧
      record r true = .ok doc ∧ doc.member? "Inline" = some (.obj [("a", .int 2)]) ∧
      store.find? "a" = some [0x31] := by
  intro store
  let r : Record := ⟨⟨1, 1⟩, .single [0xc0] none store⟩
  have hdecode : Record.decode (nullWith store) = .ok r := by decide +kernel
  have hsizes : store.sizes = [("a", 1), ("a", 2)] := by decide +kernel
  obtain ⟨doc, hdoc⟩ : ∃ doc, record r true = .ok doc := ⟨_, rfl⟩
  obtain ⟨_, -, hinline, -⟩ := member?_record hdoc
  have hlisted : listed? r true = some store := rfl
  rw [hlisted, Option.map_some, sizes, hsizes] at hinline
  exact ⟨r, doc, hdecode, rfl, hdoc, hinline, by decide +kernel⟩

end MetaRecord.Document

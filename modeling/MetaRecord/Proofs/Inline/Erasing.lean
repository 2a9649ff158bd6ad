/-
# `MetaRecord.Proofs.Inline.Erasing` — a store without some of its keys

Taking keys out writes the store anew from the entries that are left, and looks
at none of them: not whether a key is empty, not whether it came before.  What
comes out is a store all the same, because a scan gives only entries that can be
written, however the store that was scanned was spelled.  So nothing is assumed
here of that store; it may hold a key twice, in either spelling, or bytes behind
its last entry.

A repeated key stays repeated, which sets erasing apart from setting a key
(`Store.insert_shows`): there the entries go through a map, here they do not.

Main statement: `Store.erase_leaves`.
-/
import MetaRecord.Proofs.Inline.Codec

namespace MetaRecord.Inline.Store

variable {key : String}

theorem storable_filter (s : Store) (p : Entry → Bool) :
    (∀ e ∈ s.entries.filter p, Storable e) ∧ (s.entries.filter p).length < 0x100000000 :=
  ⟨fun e he => s.storable_entries e (List.mem_of_mem_filter he),
    Nat.lt_of_le_of_lt (List.length_filter_le _ _) s.length_entries_lt⟩

/-- The entries that are left are those of the other keys, in their order. -/
theorem entries_erase (s : Store) (keys : List String) :
    (s.erase keys).entries = s.entries.filter fun e => e.1 ∉ keys := by
  obtain ⟨hstorable, hlen⟩ := s.storable_filter fun e => e.1 ∉ keys
  exact entries_ofEntries hstorable hlen

theorem find?_erase (s : Store) (keys : List String) (key : String) :
    (s.erase keys).find? key = if key ∈ keys then none else s.find? key := by
  rw [find?, find?, entries_erase, List.find?_filter]
  split
  · next hmem =>
      rw [Option.map_eq_none_iff, List.find?_eq_none]
      intro e _ hfound
      obtain ⟨hkept, hkey⟩ := of_decide_eq_true hfound
      have hkey : e.1 = key := of_decide_eq_true hkey
      exact of_decide_eq_true hkept (hkey ▸ hmem)
  · next hmem =>
      -- a lookup of another key never comes to an entry that was taken out
      congr 2
      funext e
      by_cases hkey : e.1 = key
      · simp [hkey, hmem]
      · simp [hkey]

theorem erase_erase (s : Store) (keys : List String) : (s.erase keys).erase keys = s.erase keys := by
  rw [erase, entries_erase, List.filter_filter]
  simp only [Bool.and_self]
  rfl

/-- **Taking keys out of a store leaves its other entries.**  They keep their
order and their values, repeated keys included; lookups of the keys taken out
find nothing, and other lookups find what they found.  The store counts the
entries that are left, has no bytes when there are none, reads its own bytes
back, and stays as it is when the keys are taken out again. -/
theorem erase_leaves (s : Store) (keys : List String) :
    (s.erase keys).entries = s.entries.filter (fun e => e.1 ∉ keys) ∧
      (∀ key, (s.erase keys).find? key = if key ∈ keys then none else s.find? key) ∧
      (s.erase keys).count = (s.erase keys).entries.length ∧
      ((s.erase keys).bytes = [] ↔ (s.erase keys).entries = []) ∧
      parse (s.erase keys).bytes = .ok (s.erase keys) ∧
      ((s.erase keys).erase keys).bytes = (s.erase keys).bytes := by
  refine ⟨s.entries_erase keys, s.find?_erase keys, ?_, ?_,
    (Obtained.written (.erase s keys)).parse_bytes, by rw [s.erase_erase]⟩
  · rw [entries_erase, erase, count_ofEntries]
  · rw [entries_erase, erase, bytes_ofEntries_eq_nil_iff]

/-- A key that is spelled as a byte string, a repeated key and bytes behind the
last entry: what is left is written anew, with the repeated key twice. -/
example :
    let s : Store := ⟨[0x01, 0x83, 0xc4, 0x01, 0x61, 0xc4, 0x01, 1, 0xa1, 0x62, 0xc4, 0x01, 2,
      0xd9, 0x01, 0x61, 0xc5, 0, 1, 3, 0xff], 3⟩
    parse s.bytes = .ok s ∧ s.entries = [("a", [1]), ("b", [2]), ("a", [3])] ∧
      s.erase ["b"] = ⟨[0x01, 0x82, 0xa1, 0x61, 0xc4, 0x01, 1, 0xa1, 0x61, 0xc4, 0x01, 3], 2⟩ := by
  decide +kernel

end MetaRecord.Inline.Store

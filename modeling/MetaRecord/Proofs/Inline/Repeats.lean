/-
# `MetaRecord.Proofs.Inline.Repeats` — what setting a key does to the others

Nothing keeps a store that was read from holding a key twice: the scan checks
that keys are not empty and nothing else.  A lookup in such a store finds the
first entry of a key.  Setting any key writes the store anew, and the writer
takes a repeated key for a correction of the earlier entry: the last value
stays, in the first place.

So the key that is set reads as it should, and every other key reads as its
last entry, which is what it read before exactly when its first and its last
entry agree.

Main statement: `Store.insert_find?`.
-/
import Mathlib.Data.List.Induction
import MetaRecord.Proofs.Inline.Ordered

namespace MetaRecord.Inline

/-! ## The last entry of a key -/

/-- The value of the last entry with the given key. -/
def lastOf (es : List Entry) (key : String) : Option Bytes :=
  (es.reverse.find? fun e => e.1 = key).map (·.2)

theorem lastOf_concat (es : List Entry) (e : Entry) (key : String) :
    lastOf (es ++ [e]) key = if e.1 = key then some e.2 else lastOf es key := by
  rw [lastOf, lastOf, List.reverse_concat, List.find?_cons]
  by_cases hkey : e.1 = key
  · simp [hkey]
  · simp [hkey]

theorem lastOf_eq_none_iff {es : List Entry} {key : String} :
    lastOf es key = none ↔ key ∉ es.map (·.1) := by
  rw [lastOf, Option.map_eq_none_iff, List.find?_eq_none]
  simp only [List.mem_reverse, decide_eq_true_eq, List.mem_map, not_exists, not_and]

theorem mem_of_lastOf {es : List Entry} {key : String} {value : Bytes}
    (h : lastOf es key = some value) : (key, value) ∈ es := by
  obtain ⟨e, hfind, rfl⟩ := Option.map_eq_some_iff.mp h
  have hkey : e.1 = key :=
    of_decide_eq_true (List.find?_some (p := fun e : Entry => decide (e.1 = key)) hfind)
  rw [← hkey]
  exact List.mem_reverse.mp (List.mem_of_find?_eq_some hfind)

/-- A map made of entries looks a key up to its last value. -/
theorem OrderedMap.lookup_ofEntries (es : List Entry) (key : String) :
    (ofEntries es).lookup key = lastOf es key := by
  induction es using List.reverseRecOn with
  | nil => rfl
  | append_singleton es e ih =>
      have hset : ofEntries (es ++ [e]) = (ofEntries es).set e.1 e.2 := by
        rw [ofEntries, List.foldl_concat, ← ofEntries]
      rw [hset, lastOf_concat, ← ih]
      by_cases hkey : e.1 = key
      · subst hkey
        rw [if_pos rfl]
        exact Function.update_self _ _ _
      · rw [if_neg hkey]
        exact Function.update_of_ne (Ne.symm hkey) _ _

namespace Store

variable {key other : String} {value : Bytes}

/-- The value that a key has in its last entry. -/
def findLast? (s : Store) (key : String) : Option Bytes := lastOf s.entries key

/-- A key of the store has a first value and a last one. -/
theorem exists_first_last {s : Store} (hkey : key ∈ s.keys) :
    ∃ first last, s.find? key = some first ∧ s.findLast? key = some last := by
  have hfirst : s.find? key ≠ none := by
    intro hnone
    rw [find?, Option.map_eq_none_iff, List.find?_eq_none] at hnone
    obtain ⟨e, he, hname⟩ := List.mem_map.mp hkey
    exact hnone e he (decide_eq_true hname)
  have hlast : s.findLast? key ≠ none := fun hnone => lastOf_eq_none_iff.mp hnone hkey
  obtain ⟨first, hfirst⟩ := Option.ne_none_iff_exists'.mp hfirst
  obtain ⟨last, hlast⟩ := Option.ne_none_iff_exists'.mp hlast
  exact ⟨first, last, hfirst, hlast⟩

theorem lastOf_replace (es : List Entry) :
    lastOf (replace key value es) other
      = if other = key then (lastOf es key).map fun _ => value else lastOf es other := by
  induction es using List.reverseRecOn with
  | nil =>
      split
      · rfl
      · rfl
  | append_singleton es e ih =>
      have hconcat : replace key value (es ++ [e])
          = replace key value es ++ [if e.1 = key then (e.1, value) else e] := by
        simp [replace]
      rw [hconcat, lastOf_concat, lastOf_concat, lastOf_concat, ih]
      by_cases hkey : e.1 = key
      · by_cases hother : other = key
        · simp [hkey, hother]
        · simp [hkey, hother, Ne.symm hother]
      · by_cases hother : other = key
        · subst hother
          simp [hkey]
        · simp [hkey, hother]

/-! ## Rewriting -/

/-- The entries that are put together again when a key is set. -/
def rewritten (s : Store) (key : String) (value : Bytes) : List Entry :=
  if key ∈ s.keys then replace key value s.entries
  else replace key value s.entries ++ [(key, value)]

theorem lastOf_rewritten (s : Store) (key other : String) (value : Bytes) :
    lastOf (s.rewritten key value) other
      = if other = key then some value else s.findLast? other := by
  rw [rewritten]
  split
  · next hmem =>
      rw [lastOf_replace]
      refine ite_congr rfl (fun _ => ?_) fun _ => rfl
      cases hlast : lastOf s.entries key with
      | none => exact absurd hmem (lastOf_eq_none_iff.mp hlast)
      | some old => rfl
  · next hmem =>
      rw [lastOf_concat, replace_of_not_mem hmem]
      exact ite_congr (propext eq_comm) (fun _ => rfl) fun _ => rfl

theorem storable_of_mem_rewritten {s : Store} {e : Entry} (hkey : key ≠ "")
    (hkeyLen : (Text.utf8 key).length < 0x100000000) (hvalue : value.length < 0x100000000)
    (he : e ∈ s.rewritten key value) : Storable e := by
  have hset : Storable (key, value) := ⟨hkey, hkeyLen, hvalue⟩
  have hreplaced : ∀ e ∈ replace key value s.entries, Storable e := by
    intro e he
    obtain ⟨old, hold, rfl⟩ := List.mem_map.mp he
    exact (s.storable_entries old hold).replaced key hvalue
  rw [rewritten] at he
  split at he
  · exact hreplaced e he
  · rcases List.mem_append.mp he with he | he
    · exact hreplaced e he
    · rwa [List.mem_singleton.mp he]

/-- Setting a key writes the map of the entries put together, and the store
shows that map while it is within the limits of the format. -/
theorem insert_shows (s : Store) (hkey : key ≠ "")
    (hkeyLen : (Text.utf8 key).length < 0x100000000) (hvalue : value.length < 0x100000000) :
    ∃ t, s.insert key value = .ok t ∧
      (t.count < 0x100000000 → t.Shows (OrderedMap.ofEntries (s.rewritten key value))) := by
  have hstorable : ∀ e ∈ s.rewritten key value, Storable e := fun _ =>
    storable_of_mem_rewritten hkey hkeyLen hvalue
  refine ⟨_, build_of_named fun e he => (hstorable e he).key_ne, fun hcount => ?_⟩
  rw [count_ofEntries] at hcount
  refine Holds.shows ⟨rfl, ⟨hcount, fun e he => ?_⟩, fun hblank => ?_⟩
  · have hlookup := OrderedMap.mem_bindings.mp he
    rw [OrderedMap.lookup_ofEntries] at hlookup
    have he := hstorable _ (mem_of_lastOf hlookup)
    exact ⟨he.key_lt, he.value_lt⟩
  · obtain ⟨e, he, hname⟩ := List.mem_map.mp (OrderedMap.mem_keys_ofEntries.mp hblank)
    exact (hstorable e he).key_ne hname

/-- **A key that is set reads as it was set, and every other key as its last
entry.**  Setting succeeds for any store and any key but the empty one; within
the limits of the format, another key reads as before exactly when the first
and the last of its entries agree. -/
theorem insert_find? (s : Store) (hkey : key ≠ "")
    (hkeyLen : (Text.utf8 key).length < 0x100000000) (hvalue : value.length < 0x100000000) :
    ∃ t, s.insert key value = .ok t ∧
      (t.count < 0x100000000 → t.find? key = some value ∧
        ∀ other, other ≠ key → t.find? other = s.findLast? other ∧
          (t.find? other = s.find? other ↔ s.find? other = s.findLast? other)) := by
  obtain ⟨t, hinsert, hshows⟩ := s.insert_shows hkey hkeyLen hvalue
  refine ⟨t, hinsert, fun hcount => ?_⟩
  have hfind : ∀ other, t.find? other = if other = key then some value else s.findLast? other := by
    intro other
    rw [(hshows hcount).find?, OrderedMap.lookup_ofEntries, lastOf_rewritten]
  refine ⟨by rw [hfind, if_pos rfl], fun other hother => ?_⟩
  rw [hfind, if_neg hother]
  exact ⟨rfl, eq_comm⟩

/-- The bytes of a store with the three values `first`, `second` and `last`
under the keys `a`, `b` and `a`. -/
def repeating (first second last : UInt8) : Bytes :=
  [0x01, 0x83, 0xa1, 0x61, 0xc4, 0x01, first, 0xa1, 0x62, 0xc4, 0x01, second,
    0xa1, 0x61, 0xc4, 0x01, last]

/-- Where the values under a repeated key agree, it reads as before. -/
theorem insert_find?_repeated :
    let s : Store := ⟨repeating 1 2 1, 3⟩
    parse s.bytes = .ok s ∧ s.keys = ["a", "b", "a"] ∧
      ∃ t, s.insert "b" [5] = .ok t ∧ t.find? "b" = some [5] ∧ t.find? "a" = some [1] ∧
        t.find? "a" = s.find? "a" := by
  intro s
  have hvalue : ([5] : Bytes).length < 0x100000000 := by decide
  obtain ⟨t, hinsert, hfind⟩ := s.insert_find? (show "b" ≠ "" by decide) (by decide) hvalue
  have hcount : t.count = 2 := by
    have hcount : (s.insert "b" [5]).toOption.map (·.count) = some 2 := by decide +kernel
    rw [hinsert] at hcount
    exact Option.some.inj hcount
  obtain ⟨hset, hothers⟩ := hfind (by rw [hcount]; decide)
  obtain ⟨hlast, hsame⟩ := hothers "a" (by decide)
  have hfirst : s.find? "a" = some [1] := by decide +kernel
  have hagree : s.find? "a" = s.findLast? "a" := by decide +kernel
  refine ⟨by rfl, by decide +kernel, t, hinsert, hset, ?_, hsame.mpr hagree⟩
  rw [hlast, ← hagree, hfirst]

/-- Where they do not, setting another key changes what it reads. -/
theorem insert_find?_changed :
    let s : Store := ⟨repeating 1 2 3, 3⟩
    parse s.bytes = .ok s ∧ s.find? "a" = some [1] ∧
      ∃ t, s.insert "b" [5] = .ok t ∧ t.count = 2 ∧ t.find? "a" = some [3] := by
  refine ⟨by rfl, by decide +kernel, ?_⟩
  exact ⟨ofEntries [("a", [3]), ("b", [5])], by rfl, by rfl, by decide +kernel⟩

end Store

end MetaRecord.Inline

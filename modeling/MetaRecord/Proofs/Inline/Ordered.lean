/-
# `MetaRecord.Proofs.Inline.Ordered` — a store is a map in order of insertion

A store that is written holds a finite map from keys to values and the order
in which the keys came.  `OrderedMap` is that map on its own, without bytes:
setting a key leaves its place alone or gives it the last one, erasing keeps
the order of the others.  Every operation on a store reads its bytes, edits a
list and writes the bytes anew; `Holds` says that the bytes are those of a
map, and every operation takes both sides along.

No lookup is lost on the way because the keys of a map are distinct.  That is
a proof field of `OrderedMap`, so it is shown once for each operation and
never assumed of a store.

Main statement: `Store.run_ordered`.
-/
import Mathlib.Data.List.Nodup
import Mathlib.Logic.Function.Basic
import MetaRecord.Proofs.Inline.Codec

namespace MetaRecord.Inline

/-! ## Maps in order of insertion -/

/-- A finite map from keys to values and the order of its keys. -/
structure OrderedMap where
  keys : List String
  lookup : String → Option Bytes
  nodup : keys.Nodup
  /-- The keys are those that are looked up to something. -/
  mem_keys (key : String) : key ∈ keys ↔ (lookup key).isSome = true

namespace OrderedMap

def empty : OrderedMap where
  keys := []
  lookup _ := none
  nodup := List.nodup_nil
  mem_keys key := by simp

/-- The map with `key` bound to `value`, in its old place or else in the last. -/
def set (m : OrderedMap) (key : String) (value : Bytes) : OrderedMap where
  keys := if key ∈ m.keys then m.keys else m.keys ++ [key]
  lookup := Function.update m.lookup key (some value)
  nodup := by
    split
    · exact m.nodup
    · next hkey =>
        rw [← List.concat_eq_append]
        exact m.nodup.concat hkey
  mem_keys other := by
    by_cases hother : other = key
    · subst hother
      rw [Function.update_self]
      split
      · simpa
      · simp
    · rw [Function.update_of_ne hother, ← m.mem_keys]
      split
      · rfl
      · simp [hother]

/-- The map without the given keys. -/
def erase (m : OrderedMap) (removed : List String) : OrderedMap where
  keys := m.keys.filter fun key => key ∉ removed
  lookup key := if key ∈ removed then none else m.lookup key
  nodup := m.nodup.filter _
  mem_keys key := by
    rw [List.mem_filter, decide_eq_true_eq, m.mem_keys]
    split
    · next hkey => simp [hkey]
    · next hkey => simp [hkey]

def size (m : OrderedMap) : Nat := m.keys.length

/-- The keys with their values, in order. -/
def bindings (m : OrderedMap) : List Entry :=
  m.keys.filterMap fun key => (m.lookup key).map fun value => (key, value)

/-- The map that a list of entries leaves behind. -/
def ofEntries (es : List Entry) : OrderedMap := es.foldl (fun m e => m.set e.1 e.2) empty

variable {m : OrderedMap}

theorem mem_bindings {e : Entry} : e ∈ m.bindings ↔ m.lookup e.1 = some e.2 := by
  rw [bindings, List.mem_filterMap]
  constructor
  · rintro ⟨key, -, h⟩
    obtain ⟨value, hvalue, rfl⟩ := Option.map_eq_some_iff.mp h
    exact hvalue
  · intro h
    refine ⟨e.1, ?_, by rw [h]; rfl⟩
    rw [m.mem_keys, h]
    rfl

theorem map_fst_bindings (m : OrderedMap) : m.bindings.map (·.1) = m.keys := by
  rw [bindings, List.map_filterMap]
  refine (List.filterMap_congr (g := some) fun key hkey => ?_).trans List.filterMap_some
  obtain ⟨value, hvalue⟩ := Option.isSome_iff_exists.mp ((m.mem_keys key).mp hkey)
  rw [hvalue]
  rfl

theorem ne_of_mem_bindings {e : Entry} (h : "" ∉ m.keys) (he : e ∈ m.bindings) : e.1 ≠ "" := by
  intro hkey
  refine h ?_
  rw [← hkey, ← m.map_fst_bindings]
  exact List.mem_map.mpr ⟨e, he, rfl⟩

theorem mem_keys_set {key other : String} {value : Bytes} :
    other ∈ (m.set key value).keys ↔ other ∈ m.keys ∨ other = key := by
  rw [set]
  split
  · next hkey => exact ⟨Or.inl, fun h => h.elim id fun heq => heq ▸ hkey⟩
  · rw [List.mem_append, List.mem_singleton]

theorem length_bindings (m : OrderedMap) : m.bindings.length = m.size := by
  rw [size, ← m.map_fst_bindings, List.length_map]

theorem bindings_eq_nil_iff : m.bindings = [] ↔ m.keys = [] := by
  rw [← m.map_fst_bindings, List.map_eq_nil_iff]

/-- Looking a key up is searching the bindings for it. -/
theorem find?_bindings (m : OrderedMap) (key : String) :
    (m.bindings.find? fun e => e.1 = key).map (·.2) = m.lookup key := by
  cases hfind : m.bindings.find? fun e => e.1 = key with
  | some e =>
      have hkey : e.1 = key :=
        of_decide_eq_true (List.find?_some (p := fun e : Entry => decide (e.1 = key)) hfind)
      have hlookup := mem_bindings.mp (List.mem_of_find?_eq_some hfind)
      rw [hkey] at hlookup
      exact hlookup.symm
  | none =>
      cases hlookup : m.lookup key with
      | none => rfl
      | some value =>
          have hmem : (key, value) ∈ m.bindings := mem_bindings.mpr hlookup
          exact absurd (decide_eq_true rfl) (List.find?_eq_none.mp hfind _ hmem)

end OrderedMap

/-! ## Lists of entries -/

namespace Store

variable {es : List Entry} {key : String} {value : Bytes}

/-- Entries with another value under a key, wherever the key stands. -/
def replace (key : String) (value : Bytes) (es : List Entry) : List Entry :=
  es.map fun e => if e.1 = key then (e.1, value) else e

theorem set_of_not_mem : ∀ {es : List Entry}, key ∉ es.map (·.1) →
    set key value es = es ++ [(key, value)]
  | [], _ => rfl
  | (k, v) :: es, h => by
      rw [List.map_cons, List.mem_cons, not_or] at h
      rw [set, if_neg fun hk => h.1 hk.symm, set_of_not_mem h.2]
      rfl

theorem replace_of_not_mem (h : key ∉ es.map (·.1)) : replace key value es = es := by
  refine (List.map_congr_left fun e he => ?_).trans (List.map_id es)
  exact if_neg fun hk => h (List.mem_map.mpr ⟨e, he, hk⟩)

theorem set_of_mem : ∀ {es : List Entry}, (es.map (·.1)).Nodup → key ∈ es.map (·.1) →
    set key value es = replace key value es
  | [], _, h => absurd h List.not_mem_nil
  | (k, v) :: es, hnodup, h => by
      obtain ⟨hk, hnodup⟩ := List.nodup_cons.mp hnodup
      rw [set, replace, List.map_cons]
      by_cases hkey : k = key
      · subst hkey
        rw [if_pos rfl, if_pos rfl, ← replace, replace_of_not_mem hk]
      · have hmem : key ∈ es.map (·.1) :=
          (List.mem_cons.mp h).resolve_left fun heq => hkey heq.symm
        rw [if_neg hkey, if_neg hkey, ← replace, set_of_mem hnodup hmem]

/-- Entries with distinct keys stay as they are when they are put in one by
one. -/
theorem foldl_set_of_nodup : ∀ {es acc : List Entry}, ((acc ++ es).map (·.1)).Nodup →
    es.foldl (fun acc e => set e.1 e.2 acc) acc = acc ++ es
  | [], acc, _ => (List.append_nil acc).symm
  | e :: es, acc, h => by
      have hassoc : acc ++ e :: es = (acc ++ [e]) ++ es := by simp
      have hkey : e.1 ∉ acc.map (·.1) := by
        rw [List.map_append, List.map_cons] at h
        exact fun hmem => (List.nodup_append.mp h).2.2 _ hmem _ List.mem_cons_self rfl
      rw [hassoc] at h ⊢
      rw [List.foldl_cons, set_of_not_mem hkey]
      exact foldl_set_of_nodup h

theorem put_of_ne {acc : List Entry} {e : Entry} (h : e.1 ≠ "") :
    put acc e = .ok (set e.1 e.2 acc) := by
  rw [put, if_neg]
  simpa using h

theorem put_eq_error_iff (acc : List Entry) (e : Entry) :
    (∃ cause, put acc e = .error cause) ↔ e.1 = "" := by
  by_cases hkey : e.1 = ""
  · rw [put, hkey]
    exact ⟨fun _ => rfl, fun _ => ⟨_, rfl⟩⟩
  · rw [put_of_ne hkey]
    simp [hkey]

theorem foldlM_put : ∀ {es : List Entry} (acc : List Entry), (∀ e ∈ es, e.1 ≠ "") →
    es.foldlM put acc = .ok (es.foldl (fun acc e => set e.1 e.2 acc) acc)
  | [], _, _ => rfl
  | e :: es, acc, h => by
      rw [List.foldlM_cons, put_of_ne (h e List.mem_cons_self), ok_bind, List.foldl_cons]
      exact foldlM_put _ fun x hx => h x (List.mem_cons_of_mem _ hx)

theorem build_eq_error_iff (es : List Entry) :
    (∃ e, build es = .error e) ↔ ∃ e ∈ es, e.1 = "" := by
  rw [← exists_foldlM_eq_error_iff put_eq_error_iff es [], build]
  cases es.foldlM put [] with
  | error e => exact ⟨fun _ => ⟨_, rfl⟩, fun _ => ⟨_, rfl⟩⟩
  | ok written => simp [Pure.pure, Except.pure, ok_bind]

end Store

namespace OrderedMap

theorem bindings_set (m : OrderedMap) (key : String) (value : Bytes) :
    (m.set key value).bindings = Store.set key value m.bindings := by
  by_cases hkey : key ∈ m.keys
  · rw [Store.set_of_mem (by rw [m.map_fst_bindings]; exact m.nodup)
      (by rw [m.map_fst_bindings]; exact hkey)]
    rw [Store.replace, bindings, bindings, List.map_filterMap]
    simp only [set, if_pos hkey]
    refine List.filterMap_congr fun other hother => ?_
    obtain ⟨old, hold⟩ := Option.isSome_iff_exists.mp ((m.mem_keys other).mp hother)
    by_cases heq : other = key
    · subst heq
      rw [Function.update_self, hold]
      simp
    · rw [Function.update_of_ne heq, hold]
      simp [heq]
  · rw [Store.set_of_not_mem (by rw [m.map_fst_bindings]; exact hkey)]
    rw [bindings, bindings]
    simp only [set, if_neg hkey]
    rw [List.filterMap_append]
    congr 1
    · refine List.filterMap_congr fun other hother => ?_
      rw [Function.update_of_ne]
      rintro rfl
      exact hkey hother
    · simp

theorem bindings_erase (m : OrderedMap) (removed : List String) :
    (m.erase removed).bindings = m.bindings.filter fun e => e.1 ∉ removed := by
  rw [bindings, bindings, List.filter_filterMap, erase, List.filterMap_filter]
  refine List.filterMap_congr fun key _ => ?_
  by_cases hkey : key ∈ removed
  · cases m.lookup key <;> simp [hkey, Option.filter]
  · cases hlookup : m.lookup key <;> simp [hkey, hlookup, Option.filter]

theorem bindings_foldl_set : ∀ (es : List Entry) (m : OrderedMap),
    (es.foldl (fun m e => m.set e.1 e.2) m).bindings
      = es.foldl (fun acc e => Store.set e.1 e.2 acc) m.bindings
  | [], _ => rfl
  | e :: es, m => by
      rw [List.foldl_cons, List.foldl_cons, bindings_foldl_set es, bindings_set]

theorem mem_keys_foldl_set {other : String} : ∀ (es : List Entry) (m : OrderedMap),
    other ∈ (es.foldl (fun m e => m.set e.1 e.2) m).keys
      ↔ other ∈ m.keys ∨ other ∈ es.map (·.1)
  | [], m => by simp
  | e :: es, m => by
      rw [List.foldl_cons, mem_keys_foldl_set es, mem_keys_set, List.map_cons, List.mem_cons,
        or_assoc]

theorem mem_keys_ofEntries {key : String} {es : List Entry} :
    key ∈ (ofEntries es).keys ↔ key ∈ es.map (·.1) := by
  rw [ofEntries, mem_keys_foldl_set]
  exact or_iff_right List.not_mem_nil

end OrderedMap

/-! ## Operations on both sides -/

/-- What a chain of stores starts from. -/
inductive Origin
  | empty
  | built (es : List Entry)

/-- What is done to a store: a key is set, or keys are taken out. -/
inductive Edit
  | set (key : String) (value : Bytes)
  | erase (keys : List String)

def Origin.entries : Origin → List Entry
  | .empty => []
  | .built es => es

/-- An edit that no store can carry out: no key is empty. -/
def Edit.IsBlank : Edit → Prop
  | .set key _ => key = ""
  | .erase _ => False

namespace OrderedMap

def edit (m : OrderedMap) : Edit → OrderedMap
  | .set key value => m.set key value
  | .erase keys => m.erase keys

/-- The map that a chain of edits ends with. -/
def run (o : Origin) (edits : List Edit) : OrderedMap := edits.foldl edit (ofEntries o.entries)

end OrderedMap

namespace Store

def origin : Origin → Except DecodeError Store
  | .empty => .ok empty
  | .built es => build es

def edit (s : Store) : Edit → Except DecodeError Store
  | .set key value => s.insert key value
  | .erase keys => .ok (s.erase keys)

/-- The store that a chain of edits ends with.  Each is made from the bytes of
the one before it. -/
def run (o : Origin) (edits : List Edit) : Except DecodeError Store := do
  edits.foldlM edit (← origin o)

/-- The store says of its entries what the map does, and reads its own bytes
back. -/
structure Shows (s : Store) (m : OrderedMap) : Prop where
  entries : s.entries = m.bindings
  find? : ∀ key, s.find? key = m.lookup key
  count : s.count = m.size
  nodup : s.keys.Nodup
  named : "" ∉ s.keys
  bytes_eq_nil_iff : s.bytes = [] ↔ m.keys = []
  parse : parse s.bytes = .ok s

/-- The bytes of the store are those of the map's bindings, which can be read
back. -/
structure Holds (s : Store) (m : OrderedMap) : Prop where
  written : s = ofEntries m.bindings
  fits : Fits m.bindings
  named : "" ∉ m.keys

namespace Holds

variable {s : Store} {m : OrderedMap}

theorem storable (h : Holds s m) : ∀ e ∈ m.bindings, Storable e := fun e he =>
  ⟨OrderedMap.ne_of_mem_bindings h.named he, (h.fits.2 e he).1, (h.fits.2 e he).2⟩

theorem entries (h : Holds s m) : s.entries = m.bindings := by
  rw [h.written, entries_ofEntries h.storable h.fits.1]

theorem keys (h : Holds s m) : s.keys = m.keys := by
  rw [Store.keys, h.entries, m.map_fst_bindings]

theorem shows (h : Holds s m) : Shows s m where
  entries := h.entries
  find? key := by rw [Store.find?, h.entries, m.find?_bindings]
  count := by rw [h.written, count_ofEntries, m.length_bindings]
  nodup := h.keys ▸ m.nodup
  named := h.keys ▸ h.named
  bytes_eq_nil_iff := by
    rw [h.written, bytes_ofEntries_eq_nil_iff, OrderedMap.bindings_eq_nil_iff]
  parse := by rw [h.written, parse_ofEntries h.storable h.fits.1]

end Holds

/-! ## Each operation -/

variable {s t : Store} {m : OrderedMap}

/-- Building writes the bindings of the map of the entries. -/
theorem build_of_named {es : List Entry} (h : ∀ e ∈ es, e.1 ≠ "") :
    build es = .ok (ofEntries (OrderedMap.ofEntries es).bindings) := by
  rw [build, foldlM_put [] h, OrderedMap.ofEntries, OrderedMap.bindings_foldl_set]
  rfl

/-- Bindings that are built again come out as they are. -/
theorem build_bindings (h : "" ∉ m.keys) : build m.bindings = .ok (ofEntries m.bindings) := by
  rw [build, foldlM_put [] fun _ he => OrderedMap.ne_of_mem_bindings h he, foldl_set_of_nodup]
  · rfl
  · rw [List.nil_append, m.map_fst_bindings]
    exact m.nodup

theorem insert_eq_build (s : Store) (key : String) (value : Bytes) :
    s.insert key value = build (if key ∈ s.keys then replace key value s.entries
      else replace key value s.entries ++ [(key, value)]) := rfl

theorem bindings_set_eq_replace (m : OrderedMap) (key : String) (value : Bytes) :
    (m.set key value).bindings = if key ∈ m.keys then replace key value m.bindings
      else replace key value m.bindings ++ [(key, value)] := by
  rw [m.bindings_set, ← m.map_fst_bindings]
  split
  · next hkey =>
      refine set_of_mem ?_ hkey
      rw [m.map_fst_bindings]
      exact m.nodup
  · next hkey => rw [set_of_not_mem hkey, replace_of_not_mem hkey]

theorem named_keys (s : Store) : "" ∉ s.keys := by
  intro h
  obtain ⟨e, he, hkey⟩ := List.mem_map.mp h
  exact (s.storable_entries e he).key_ne hkey

/-- A scan yields no empty key, so a rewrite fails on the new key alone. -/
theorem insert_eq_error_iff (s : Store) (key : String) (value : Bytes) :
    (∃ e, s.insert key value = .error e) ↔ key = "" := by
  have hreplaced : ¬∃ e ∈ replace key value s.entries, e.1 = "" := by
    rintro ⟨e, he, hblank⟩
    obtain ⟨e₀, he₀, rfl⟩ := List.mem_map.mp he
    refine (s.storable_entries e₀ he₀).key_ne ?_
    split at hblank <;> exact hblank
  rw [insert_eq_build, build_eq_error_iff]
  split
  · next hkey =>
      refine iff_of_false hreplaced ?_
      rintro rfl
      exact s.named_keys hkey
  · simp only [List.mem_append, List.mem_singleton, or_and_right, exists_or, exists_eq_left,
      hreplaced, false_or]

theorem edit_eq_error_iff (s : Store) (edit : Edit) :
    (∃ e, s.edit edit = .error e) ↔ edit.IsBlank := by
  cases edit with
  | set key value => exact s.insert_eq_error_iff key value
  | erase keys => simp [Store.edit, Edit.IsBlank]

theorem origin_eq_error_iff (o : Origin) :
    (∃ e, origin o = .error e) ↔ ∃ e ∈ o.entries, e.1 = "" := by
  cases o with
  | empty => simp [origin, Origin.entries]
  | built es => exact build_eq_error_iff es

theorem run_eq_error_iff (o : Origin) (edits : List Edit) :
    (∃ e, run o edits = .error e)
      ↔ (∃ e ∈ o.entries, e.1 = "") ∨ ∃ edit ∈ edits, edit.IsBlank := by
  rw [run, ← origin_eq_error_iff]
  cases origin o with
  | error e =>
      rw [error_bind]
      exact ⟨fun _ => Or.inl ⟨e, rfl⟩, fun _ => ⟨e, rfl⟩⟩
  | ok s =>
      rw [ok_bind, exists_foldlM_eq_error_iff edit_eq_error_iff]
      simp

theorem origin_holds {o : Origin} (horigin : origin o = .ok s)
    (hfits : Fits (OrderedMap.ofEntries o.entries).bindings) :
    Holds s (OrderedMap.ofEntries o.entries) := by
  cases o with
  | empty =>
      obtain rfl := Except.ok.inj horigin
      exact ⟨rfl, hfits, List.not_mem_nil⟩
  | built es =>
      have hblank : ¬∃ e ∈ es, e.1 = "" := fun h => by
        obtain ⟨e, he⟩ := (build_eq_error_iff es).mpr h
        exact absurd (horigin.symm.trans he) (by simp)
      have hnamed : ∀ e ∈ es, e.1 ≠ "" := fun e he hkey => hblank ⟨e, he, hkey⟩
      refine ⟨(Except.ok.inj ((build_of_named hnamed).symm.trans horigin)).symm, hfits, ?_⟩
      rw [Origin.entries, OrderedMap.mem_keys_ofEntries]
      exact fun h => hblank (List.exists_of_mem_map h)

namespace Holds

theorem insert {key : String} {value : Bytes} (h : Holds s m)
    (hinsert : s.insert key value = .ok t) (hfits : Fits (m.set key value).bindings) :
    Holds t (m.set key value) := by
  have hkey : key ≠ "" := fun hblank => by
    obtain ⟨e, he⟩ := (insert_eq_error_iff s key value).mpr hblank
    exact absurd (hinsert.symm.trans he) (by simp)
  have hnamed : "" ∉ (m.set key value).keys := by
    rw [OrderedMap.mem_keys_set]
    exact not_or.mpr ⟨h.named, hkey.symm⟩
  rw [insert_eq_build, h.keys, h.entries, ← bindings_set_eq_replace, build_bindings hnamed]
    at hinsert
  exact ⟨(Except.ok.inj hinsert).symm, hfits, hnamed⟩

theorem erase (h : Holds s m) (keys : List String) : Holds (s.erase keys) (m.erase keys) where
  written := by rw [Store.erase, h.entries, m.bindings_erase]
  fits := by
    rw [m.bindings_erase]
    exact ⟨Nat.lt_of_le_of_lt (List.length_filter_le _ _) h.fits.1,
      fun e he => h.fits.2 e (List.mem_filter.mp he).1⟩
  named hblank := h.named (List.mem_filter.mp hblank).1

theorem edit {edit : Edit} (h : Holds s m) (hedit : s.edit edit = .ok t)
    (hfits : Fits (m.edit edit).bindings) : Holds t (m.edit edit) := by
  cases edit with
  | set key value => exact h.insert hedit hfits
  | erase keys =>
      obtain rfl := Except.ok.inj hedit
      exact h.erase keys

theorem run : ∀ {edits : List Edit} {s : Store} {m : OrderedMap}, Holds s m →
    edits.foldlM Store.edit s = .ok t →
    (∀ n, Fits ((edits.take n).foldl OrderedMap.edit m).bindings) →
    Holds t (edits.foldl OrderedMap.edit m)
  | [], _, _, h, hrun, _ => by
      obtain rfl := Except.ok.inj hrun
      exact h
  | edit :: edits, s, m, h, hrun, hfits => by
      -- the store that the first edit gives holds the map that it gives
      rw [List.foldlM_cons] at hrun
      obtain ⟨s', hedit, hrest⟩ := bind_eq_ok.mp hrun
      rw [List.foldl_cons]
      exact run (h.edit hedit (hfits 1)) hrest fun n => hfits (n + 1)

end Holds

/-- An inline store is a map in order of insertion: a chain of operations
fails if one of them is given an empty key, and otherwise ends with a store
that shows what the same operations make of the map.  The maps on the way must
be within the limits of the format. -/
theorem run_ordered (o : Origin) (edits : List Edit) :
    ((∃ e, run o edits = .error e)
      ↔ (∃ e ∈ o.entries, e.1 = "") ∨ ∃ edit ∈ edits, edit.IsBlank) ∧
    ∀ s, run o edits = .ok s → (∀ n, Fits (OrderedMap.run o (edits.take n)).bindings) →
      s.Shows (OrderedMap.run o edits) := by
  refine ⟨run_eq_error_iff o edits, fun s hrun hfits => ?_⟩
  obtain ⟨s₀, horigin, hedits⟩ := bind_eq_ok.mp hrun
  exact ((origin_holds horigin (hfits 0)).run hedits hfits).shows

theorem run_ordered_three_edits :
    let origin := Origin.built [("a", [1]), ("b", [2]), ("a", [3])]
    let edits := [Edit.set "c" [4], .set "b" [5], .erase ["a", "d"]]
    ∃ s, run origin edits = .ok s ∧ s.Shows (OrderedMap.run origin edits) ∧
      s.keys = ["b", "c"] ∧ s.find? "b" = some [5] := by
  intro origin edits
  have hfits : ∀ n, Fits (OrderedMap.run origin (edits.take n)).bindings
    | 0 | 1 | 2 | 3 => by decide +kernel
    | n + 4 => show Fits (OrderedMap.run origin edits).bindings by decide +kernel
  obtain ⟨hfails, hshows⟩ := run_ordered origin edits
  cases hrun : run origin edits with
  | error e =>
      have hfailed := hfails.mp ⟨e, hrun⟩
      exact absurd hfailed (by simp [origin, edits, Origin.entries, Edit.IsBlank])
  | ok s =>
      have hs := hshows s hrun hfits
      refine ⟨s, rfl, hs, ?_, ?_⟩
      · rw [keys, hs.entries]
        decide +kernel
      · rw [hs.find?]
        decide +kernel

end Store

end MetaRecord.Inline

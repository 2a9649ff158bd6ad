/-
# `MetaRecord.Proofs.Inline.Codec` — inline stores are read back, or found cut

The bytes of a store are not framed: a store ends where its record ends.  So
two things have to hold of the bytes that `Store.ofEntries` writes.  Whole,
they parse to the store they belong to; cut anywhere but before their first
byte, they fail, and the failure says that bytes are missing.

Both need the entries to be `Storable`: a key that is not empty, and lengths
that can be written.  Nothing has to be assumed about where entries come from,
for the scan yields no others, so the stores that editing makes from any store
at all are covered.  `Written` collects the three operations that write a
store, with the limits at which they refuse to run, and `Obtained` adds the
stores that were read.

Only the version byte can say that a store is newer.  A store that parses has
a known one, so what is left of it after a cut fails, if at all, as damaged.

Main statements: `parse_ofEntries`, `parse_cut`, `Written.exists_entries`,
`Obtained.parse_bytes` and `isUnsupported_of_parse_append`.
-/
import MetaRecord.Inline.Store
import MetaRecord.Proofs.MessagePack.Spelling

namespace MetaRecord.Inline

open MessagePack (Read ReadError Spells)

/-! ## Entries -/

/-- An entry that a store can hold. -/
structure Storable (e : Entry) : Prop where
  key_ne : e.1 ≠ ""
  key_lt : (Text.utf8 e.1).length < 0x100000000
  value_lt : e.2.length < 0x100000000

/-- What setting a key makes of an entry can be stored again. -/
theorem Storable.replaced {e : Entry} {value : Bytes} (he : Storable e) (key : String)
    (hvalue : value.length < 0x100000000) : Storable (if e.1 = key then (e.1, value) else e) := by
  split
  · exact ⟨he.key_ne, he.key_lt, hvalue⟩
  · exact he

/-- The store's bytes ended before the store did. -/
def IsCut (e : DecodeError) : Prop := ∃ cause, e = .malformedInline cause ∧ cause.IsShort

theorem Spells.inlined {α : Type} {r : Read α} {p : Bytes} {a : α}
    (h : Spells ReadError.IsShort r p a) : Spells IsCut (inlined r) p a :=
  h.mapError fun e he => ⟨e, rfl, he⟩

theorem utf8_isEmpty {s : String} : (Text.utf8 s).isEmpty = true ↔ s = "" := by
  rw [List.isEmpty_iff]
  exact ⟨fun h => Text.utf8_injective h, fun h => by rw [h]; rfl⟩

theorem spells_readEntry (i : Nat) {e : Entry} (he : Storable e) :
    Spells IsCut (readEntry i) (Store.entryBytes e) e := by
  have hkey : ¬ (Text.utf8 e.1).isEmpty = true := fun h => he.key_ne (utf8_isEmpty.mp h)
  refine (Spells.inlined (Spells.mapKey he.key_lt)).bind ?_
  simp only [if_neg hkey, Text.ofUtf8?_utf8]
  rw [← List.append_nil (MessagePack.Write.bin e.2)]
  exact (Spells.inlined (Spells.bin he.value_lt)).bind (Spells.done (a := e))

theorem readEntry_eq_ok {i : Nat} {buf rest : Bytes} {e : Entry}
    (h : readEntry i buf = .ok (e, rest)) :
    e.1 ≠ "" ∧ ∃ mid, Read.mapKey buf = .ok (Text.utf8 e.1, mid) ∧
      Read.bin mid = .ok (e.2, rest) := by
  obtain ⟨⟨bytes, mid⟩, hkey, h⟩ := bind_eq_ok.mp h
  dsimp only at h
  split at h
  · exact absurd (bind_eq_ok.mp h) (fun ⟨_, h, _⟩ => throw_ne_ok h)
  · next hne =>
      cases hs : Text.ofUtf8? bytes with
      | none =>
          rw [hs] at h
          exact absurd h throw_ne_ok
      | some key =>
          rw [hs] at h
          obtain ⟨⟨value, rest'⟩, hvalue, h⟩ := bind_eq_ok.mp h
          obtain ⟨rfl, rfl⟩ := Prod.mk.inj (Except.ok.inj h)
          obtain rfl := Text.ofUtf8?_eq_some_iff.mp hs
          exact ⟨fun hk => hne (utf8_isEmpty.mpr hk), mid, mapError_eq_ok.mp hkey,
            mapError_eq_ok.mp hvalue⟩

/-- The scan yields no entry that could not be written again. -/
theorem storable_of_readEntry {i : Nat} {buf rest : Bytes} {e : Entry}
    (h : readEntry i buf = .ok (e, rest)) : Storable e := by
  obtain ⟨hne, mid, hkey, hvalue⟩ := readEntry_eq_ok h
  exact ⟨hne, Read.length_of_mapKey hkey, Read.length_of_bin hvalue⟩

theorem readEntries_append :
    ∀ {es : List Entry} (i : Nat) (acc : List Entry) (rest : Bytes),
      (∀ e ∈ es, Storable e) →
      readEntries es.length i acc (es.flatMap Store.entryBytes ++ rest)
        = ⟨acc.reverse ++ es, none⟩
  | [], _, acc, _, _ => by simp [readEntries]
  | e :: es, i, acc, rest, h => by
      have hread := (spells_readEntry i (h e List.mem_cons_self)).whole
        (es.flatMap Store.entryBytes ++ rest)
      rw [List.flatMap_cons, List.append_assoc, List.length_cons, readEntries, hread]
      dsimp only
      rw [readEntries_append (i + 1) (e :: acc) rest fun x hx => h x (List.mem_cons_of_mem _ hx)]
      simp

/-- A cut inside the bytes of the entries is found where it is: the entries in
front of it are read, and the one it falls in fails. -/
theorem readEntries_cut :
    ∀ {es : List Entry} (i : Nat) (acc : List Entry) {q t : Bytes},
      (∀ e ∈ es, Storable e) → q ++ t = es.flatMap Store.entryBytes → t ≠ [] →
      ∃ e, (readEntries es.length i acc q).failure = some e ∧ IsCut e
  | [], _, _, _, _, _, hs, ht => absurd (List.append_eq_nil_iff.mp hs).2 ht
  | e :: es, i, acc, q, t, h, hs, ht => by
      have hread := spells_readEntry i (h e List.mem_cons_self)
      rw [List.flatMap_cons] at hs
      rcases Bytes.cut_append hs with ⟨t₁, hq, ht₁⟩ | ⟨q₂, rfl, hq₂⟩
      · obtain ⟨cause, hcause, hcut⟩ := hread.cut hq ht₁
        refine ⟨cause, ?_, hcut⟩
        rw [List.length_cons, readEntries, hcause]
      · rw [List.length_cons, readEntries, hread.whole]
        exact readEntries_cut (i + 1) (e :: acc)
          (fun x hx => h x (List.mem_cons_of_mem _ hx)) hq₂ ht

theorem readEntries_found :
    ∀ (n i : Nat) {acc : List Entry} (buf : Bytes), (∀ e ∈ acc, Storable e) →
      (∀ e ∈ (readEntries n i acc buf).entries, Storable e) ∧
        (readEntries n i acc buf).entries.length ≤ acc.length + n
  | 0, _, acc, _, h => by
      refine ⟨fun e he => h e (List.mem_reverse.mp he), ?_⟩
      simp [readEntries]
  | n + 1, i, acc, buf, h => by
      rw [readEntries]
      split
      · next e rest hread =>
          have hacc : ∀ x ∈ e :: acc, Storable x := by
            intro x hx
            rcases List.mem_cons.mp hx with rfl | hx
            · exact storable_of_readEntry hread
            · exact h x hx
          obtain ⟨hall, hlen⟩ := readEntries_found n (i + 1) rest hacc
          refine ⟨hall, ?_⟩
          rw [List.length_cons] at hlen
          omega
      · refine ⟨fun e he => h e (List.mem_reverse.mp he), ?_⟩
        simp

theorem Scan.remaining_lt_of_start {buf : Bytes} {s : Scan} (h : Scan.start buf = .ok s) :
    s.remaining < 0x100000000 := by
  simp only [Scan.start] at h
  split at h
  · obtain rfl := Except.ok.inj h
    decide
  · split at h
    · obtain rfl := Except.ok.inj h
      decide
    · split at h
      · obtain ⟨⟨count, rest⟩, -, h⟩ := bind_eq_ok.mp h
        obtain rfl := Except.ok.inj h
        exact count.toNat_lt
      · exact absurd h (by simp)

namespace Store

theorem storable_scanAll (buf : Bytes) :
    (∀ e ∈ (scanAll buf).entries, Storable e) ∧ (scanAll buf).entries.length < 0x100000000 := by
  have hnothing : ∀ e ∈ ([] : List Entry), Storable e := fun e he => absurd he List.not_mem_nil
  rw [scanAll]
  split
  · next s hs =>
      obtain ⟨hall, hlen⟩ := readEntries_found s.remaining s.index s.rest hnothing
      rw [List.length_nil, Nat.zero_add] at hlen
      exact ⟨hall, Nat.lt_of_le_of_lt hlen (Scan.remaining_lt_of_start hs)⟩
  · exact ⟨hnothing, Nat.zero_lt_succ _⟩

theorem storable_entries (s : Store) : ∀ e ∈ s.entries, Storable e := (storable_scanAll s.bytes).1

theorem length_entries_lt (s : Store) : s.entries.length < 0x100000000 :=
  (storable_scanAll s.bytes).2

/-! ## Stores that are written -/

section Written

variable {es : List Entry}

theorem bytes_ofEntries_cons (e : Entry) (es : List Entry) :
    (ofEntries (e :: es)).bytes = currentVersion ::
      (MessagePack.Write.mapLength (UInt32.ofNat (e :: es).length) ++
        (e :: es).flatMap entryBytes) := rfl

theorem bytes_ofEntries_eq_nil_iff (es : List Entry) : (ofEntries es).bytes = [] ↔ es = [] := by
  cases es with
  | nil => exact ⟨fun _ => rfl, fun _ => rfl⟩
  | cons e es => simp [bytes_ofEntries_cons]

theorem scanAll_version_append (n : UInt32) (rest : Bytes) :
    scanAll (currentVersion :: (MessagePack.Write.mapLength n ++ rest))
      = readEntries n.toNat 0 [] rest := by
  have hstart : Scan.start (currentVersion :: (MessagePack.Write.mapLength n ++ rest))
      = .ok ⟨rest, 0, n.toNat, false⟩ := by
    show (inlined Read.mapLength (MessagePack.Write.mapLength n ++ rest) >>= _) = _
    rw [(Spells.inlined (Spells.mapLength n)).whole, ok_bind]
    rfl
  rw [scanAll, hstart]

theorem scanAll_version_cut {n : UInt32} {q t : Bytes}
    (hs : q ++ t = MessagePack.Write.mapLength n) (ht : t ≠ []) :
    ∃ e, scanAll (currentVersion :: q) = ⟨[], some e⟩ ∧ IsCut e := by
  obtain ⟨cause, hcause, hcut⟩ := (Spells.inlined (Spells.mapLength n)).cut hs ht
  have hstart : Scan.start (currentVersion :: q) = .error cause := by
    show (inlined Read.mapLength q >>= _) = _
    rw [hcause, error_bind]
  refine ⟨cause, ?_, hcut⟩
  rw [scanAll, hstart]

theorem parse_eq_error {buf : Bytes} {e : DecodeError} (h : (scanAll buf).failure = some e) :
    parse buf = .error e := by
  dsimp only [parse]
  rw [h]

theorem scanAll_ofEntries (h : ∀ e ∈ es, Storable e) (hlen : es.length < 0x100000000) :
    scanAll (ofEntries es).bytes = ⟨es, none⟩ := by
  cases es with
  | nil => rfl
  | cons e es =>
      have hread := readEntries_append 0 [] [] h
      rw [List.append_nil] at hread
      rw [bytes_ofEntries_cons, scanAll_version_append, UInt32.toNat_ofNat_of_lt' hlen, hread]
      rfl

theorem entries_ofEntries (h : ∀ e ∈ es, Storable e) (hlen : es.length < 0x100000000) :
    (ofEntries es).entries = es :=
  congrArg Found.entries (scanAll_ofEntries h hlen)

theorem count_ofEntries (es : List Entry) : (ofEntries es).count = es.length := by
  cases es <;> rfl

theorem parse_ofEntries (h : ∀ e ∈ es, Storable e) (hlen : es.length < 0x100000000) :
    parse (ofEntries es).bytes = .ok (ofEntries es) := by
  rw [parse, scanAll_ofEntries h hlen]
  dsimp only
  rw [← count_ofEntries]

/-- A store that was written and then cut does not parse, unless nothing of it
is left: no bytes are a store as well. -/
theorem parse_cut {q t : Bytes} (h : ∀ e ∈ es, Storable e) (hlen : es.length < 0x100000000)
    (hs : q ++ t = (ofEntries es).bytes) (hq : q ≠ []) (ht : t ≠ []) :
    ∃ e, parse q = .error e ∧ IsCut e := by
  cases es with
  | nil => exact absurd (List.append_eq_nil_iff.mp hs).1 hq
  | cons e es =>
      obtain ⟨b, body, rfl⟩ := List.exists_cons_of_ne_nil hq
      rw [bytes_ofEntries_cons] at hs
      obtain ⟨rfl, hbody⟩ := List.cons.inj hs
      rcases Bytes.cut_append hbody with ⟨t₁, hp, ht₁⟩ | ⟨q₂, rfl, hq₂⟩
      · obtain ⟨cause, hcause, hcut⟩ := scanAll_version_cut hp ht₁
        exact ⟨cause, parse_eq_error (by rw [hcause]), hcut⟩
      · obtain ⟨cause, hcause, hcut⟩ := readEntries_cut 0 [] h hq₂ ht
        refine ⟨cause, parse_eq_error ?_, hcut⟩
        rw [scanAll_version_append, UInt32.toNat_ofNat_of_lt' hlen, hcause]

end Written

/-! ## Where stores come from -/

/-- Entries that can be written as one store: their number and the lengths of
their keys and values are below 2³².  Writing others is refused outright. -/
def Fits (es : List Entry) : Prop :=
  es.length < 0x100000000 ∧
    ∀ e ∈ es, (Text.utf8 e.1).length < 0x100000000 ∧ e.2.length < 0x100000000

instance (es : List Entry) : Decidable (Fits es) := inferInstanceAs (Decidable (_ ∧ _))

/-- A store that was written: built from entries, or made from any store by
setting a key or by taking keys out. -/
inductive Written : Store → Prop
  | build {es written : List Entry} {s : Store} : build es = .ok s →
      es.foldlM put [] = .ok written → Fits written → Written s
  | insert {s₀ s : Store} {key : String} {value : Bytes} : s₀.insert key value = .ok s →
      (Text.utf8 key).length < 0x100000000 → value.length < 0x100000000 →
      s.count < 0x100000000 → Written s
  | erase (s₀ : Store) (keys : List String) : Written (s₀.erase keys)

/-- A store that was written or read. -/
inductive Obtained : Store → Prop
  | parsed {buf : Bytes} {s : Store} : parse buf = .ok s → Obtained s
  | written {s : Store} : Written s → Obtained s

theorem mem_set {key : String} {value : Bytes} {e : Entry} :
    ∀ {es : List Entry}, e ∈ set key value es → e = (key, value) ∨ e ∈ es
  | [], h => Or.inl (List.mem_singleton.mp h)
  | (k, v) :: es, h => by
      rw [set] at h
      split at h
      · next hk =>
          rcases List.mem_cons.mp h with rfl | h
          · exact Or.inl (by rw [hk])
          · exact Or.inr (List.mem_cons_of_mem _ h)
      · rcases List.mem_cons.mp h with rfl | h
        · exact Or.inr List.mem_cons_self
        · rcases mem_set h with rfl | h
          · exact Or.inl rfl
          · exact Or.inr (List.mem_cons_of_mem _ h)

theorem put_eq_ok {acc acc' : List Entry} {e : Entry} (h : put acc e = .ok acc') :
    e.1 ≠ "" ∧ acc' = set e.1 e.2 acc := by
  rw [put] at h
  split at h
  · exact absurd h (by simp)
  · next hne =>
      refine ⟨fun he => hne ?_, (Except.ok.inj h).symm⟩
      rw [he]
      rfl

theorem foldlM_put_invariant {p : Entry → Prop} :
    ∀ {es acc written : List Entry}, es.foldlM put acc = .ok written → (∀ e ∈ acc, p e) →
      (∀ e ∈ es, e.1 ≠ "" → p e) → ∀ e ∈ written, p e
  | [], _, _, h, hacc, _ => by
      obtain rfl := Except.ok.inj h
      exact hacc
  | e :: es, acc, written, h, hacc, hes => by
      rw [List.foldlM_cons] at h
      obtain ⟨acc', hput, h⟩ := bind_eq_ok.mp h
      obtain ⟨hne, rfl⟩ := put_eq_ok hput
      refine foldlM_put_invariant h ?_ fun x hx => hes x (List.mem_cons_of_mem _ hx)
      intro x hx
      rcases mem_set hx with rfl | hx
      · exact hes e List.mem_cons_self hne
      · exact hacc x hx

theorem build_eq_ok {es : List Entry} {s : Store} (h : build es = .ok s) :
    ∃ written, es.foldlM put [] = .ok written ∧ s = ofEntries written := by
  obtain ⟨written, hw, h⟩ := bind_eq_ok.mp h
  exact ⟨written, hw, (Except.ok.inj h).symm⟩

theorem Written.exists_entries {s : Store} (h : Written s) :
    ∃ es, (∀ e ∈ es, Storable e) ∧ es.length < 0x100000000 ∧ s = ofEntries es := by
  have hnil : ∀ {p : Entry → Prop}, ∀ e ∈ ([] : List Entry), p e :=
    fun e he => absurd he List.not_mem_nil
  cases h with
  | @build es written s hb hw hfits =>
      obtain ⟨_, hw', rfl⟩ := build_eq_ok hb
      obtain rfl := Except.ok.inj (hw'.symm.trans hw)
      have hne := foldlM_put_invariant (p := fun e => e.1 ≠ "") hw hnil fun _ _ hne => hne
      exact ⟨_, fun e he => ⟨hne e he, (hfits.2 e he).1, (hfits.2 e he).2⟩, hfits.1, rfl⟩
  | @insert s₀ s key value hi hkey hvalue hcount =>
      obtain ⟨written, hw, rfl⟩ := build_eq_ok hi
      rw [count_ofEntries] at hcount
      refine ⟨written, foldlM_put_invariant hw hnil ?_, hcount, rfl⟩
      intro e he hne
      generalize hr : s₀.entries.map _ = replaced at he
      have hreplaced : ∀ x ∈ replaced, Storable x := by
        subst hr
        intro x hx
        obtain ⟨e, he, rfl⟩ := List.mem_map.mp hx
        exact (s₀.storable_entries e he).replaced key hvalue
      split at he
      · exact hreplaced e he
      · rcases List.mem_append.mp he with he | he
        · exact hreplaced e he
        · obtain rfl := List.mem_singleton.mp he
          exact ⟨hne, hkey, hvalue⟩
  | erase s₀ keys =>
      refine ⟨_, fun e he => s₀.storable_entries e (List.mem_filter.mp he).1, ?_, rfl⟩
      exact Nat.lt_of_le_of_lt (List.length_filter_le _ _) s₀.length_entries_lt

theorem parse_bytes {buf : Bytes} {s : Store} (h : parse buf = .ok s) : s.bytes = buf := by
  dsimp only [parse] at h
  split at h
  · obtain rfl := Except.ok.inj h
    rfl
  · exact absurd h (by simp)

theorem Obtained.parse_bytes {s : Store} (h : Obtained s) : parse s.bytes = .ok s := by
  cases h with
  | parsed h => rw [Store.parse_bytes h, h]
  | written h =>
      obtain ⟨es, hall, hlen, rfl⟩ := h.exists_entries
      exact parse_ofEntries hall hlen

end Store

/-! ## Failures

The first byte alone can say that a store is newer.  Behind it, whatever goes
wrong is damage. -/

theorem isUnsupported_of_inlined {α : Type} {r : Read α} {buf : Bytes} {e : DecodeError}
    (h : inlined r buf = .error e) : e.isUnsupported = false := by
  obtain ⟨cause, -, rfl⟩ := mapError_eq_error.mp h
  rfl

theorem isUnsupported_of_readEntry {i : Nat} {buf : Bytes} {e : DecodeError}
    (h : readEntry i buf = .error e) : e.isUnsupported = false := by
  rcases bind_eq_error.mp h with h | ⟨⟨key, mid⟩, -, h⟩
  · exact isUnsupported_of_inlined h
  · dsimp only at h
    split at h
    · obtain rfl := Except.error.inj h
      rfl
    · cases hs : Text.ofUtf8? key with
      | none =>
          rw [hs] at h
          obtain rfl := Except.error.inj h
          rfl
      | some key =>
          rw [hs] at h
          rcases bind_eq_error.mp h with h | ⟨_, -, h⟩
          · exact isUnsupported_of_inlined h
          · exact absurd h (by simp [Pure.pure, Except.pure])

theorem isUnsupported_of_readEntries {e : DecodeError} :
    ∀ (n i : Nat) {acc : List Entry} (buf : Bytes),
      (readEntries n i acc buf).failure = some e → e.isUnsupported = false
  | 0, _, _, _, h => absurd h (by simp [readEntries])
  | n + 1, i, acc, buf, h => by
      rw [readEntries] at h
      split at h
      · exact isUnsupported_of_readEntries n (i + 1) _ h
      · next cause hread =>
          obtain rfl := Option.some.inj h
          exact isUnsupported_of_readEntry hread

namespace Store

theorem scanAll_failure {buf : Bytes} {e : DecodeError} (h : parse buf = .error e) :
    (scanAll buf).failure = some e := by
  dsimp only [parse] at h
  split at h
  · exact absurd h (by simp)
  · next cause hcause =>
      rw [hcause, Except.error.inj h]

theorem parse_unknown_version {v : UInt8} (body : Bytes) (hv : currentVersion < v) :
    parse (v :: body) = .error (.unknownInlineVersion v) := by
  have hv' : 1 < v.toNat := UInt8.lt_iff_toNat_lt.mp hv
  have hstart : Scan.start (v :: body) = .error (.unknownInlineVersion v) := by
    dsimp only [Scan.start]
    rw [if_neg, if_neg]
    · exact UInt8.not_le.mpr hv
    · rintro rfl
      exact absurd hv' (by decide)
  refine parse_eq_error ?_
  rw [scanAll, hstart]

/-- The version byte of a store that parses is a known one. -/
theorem version_le_of_parse {v : UInt8} {body : Bytes} {s : Store}
    (h : parse (v :: body) = .ok s) : v ≤ currentVersion := by
  refine UInt8.not_lt.mp fun hv => ?_
  rw [parse_unknown_version body hv] at h
  exact absurd h (by simp)

/-- A failure behind a known version is damage. -/
theorem isUnsupported_of_parse {v : UInt8} {body : Bytes} {e : DecodeError}
    (hv : v ≤ currentVersion) (h : parse (v :: body) = .error e) : e.isUnsupported = false := by
  have hfailure := scanAll_failure h
  rw [scanAll] at hfailure
  split at hfailure
  · exact isUnsupported_of_readEntries _ _ _ hfailure
  · next cause hstart =>
      obtain rfl := Option.some.inj hfailure
      dsimp only [Scan.start] at hstart
      split at hstart
      · exact absurd hstart (by simp)
      · rcases bind_eq_error.mp hstart with hstart | ⟨_, -, hstart⟩
        · exact isUnsupported_of_inlined hstart
        · exact absurd hstart (by simp [Pure.pure, Except.pure])

/-- What is left of a store that parses may fail to parse, but not as a newer
one: a cut keeps the version byte or takes everything. -/
theorem isUnsupported_of_parse_append {q t : Bytes} {s : Store} {e : DecodeError}
    (h : parse (q ++ t) = .ok s) (he : parse q = .error e) : e.isUnsupported = false := by
  cases q with
  | nil => exact absurd he (by simp [parse, scanAll, Scan.start, Scan.nothing, readEntries])
  | cons v body => exact isUnsupported_of_parse (version_le_of_parse h) he

end Store

end MetaRecord.Inline

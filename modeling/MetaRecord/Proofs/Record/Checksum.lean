/-
# `MetaRecord.Proofs.Record.Checksum` — when a missing checksum is noticed

The checksum between a blob and a store is optional, and whether it is there
is decided by trying to read one.  A store that holds anything opens with its
version byte, and a version byte is an integer.  So the checksum is seen to be
missing only where nothing at all follows the blob.  In front of a store of
version 1 the version byte is taken for the checksum, what is left opens with
a map header, and the record is refused as one of an unknown store version; in
front of version 0 the byte is taken for a checksum of zero.

Main statement: `decode_without_checksum`.  `decode_unchecked_refused` is the
smallest record of this kind that is refused.
-/
import MetaRecord.Proofs.Record.Truncation

namespace MetaRecord.Record.Payload

open MessagePack (Read ReadError Spells Write.bin Write.uint)

/-- The parts of a payload that opens with a blob, the store by its bytes. -/
def parts? : Payload → Option Parts
  | legacy _ => none
  | single metadata checksum store => some ⟨metadata, checksum, store.bytes⟩
  | multi _ blob checksum store => some ⟨blob, checksum, store.bytes⟩

/-- Behind a blob that the layout accepts, decoding is splitting off a checksum
and parsing the rest as a store. -/
theorem decode_bin_append {minor : UInt16} {blob : Bytes} (hminor : minor = 2 ∨ minor = 3)
    (hsize : blob.length < 0x100000000)
    (hindex : minor = 3 → ∃ index, Version.Index.decode blob = .ok index) (rest : Bytes) :
    ∃ make : Inline.Store → Payload,
      (∀ store, (make store).parts? = some ⟨blob, (Read.uint32? rest).1, store.bytes⟩) ∧
      decode (Write.bin blob ++ rest) minor
        = (Inline.Store.parse (Read.uint32? rest).2).map make := by
  rcases hminor with rfl | rfl
  · refine ⟨single blob (Read.uint32? rest).1, fun _ => rfl, ?_⟩
    show decodeSingle (Write.bin blob ++ rest) 2 = _
    rw [decodeSingle, split_bin_append hsize, if_neg (by decide), ok_bind]
    cases Inline.Store.parse (Read.uint32? rest).2 <;> rfl
  · obtain ⟨index, hindex⟩ := hindex rfl
    refine ⟨multi index blob (Read.uint32? rest).1, fun _ => rfl, ?_⟩
    rw [decode_multi_append hsize, hindex]
    cases Inline.Store.parse (Read.uint32? rest).2 <;> rfl

theorem parts_of_decode {minor : UInt16} {blob rest : Bytes} {p : Payload}
    (hminor : minor = 2 ∨ minor = 3) (hsize : blob.length < 0x100000000)
    (hindex : minor = 3 → ∃ index, Version.Index.decode blob = .ok index)
    (h : decode (Write.bin blob ++ rest) minor = .ok p) :
    ∃ store, Inline.Store.parse (Read.uint32? rest).2 = .ok store ∧
      p.parts? = some ⟨blob, (Read.uint32? rest).1, store.bytes⟩ := by
  obtain ⟨make, hparts, hdecode⟩ := decode_bin_append hminor hsize hindex rest
  rw [hdecode] at h
  cases hstore : Inline.Store.parse (Read.uint32? rest).2 with
  | error e =>
      rw [hstore] at h
      exact absurd h (by simp [Except.map])
  | ok store =>
      rw [hstore] at h
      obtain rfl := Except.ok.inj h
      exact ⟨store, rfl, hparts store⟩

/-- A version byte in front of a store reads as a checksum. -/
theorem uint32?_version {v : UInt8} (hv : v = 0 ∨ v = 1) (body : Bytes) :
    Read.uint32? (v :: body) = (some v.toUInt32, body) := by
  rcases hv with rfl | rfl
  · exact uint32?_append 0 body
  · exact uint32?_append 1 body

theorem version_of_parse {v : UInt8} {body : Bytes} {store : Inline.Store}
    (h : Inline.Store.parse (v :: body) = .ok store) : v = 0 ∨ v = 1 := by
  have hle : v.toNat ≤ 1 := UInt8.le_iff_toNat_le.mp (Inline.Store.version_le_of_parse h)
  have hcases : v.toNat = 0 ∨ v.toNat = 1 := by omega
  exact hcases.imp UInt8.toNat.inj UInt8.toNat.inj

/-- A map header never opens with a store version that is known. -/
theorem mapLength_head {buf rest : Bytes} {n : UInt32}
    (h : Read.mapLength buf = .ok (n, rest)) :
    ∃ m tail, buf = m :: tail ∧ Inline.currentVersion < m := by
  obtain ⟨m, tail, hm, h⟩ := Read.bind_eq_ok_iff.mp h
  refine ⟨m, tail, Read.byte_eq_ok_iff.mp hm, ?_⟩
  rcases Nat.lt_or_ge m.toNat 0x80 with hlt | hge
  · have hpos : MessagePack.Lead.ofByte m = .positive m.toNat := by
      have hof := MessagePack.Lead.ofByte_positive hlt
      rwa [UInt8.ofNat_toNat] at hof
    rw [hpos] at h
    exact absurd h Read.throw_ne_ok
  · exact UInt8.lt_iff_toNat_lt.mpr (Nat.lt_of_lt_of_le (by decide) hge)

theorem parse_body_of_current {body : Bytes} {store : Inline.Store}
    (h : Inline.Store.parse (Inline.currentVersion :: body) = .ok store) :
    ∃ m, Inline.Store.parse body = .error (.unknownInlineVersion m) := by
  cases hstart : Inline.Scan.start (Inline.currentVersion :: body) with
  | error e =>
      rw [Inline.Store.parse_eq_error (e := e) (by rw [Inline.scanAll, hstart])] at h
      exact absurd h (by simp)
  | ok s =>
      obtain ⟨⟨n, rest⟩, hn, -⟩ := bind_eq_ok.mp
        (show (Inline.inlined Read.mapLength body >>= _) = .ok s from hstart)
      obtain ⟨m, tail, rfl, hm⟩ := mapLength_head (mapError_eq_ok.mp hn)
      exact ⟨m, Inline.Store.parse_unknown_version tail hm⟩

/-- **A missing checksum is noticed only where the store is missing too.**  A
blob that its layout accepts, with a store behind it and no checksum between
them, decodes to just these parts if and only if the store has no bytes.  A
store of version 1 makes the record fail, and one of version 0 gives it a
checksum of zero. -/
theorem decode_without_checksum {minor : UInt16} {blob s : Bytes} {store : Inline.Store}
    (hminor : minor = 2 ∨ minor = 3) (hsize : blob.length < 0x100000000)
    (hindex : minor = 3 → ∃ index, Version.Index.decode blob = .ok index)
    (hstore : Inline.Store.parse s = .ok store) :
    ((∃ p, decode (Write.bin blob ++ s) minor = .ok p ∧ p.parts? = some ⟨blob, none, s⟩) ↔
      s = []) ∧
    (∀ body, s = 1 :: body →
      ∃ m, decode (Write.bin blob ++ s) minor = .error (.unknownInlineVersion m)) ∧
    (∀ body, s = 0 :: body → ∀ p, decode (Write.bin blob ++ s) minor = .ok p →
      p.parts? = some ⟨blob, some 0, body⟩) := by
  obtain ⟨make, hparts, hdecode⟩ := decode_bin_append hminor hsize hindex s
  refine ⟨⟨?_, ?_⟩, ?_, ?_⟩
  · rintro ⟨p, hp, hnone⟩
    cases s with
    | nil => rfl
    | cons v body =>
        obtain ⟨store', -, hsome⟩ := parts_of_decode hminor hsize hindex hp
        rw [uint32?_version (version_of_parse hstore), hnone] at hsome
        exact absurd (Parts.mk.inj (Option.some.inj hsome)).2.1 (by simp)
  · rintro rfl
    exact ⟨make ⟨[], 0⟩, hdecode, hparts _⟩
  · rintro body rfl
    obtain ⟨m, hm⟩ := parse_body_of_current hstore
    refine ⟨m, ?_⟩
    rw [hdecode, uint32?_version (Or.inr rfl)]
    show (Inline.Store.parse body).map make = _
    rw [hm]
    rfl
  · rintro body rfl p hp
    obtain ⟨store', hbody, hsome⟩ := parts_of_decode hminor hsize hindex hp
    rw [uint32?_version (Or.inl rfl)] at hbody hsome
    rw [hsome, Inline.Store.parse_bytes hbody]
    rfl

/-- Behind an index without versions, a store of one value is not found. -/
theorem decode_without_checksum_one_value :
    let blob := Version.Index.empty.encode
    let s : Bytes := [1, 0x81, 0xa1, 0x61, 0xc4, 1, 0x78]
    Inline.Store.parse s = .ok ⟨s, 1⟩ ∧
      ¬ ∃ p, decode (Write.bin blob ++ s) 3 = .ok p ∧ p.parts? = some ⟨blob, none, s⟩ := by
  intro blob s
  have hstore : Inline.Store.parse s = .ok ⟨s, 1⟩ := rfl
  refine ⟨hstore, fun h => ?_⟩
  have hnil := (decode_without_checksum (Or.inr rfl) (by decide) (fun _ => ⟨.empty, rfl⟩)
    hstore).1.mp h
  exact absurd hnil (List.cons_ne_nil _ _)

/-- The smallest refused record of this kind: no metadata, and a store that is
a map without entries. -/
theorem decode_unchecked_refused :
    Inline.Store.parse [1, 0x80] = .ok ⟨[1, 0x80], 0⟩ ∧
      decode (Write.bin [] ++ [1, 0x80]) 2 = .error (.unknownInlineVersion 0x80) := by
  exact ⟨rfl, rfl⟩

end MetaRecord.Record.Payload

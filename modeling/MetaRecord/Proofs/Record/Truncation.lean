/-
# `MetaRecord.Proofs.Record.Truncation` — a record that was cut is found out

A record is a preamble, a framed blob, a checksum that may be missing and a
store that nothing frames.  A cut inside a part is found by the read of that
part; the two cuts between parts are not found, because what is left of them
is a record: without checksum and store, or without store.

The one part that gives way is the checksum.  A cut inside it makes the record
look as if it had none, and the rest of the checksum's bytes as if they were a
store.  They are none, because a checksum that takes more than one byte opens
with a marker, which is above every store version there is.

Main statement: `Edited.decode_take`.
-/
import MetaRecord.Proofs.Record.Preamble
import MetaRecord.Proofs.Record.RoundTrip

namespace MetaRecord

open MessagePack (Read ReadError Spells Write.bin Write.bin_ne_nil Write.uint)

namespace Record

theorem decode_of_length_le {buf : Bytes} (h : buf.length ≤ 8) :
    decode buf = .error (.tooShort buf.length) := by
  rw [decode, Preamble.validate, Preamble.parse_of_length_le h, error_bind, error_bind]

/-- A blob that is cut keeps the record from being decoded. -/
theorem decode_blob_cut {blob q t : Bytes} (hsize : blob.length < 0x100000000)
    (hs : q ++ t = Write.bin blob) (ht : t ≠ []) (hq : q ≠ []) :
    ∃ cause, decode (FormatVersion.current.bytes ++ q) = .error (.malformedMetadata cause) ∧
      cause.IsShort := by
  obtain ⟨cause, hcause, hshort⟩ := (Spells.bin hsize).cut hs ht
  refine ⟨cause, ?_, hshort⟩
  rw [decode_current hq]
  show (Payload.decodeMulti q 3 >>= _) = _
  rw [Payload.decodeMulti, Payload.split]
  rw [hcause, mapError_error, error_bind, error_bind, error_bind]

/-- Behind a blob, bytes that are no store keep the record from being decoded. -/
theorem decode_store_error {blob rest : Bytes} {e : DecodeError}
    (hsize : blob.length < 0x100000000)
    (h : Inline.Store.parse (Read.uint32? rest).2 = .error e) :
    decode (FormatVersion.current.bytes ++ (Write.bin blob ++ rest)) = .error e := by
  have hne := List.append_ne_nil_of_left_ne_nil (Write.bin_ne_nil blob) rest
  rw [decode_current hne, Payload.decode_multi_append hsize, h, error_bind, error_bind]

/-! ## A checksum that is cut -/

/-- The first byte of an unsigned integer is the integer, or a marker that is
above every store version. -/
theorem uint_head (v : UInt64) :
    ∃ b rest, Write.uint v = b :: rest ∧ (rest = [] ∨ 0xcc ≤ b) := by
  dsimp only [Write.uint, MessagePack.Write.sized]
  split
  · exact ⟨_, _, rfl, Or.inl rfl⟩
  · split
    · exact ⟨_, _, rfl, Or.inr (by decide)⟩
    · split
      · exact ⟨_, _, rfl, Or.inr (by decide)⟩
      · split
        · exact ⟨_, _, rfl, Or.inr (by decide)⟩
        · exact ⟨_, _, rfl, Or.inr (by decide)⟩

/-- What is left of a checksum that is cut reads as no checksum, and then as a
store of an unknown version. -/
theorem checksum_cut {c : UInt32} {q t : Bytes} (hs : q ++ t = Write.uint c.toUInt64)
    (hq : q ≠ []) (ht : t ≠ []) :
    ∃ b, Inline.Store.parse (Read.uint32? q).2 = .error (.unknownInlineVersion b) := by
  obtain ⟨e, he, -⟩ := (Spells.uint32 c).cut hs ht
  have hnone : Read.uint32? q = (none, q) := by
    rw [Read.uint32?, he]
  obtain ⟨b, rest, hb, hrest⟩ := uint_head c.toUInt64
  obtain ⟨b', q, rfl⟩ := List.exists_cons_of_ne_nil hq
  rw [hb] at hs
  obtain ⟨rfl, hq'⟩ := List.cons.inj hs
  have hmarker : 0xcc ≤ b' := by
    rcases hrest with rfl | hmarker
    · exact absurd (List.append_eq_nil_iff.mp hq').2 ht
    · exact hmarker
  refine ⟨b', ?_⟩
  rw [hnone]
  exact Inline.Store.parse_unknown_version q (UInt8.lt_of_lt_of_le (by decide) hmarker)

/-! ## The record -/

namespace Draft

/-- The length of the record up to the end of its blob. -/
def blobEnd (d : Draft) : Nat :=
  FormatVersion.current.bytes.length + (Write.bin d.index.encode).length

/-- The length of the record up to the end of its checksum. -/
def checksumEnd (d : Draft) : Nat :=
  d.blobEnd + (Write.uint (Checksum.ofBlob d.index.encode).toUInt64).length

theorem blobEnd_lt_checksumEnd (d : Draft) : d.blobEnd < d.checksumEnd := by
  obtain ⟨b, rest, hb, -⟩ := uint_head (Checksum.ofBlob d.index.encode).toUInt64
  rw [checksumEnd, hb, List.length_cons]
  omega

/-- What a cut leaves of the draft's record, by the part that the cut falls in:
`q` is there of that part and `t` is missing. -/
inductive Remnant (d : Draft) : Bytes → Prop
  | preamble {q : Bytes} : q.length ≤ FormatVersion.current.bytes.length → Remnant d q
  | blob {q t : Bytes} : q ≠ [] → t ≠ [] → q ++ t = Write.bin d.index.encode →
      Remnant d (FormatVersion.current.bytes ++ q)
  | checksum {q t : Bytes} : t ≠ [] →
      q ++ t = Write.uint (Checksum.ofBlob d.index.encode).toUInt64 →
      Remnant d (FormatVersion.current.bytes ++ (Write.bin d.index.encode ++ q))
  | store {q t : Bytes} : t ≠ [] → q ++ t = d.store.bytes →
      Remnant d (FormatVersion.current.bytes ++ (Write.bin d.index.encode ++
        (Write.uint (Checksum.ofBlob d.index.encode).toUInt64 ++ q)))

theorem remnant_of_append {d : Draft} {q t : Bytes} (hs : q ++ t = d.bytes) (ht : t ≠ []) :
    Remnant d q := by
  rw [bytes_eq] at hs
  rcases Bytes.cut_append hs with ⟨t₁, hp, -⟩ | ⟨q₁, rfl, hs₁⟩
  · refine .preamble ?_
    rw [← hp, List.length_append]
    exact Nat.le_add_right _ _
  · rcases Bytes.cut_append hs₁ with ⟨t₁, hb, ht₁⟩ | ⟨q₂, rfl, hs₂⟩
    · by_cases hq₁ : q₁ = []
      · subst hq₁
        exact .preamble (Nat.le_of_eq (by rw [List.append_nil]))
      · exact .blob hq₁ ht₁ hb
    · rcases Bytes.cut_append hs₂ with ⟨t₂, hc, ht₂⟩ | ⟨q₃, rfl, hs₃⟩
      · exact .checksum ht₂ hc
      · exact .store ht hs₃

section Lengths

variable {d : Draft} {q t : Bytes}

theorem length_lt_blobEnd (ht : t ≠ []) (hs : q ++ t = Write.bin d.index.encode) :
    (FormatVersion.current.bytes ++ q).length < d.blobEnd := by
  have hpos := List.length_pos_iff.mpr ht
  rw [blobEnd, ← hs, List.length_append, List.length_append]
  omega

theorem length_blob_append (d : Draft) (q : Bytes) :
    (FormatVersion.current.bytes ++ (Write.bin d.index.encode ++ q)).length
      = d.blobEnd + q.length := by
  rw [blobEnd, List.length_append, List.length_append, Nat.add_assoc]

theorem length_lt_checksumEnd (ht : t ≠ [])
    (hs : q ++ t = Write.uint (Checksum.ofBlob d.index.encode).toUInt64) :
    d.blobEnd + q.length < d.checksumEnd := by
  have hpos := List.length_pos_iff.mpr ht
  rw [checksumEnd, ← hs, List.length_append]
  omega

theorem length_checksum_append (d : Draft) (q : Bytes) :
    (FormatVersion.current.bytes ++ (Write.bin d.index.encode ++
      (Write.uint (Checksum.ofBlob d.index.encode).toUInt64 ++ q))).length
      = d.checksumEnd + q.length := by
  rw [length_blob_append, checksumEnd, List.length_append, Nat.add_assoc]

end Lengths

/-- Where the draft's record was cut to leave `q`, and what decoding makes of
that.  Only the two cuts between parts leave a record. -/
inductive CutAt (d : Draft) (q : Bytes) : Prop
  | preamble : q.length < d.blobEnd → decode q = .error (.tooShort q.length) → CutAt d q
  | blob {cause : ReadError} : q.length < d.blobEnd →
      decode q = .error (.malformedMetadata cause) → cause.IsShort → CutAt d q
  | blobEnd : q.length = d.blobEnd →
      decode q = .ok ⟨.current, .multi { d.index with revisions := .current } d.index.encode
        none .empty⟩ → CutAt d q
  | checksum {b : UInt8} : d.blobEnd < q.length → q.length < d.checksumEnd →
      decode q = .error (.unknownInlineVersion b) → CutAt d q
  | checksumEnd : q.length = d.checksumEnd →
      decode q = .ok ⟨.current, .multi { d.index with revisions := .current } d.index.encode
        (some (Checksum.ofBlob d.index.encode)) .empty⟩ → CutAt d q
  | store {e : DecodeError} : d.checksumEnd < q.length → decode q = .error e →
      Inline.IsCut e → CutAt d q

section Cut

variable {d : Draft} {es : List Inline.Entry}

/-- The draft's index can be read back and its store was written. -/
structure Closed (d : Draft) (es : List Inline.Entry) : Prop where
  legible : ∀ e ∈ d.index.entries, e.Legible
  size : d.index.encode.length < 0x100000000
  storable : ∀ e ∈ es, Inline.Storable e
  count : es.length < 0x100000000
  store : d.store = Inline.Store.ofEntries es

theorem Closed.cutAt_store (h : Closed d es) {q t : Bytes} (ht : t ≠ [])
    (hs : q ++ t = d.store.bytes) :
    CutAt d (FormatVersion.current.bytes ++ (Write.bin d.index.encode ++
      (Write.uint (Checksum.ofBlob d.index.encode).toUInt64 ++ q))) := by
  have hindex := Version.Index.decode_encode h.legible h.size
  have hchecksum := uint32?_append (Checksum.ofBlob d.index.encode) q
  have hlen := length_checksum_append d q
  by_cases hq : q = []
  · subst hq
    rw [List.length_nil, Nat.add_zero] at hlen
    refine .checksumEnd hlen ?_
    have hempty : Inline.Store.parse (Read.uint32? (Write.uint
        (Checksum.ofBlob d.index.encode).toUInt64 ++ [])).2 = .ok .empty := by
      rw [hchecksum]
      rfl
    have hdecode := decode_append _ h.size hindex hempty
    rw [hchecksum] at hdecode
    exact hdecode
  · rw [h.store] at hs
    obtain ⟨e, he, hcut⟩ := Inline.Store.parse_cut h.storable h.count hs hq ht
    refine .store ?_ (decode_store_error h.size (by rw [hchecksum]; exact he)) hcut
    have hpos := List.length_pos_iff.mpr hq
    rw [hlen]
    exact Nat.lt_add_of_pos_right hpos

theorem Closed.cutAt_checksum (h : Closed d es) {q t : Bytes} (ht : t ≠ [])
    (hs : q ++ t = Write.uint (Checksum.ofBlob d.index.encode).toUInt64) :
    CutAt d (FormatVersion.current.bytes ++ (Write.bin d.index.encode ++ q)) := by
  have hlen := length_blob_append d q
  by_cases hq : q = []
  · subst hq
    rw [List.length_nil, Nat.add_zero] at hlen
    exact .blobEnd hlen
      (decode_append [] h.size (Version.Index.decode_encode h.legible h.size) rfl)
  · obtain ⟨b, hb⟩ := checksum_cut hs hq ht
    have hpos : 0 < q.length := List.length_pos_iff.mpr hq
    have hlt := length_lt_checksumEnd ht hs
    exact .checksum (by omega) (by omega) (decode_store_error h.size hb)

theorem Closed.cutAt (h : Closed d es) {q t : Bytes} (hs : q ++ t = d.bytes) (ht : t ≠ []) :
    CutAt d q := by
  cases remnant_of_append hs ht with
  | preamble hle =>
      refine .preamble ?_ (decode_of_length_le hle)
      have hbin := List.length_pos_iff.mpr (Write.bin_ne_nil d.index.encode)
      rw [blobEnd]
      omega
  | blob hq ht' hb =>
      obtain ⟨cause, hcause, hshort⟩ := decode_blob_cut h.size hb ht' hq
      exact .blob (length_lt_blobEnd ht' hb) hcause hshort
  | checksum ht' hc => exact h.cutAt_checksum ht' hc
  | store ht' hstore => exact h.cutAt_store ht' hstore

end Cut

theorem Edited.revisions {usable : Inline.Store → Prop} {d : Draft}
    (h : Edited usable empty d) : d.index.revisions = .current := by
  induction h with
  | start => rfl
  | addVersion _ _ _ ih => exact ih
  | removeVersion _ _ ih => exact ih
  | setStore _ _ ih => exact ih

theorem Edited.closed {d : Draft} (h : Edited Inline.Store.Written empty d)
    (hsize : d.index.encode.length < 0x100000000) : ∃ es, Closed d es := by
  have hlegible := (h.sound (fun s hs => (Inline.Store.Obtained.written hs).parse_bytes)
    Fresh.empty.sound).legible
  have hstore : ∃ es, (∀ e ∈ es, Inline.Storable e) ∧ es.length < 0x100000000 ∧
      d.store = Inline.Store.ofEntries es := by
    clear hsize hlegible
    induction h with
    | start => exact ⟨[], fun e he => absurd he List.not_mem_nil, by decide, rfl⟩
    | addVersion _ _ _ ih => exact ih
    | removeVersion _ _ ih => exact ih
    | setStore hs _ _ => exact hs.exists_entries
  obtain ⟨es, hall, hcount, hes⟩ := hstore
  exact ⟨es, hlegible, hsize, hall, hcount, hes⟩

/-- **A record that was cut is found out**, except between its parts.  Without
its checksum and store a record decodes as one that never had them, and without
its store as one whose store is empty; cut anywhere else it does not decode. -/
theorem Edited.decode_take {d : Draft} (hd : Edited Inline.Store.Written empty d)
    (hsize : d.index.encode.length < 0x100000000) {n : Nat} (hn : n < d.bytes.length) :
    (n = d.blobEnd → ∃ r, decode (d.bytes.take n) = .ok r ∧ r.index? = some d.index ∧
      r.status = .absent ∧ r.store? = some .empty) ∧
    (n = d.checksumEnd → ∃ r, decode (d.bytes.take n) = .ok r ∧ r.index? = some d.index ∧
      r.status = .valid ∧ r.store? = some .empty) ∧
    (n ≠ d.blobEnd → n ≠ d.checksumEnd → ∃ e, decode (d.bytes.take n) = .error e) := by
  obtain ⟨es, hclosed⟩ := hd.closed hsize
  have hrev : { d.index with revisions := .current } = d.index := by rw [← hd.revisions]
  have hlen : (d.bytes.take n).length = n := List.length_take_of_le (Nat.le_of_lt hn)
  have hdrop : d.bytes.drop n ≠ [] := by
    rw [← List.length_pos_iff, List.length_drop]
    omega
  have hends := d.blobEnd_lt_checksumEnd
  have hcut := hclosed.cutAt (List.take_append_drop n d.bytes) hdrop
  cases hcut with
  | preamble hlt he =>
      rw [hlen] at hlt
      exact ⟨by omega, by omega, fun _ _ => ⟨_, he⟩⟩
  | blob hlt he _ =>
      rw [hlen] at hlt
      exact ⟨by omega, by omega, fun _ _ => ⟨_, he⟩⟩
  | blobEnd heq he =>
      rw [hlen] at heq
      rw [hrev] at he
      exact ⟨fun _ => ⟨_, he, rfl, rfl, rfl⟩, by omega, fun h => absurd heq h⟩
  | checksum hlt hlt' he =>
      rw [hlen] at hlt hlt'
      exact ⟨by omega, by omega, fun _ _ => ⟨_, he⟩⟩
  | checksumEnd heq he =>
      rw [hlen] at heq
      rw [hrev] at he
      exact ⟨by omega, fun _ => ⟨_, he, rfl, Checksum.Status.check_ofBlob _, rfl⟩,
        fun _ h => absurd heq h⟩
  | store hlt he _ =>
      rw [hlen] at hlt
      exact ⟨by omega, by omega, fun _ _ => ⟨_, he⟩⟩

/-- Two versions and one inline value: the last byte of the value is missed,
and the whole store is not. -/
theorem decode_take_two_versions : ∃ store, Inline.Store.build [("a", [0x78])] = .ok store ∧
    let d := ((empty.addVersion (.sample 1 10) [0xb]).addVersion (.sample 2 20) []).setStore store
    (∃ e, decode (d.bytes.take (d.bytes.length - 1)) = .error e) ∧
      ∃ r, decode (d.bytes.take d.checksumEnd) = .ok r ∧ r.index? = some d.index ∧
        r.status = .valid ∧ r.store? = some .empty := by
  refine ⟨⟨[1, 0x81, 0xa1, 0x61, 0xc4, 1, 0x78], 1⟩, rfl, ?_⟩
  intro d
  have hstore : Inline.Store.Written d.store :=
    .build (show Inline.Store.build [("a", [0x78])] = .ok _ from rfl)
      (show [("a", [0x78])].foldlM Inline.Store.put [] = .ok [("a", [0x78])] from rfl)
      ⟨by decide, by decide⟩
  have hd : Edited Inline.Store.Written empty d :=
    .setStore hstore (.addVersion (.sample 2 20) [] (.addVersion (.sample 1 10) [0xb] .start))
  have hsize : d.index.encode.length < 0x100000000 := by decide +kernel
  have hends : d.blobEnd < d.checksumEnd ∧ d.checksumEnd + 7 = d.bytes.length := by decide +kernel
  obtain ⟨-, -, hinside⟩ := hd.decode_take hsize (n := d.bytes.length - 1) (by omega)
  obtain ⟨-, hend, -⟩ := hd.decode_take hsize (n := d.checksumEnd) (by omega)
  exact ⟨hinside (by omega) (by omega), hend rfl⟩

end Draft

end Record

end MetaRecord

/-
# `MetaRecord.Proofs.Record.Layout` — a payload is its parts and nothing else

Three layouts share one shape: a blob, a checksum that the oldest of them does
not have and the others may leave out, and a store that takes whatever is
left.  Put together from these parts a payload is decoded into them; and a
payload that is decoded consists of them, with no byte left out or read twice.
In that direction the blob and the checksum may be written in any of their
encodings.

Main statement: `decode_parts`, with `LaidOut` for what a payload consists of.
-/
import MetaRecord.Proofs.MessagePack.Encoding
import MetaRecord.Proofs.Record.Checksum

namespace MetaRecord.Record.Payload

open MessagePack (EncodesBin EncodesInteger Read Spells Write.bin Write.uint)

/-- A payload consists of its parts: one encoding of the blob, one of the
checksum if there is a checksum, and the bytes of the store. -/
inductive LaidOut : Parts → Bytes → Prop
  | unchecked {blob p rest : Bytes} : EncodesBin blob p → LaidOut ⟨blob, none, rest⟩ (p ++ rest)
  | checked {blob p q rest : Bytes} {c : UInt32} : EncodesBin blob p →
      EncodesInteger c.toNat q → LaidOut ⟨blob, some c, rest⟩ (p ++ (q ++ rest))

/-! ## From the parts to the payload and back -/

theorem laidOut_of_split {payload : Bytes} {minor : UInt16} {parts : Parts}
    (hsplit : split payload minor = .ok parts) : LaidOut parts payload := by
  obtain ⟨⟨blob, rest⟩, hblob, h⟩ := bind_eq_ok.mp hsplit
  obtain ⟨p, hp, rfl⟩ := Read.bin_eq_ok_iff.mp (mapError_eq_ok.mp hblob)
  dsimp only at h
  split at h
  · obtain rfl := Except.ok.inj h
    exact .unchecked hp
  · obtain rfl := Except.ok.inj h
    cases hsum : Read.uint32 rest with
    | error e =>
        rw [Read.uint32?, hsum]
        exact .unchecked hp
    | ok read =>
        obtain ⟨c, rest'⟩ := read
        obtain ⟨q, hq, rfl⟩ := Read.uint32_eq_ok_iff.mp hsum
        rw [Read.uint32?, hsum]
        exact .checked hp hq

/-- The layouts that open with a blob keep the parts that they are split
into. -/
theorem exists_split_of_decode {payload : Bytes} {minor : UInt16} {p : Payload}
    (hminor : minor = 1 ∨ minor = 2 ∨ minor = 3) (h : decode payload minor = .ok p) :
    ∃ parts, split payload minor = .ok parts ∧ p.parts? = some parts := by
  have single_of {minor : UInt16} (h : decodeSingle payload minor = .ok p) :
      ∃ parts, split payload minor = .ok parts ∧ p.parts? = some parts := by
    obtain ⟨parts, hsplit, h⟩ := bind_eq_ok.mp h
    obtain ⟨store, hstore, h⟩ := bind_eq_ok.mp h
    obtain rfl := Except.ok.inj h
    refine ⟨parts, hsplit, ?_⟩
    rw [parts?, Inline.Store.parse_bytes hstore]
  rcases hminor with rfl | rfl | rfl
  · exact single_of h
  · exact single_of h
  · obtain ⟨parts, hsplit, h⟩ := bind_eq_ok.mp (show decodeMulti payload 3 = .ok p from h)
    obtain ⟨store, hstore, h⟩ := bind_eq_ok.mp h
    obtain ⟨index, -, h⟩ := bind_eq_ok.mp h
    obtain rfl := Except.ok.inj h
    refine ⟨parts, hsplit, ?_⟩
    rw [parts?, Inline.Store.parse_bytes hstore]

section Append

variable {blob s : Bytes} {store : Inline.Store}

theorem decode_unchecked (hsize : blob.length < 0x100000000)
    (hstore : Inline.Store.parse s = .ok store) :
    decode (Write.bin blob ++ s) 1 = .ok (single blob none store) := by
  show decodeSingle (Write.bin blob ++ s) 1 = _
  rw [decodeSingle, split_bin_append hsize, if_pos (by decide), ok_bind, hstore]
  rfl

theorem decode_checked (hsize : blob.length < 0x100000000)
    (hstore : Inline.Store.parse s = .ok store) (c : UInt32) :
    decode (Write.bin blob ++ (Write.uint c.toUInt64 ++ s)) 2
      = .ok (single blob (some c) store) := by
  show decodeSingle (Write.bin blob ++ (Write.uint c.toUInt64 ++ s)) 2 = _
  rw [decodeSingle, split_bin_append hsize, if_neg (by decide), ok_bind, uint32?_append, hstore]
  rfl

theorem decode_indexed (hsize : blob.length < 0x100000000)
    (hstore : Inline.Store.parse s = .ok store) (c : UInt32) {index : Version.Index}
    (hindex : Version.Index.decode blob = .ok index) :
    decode (Write.bin blob ++ (Write.uint c.toUInt64 ++ s)) 3
      = .ok (multi index blob (some c) store) := by
  rw [decode_multi_append hsize, uint32?_append, hstore, ok_bind, hindex]
  rfl

end Append

/-- **A payload decodes into the parts it was put together from, and consists
of the parts it decodes into.**  The minor versions 1, 2 and 3 select a single
version without and with a checksum and an index of versions with one; a blob
that is written has a 32-bit length. -/
theorem decode_parts :
    (∀ {blob s : Bytes} {store : Inline.Store}, blob.length < 0x100000000 →
      Inline.Store.parse s = .ok store →
      store.bytes = s ∧
      decode (Write.bin blob ++ s) 1 = .ok (single blob none store) ∧
      ∀ c : UInt32,
        decode (Write.bin blob ++ (Write.uint c.toUInt64 ++ s)) 2
          = .ok (single blob (some c) store) ∧
        ∀ {index : Version.Index}, Version.Index.decode blob = .ok index →
          decode (Write.bin blob ++ (Write.uint c.toUInt64 ++ s)) 3
            = .ok (multi index blob (some c) store)) ∧
    ∀ {payload : Bytes} {minor : UInt16} {p : Payload},
      minor = 1 ∨ minor = 2 ∨ minor = 3 → decode payload minor = .ok p →
      ∃ parts, p.parts? = some parts ∧ LaidOut parts payload := by
  refine ⟨fun hsize hstore => ?_, fun hminor hdecode => ?_⟩
  · exact ⟨Inline.Store.parse_bytes hstore, decode_unchecked hsize hstore,
      fun c => ⟨decode_checked hsize hstore c, decode_indexed hsize hstore c⟩⟩
  · obtain ⟨parts, hsplit, hparts⟩ := exists_split_of_decode hminor hdecode
    exact ⟨parts, hparts, laidOut_of_split hsplit⟩

/-- An index without versions, a checksum of 32 bits and a store of one value;
and a payload by another writer, who spends a byte too many on the length of
the blob and on the checksum. -/
theorem decode_parts_wide :
    let s : Bytes := [1, 0x81, 0xa1, 0x61, 0xc4, 1, 0x78]
    let wide : Bytes := [0xc5, 0, 1, 0x6d, 0xd0, 7, 1, 0x80]
    decode (Write.bin Version.Index.empty.encode ++ (Write.uint (0xdeadbeef : UInt32).toUInt64 ++ s))
      3 = .ok (multi .empty Version.Index.empty.encode (some 0xdeadbeef) ⟨s, 1⟩) ∧
    decode wide 2 = .ok (single [0x6d] (some 7) ⟨[1, 0x80], 0⟩) ∧
    LaidOut ⟨[0x6d], some 7, [1, 0x80]⟩ wide := by
  intro s wide
  have hwide : decode wide 2 = .ok (single [0x6d] (some 7) ⟨[1, 0x80], 0⟩) := rfl
  have hsize : Version.Index.empty.encode.length < 0x100000000 := by decide
  obtain ⟨-, -, hchecked⟩ := decode_parts.1 hsize
    (show Inline.Store.parse s = .ok ⟨s, 1⟩ from rfl)
  obtain ⟨parts, hparts, hlaid⟩ := decode_parts.2 (Or.inr (Or.inl rfl)) hwide
  obtain rfl := Option.some.inj hparts
  exact ⟨(hchecked 0xdeadbeef).2 rfl, hwide, hlaid⟩

end MetaRecord.Record.Payload

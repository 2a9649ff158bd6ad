/-
# `MetaRecord.Proofs.Record.RoundTrip` — a record that was written is read back

A draft starts empty or from a decoded record and is edited any number of
times.  Two facts survive every edit and are all that reading back needs: the
stored header bytes of each version decode to its header, and the store's
bytes parse to the store.  Neither says that the bytes are the ones this
library would write.  A record that was decoded may hold longer encodings,
other revisions, an order of its own and a store with trailing bytes, and all
of it is written back as it was read, but for the revisions.

Main statement: `Edited.read_back`, with `Edited.sound` for the invariant
and `decode_append` for what decoding makes of the parts of a record.
-/
import MetaRecord.Proofs.Inline.Codec
import MetaRecord.Proofs.Version.Codec
import MetaRecord.Record.Draft

namespace MetaRecord

open MessagePack (Read ReadError Spells Write.bin Write.bin_ne_nil Write.uint)

/-! ## Decoding the parts of a record -/

theorem Preamble.validate_current {payload : Bytes} (h : payload ≠ []) :
    validate (FormatVersion.current.bytes ++ payload) = .ok ⟨.current, payload⟩ := by
  obtain ⟨p, payload, rfl⟩ := List.exists_cons_of_ne_nil h
  rw [validate, parse_bytes_append .current p payload (by decide), ok_bind]
  rfl

namespace Record

theorem decode_current {payload : Bytes} (h : payload ≠ []) :
    decode (FormatVersion.current.bytes ++ payload) = (do
      let p ← Payload.decode payload 3
      return ⟨.current, p⟩) := by
  rw [decode, Preamble.validate_current h, ok_bind]
  rfl

namespace Payload

theorem split_bin_append {blob : Bytes} (h : blob.length < 0x100000000) (rest : Bytes)
    (minor : UInt16) :
    split (Write.bin blob ++ rest) minor = .ok
      (if minor < checksumMinor then ⟨blob, none, rest⟩
        else ⟨blob, (Read.uint32? rest).1, (Read.uint32? rest).2⟩) := by
  rw [split, (Spells.bin h).whole, mapError_ok, ok_bind]
  dsimp only
  split
  · rfl
  · rfl

/-- What the layout with an index makes of a blob and the bytes behind it. -/
theorem decode_multi_append {blob : Bytes} (h : blob.length < 0x100000000) (rest : Bytes) :
    decode (Write.bin blob ++ rest) 3 = (do
      let store ← Inline.Store.parse (Read.uint32? rest).2
      let index ← Version.Index.decode blob
      return multi index blob (Read.uint32? rest).1 store) := by
  show decodeMulti (Write.bin blob ++ rest) 3 = _
  rw [decodeMulti, split_bin_append h, if_neg (by decide), ok_bind]

end Payload

theorem uint32?_append (c : UInt32) (rest : Bytes) :
    Read.uint32? (Write.uint c.toUInt64 ++ rest) = (some c, rest) := by
  rw [Read.uint32?, (Spells.uint32 c).whole]

/-- A record is put together from a blob that decodes and a store that parses. -/
theorem decode_append {index : Version.Index} {store : Inline.Store} {blob : Bytes}
    (rest : Bytes) (hsize : blob.length < 0x100000000)
    (hindex : Version.Index.decode blob = .ok index)
    (hstore : Inline.Store.parse (Read.uint32? rest).2 = .ok store) :
    decode (FormatVersion.current.bytes ++ (Write.bin blob ++ rest))
      = .ok ⟨.current, .multi index blob (Read.uint32? rest).1 store⟩ := by
  have hne := List.append_ne_nil_of_left_ne_nil (Write.bin_ne_nil blob) rest
  rw [decode_current hne, Payload.decode_multi_append hsize, hstore, ok_bind, hindex, ok_bind]
  rfl

theorem decode_index_store {buf : Bytes} {r : Record} {d : Draft} (h : decode buf = .ok r)
    (hd : r.toDraft? = some d) :
    (∃ blob, Version.Index.decode blob = .ok d.index) ∧
      ∃ bytes, Inline.Store.parse bytes = .ok d.store := by
  obtain ⟨opening, -, h⟩ := bind_eq_ok.mp h
  obtain ⟨payload, hp, h⟩ := bind_eq_ok.mp h
  obtain rfl := Except.ok.inj h
  cases payload with
  | legacy metadata => exact absurd hd (by simp [toDraft?])
  | single metadata checksum store => exact absurd hd (by simp [toDraft?])
  | multi index blob checksum store =>
      obtain rfl := Option.some.inj hd
      obtain ⟨layout, -, hp⟩ := bind_eq_ok.mp hp
      cases layout with
      | legacy =>
          obtain ⟨_, -, hp⟩ := bind_eq_ok.mp hp
          exact absurd (Except.ok.inj hp) (by simp)
      | single =>
          obtain ⟨_, -, hp⟩ := bind_eq_ok.mp hp
          obtain ⟨_, -, hp⟩ := bind_eq_ok.mp hp
          exact absurd (Except.ok.inj hp) (by simp)
      | multi =>
          obtain ⟨parts, -, hp⟩ := bind_eq_ok.mp hp
          obtain ⟨store', hstore, hp⟩ := bind_eq_ok.mp hp
          obtain ⟨index', hindex, hp⟩ := bind_eq_ok.mp hp
          obtain ⟨rfl, rfl, rfl, rfl⟩ := Payload.multi.inj (Except.ok.inj hp)
          exact ⟨⟨_, hindex⟩, _, hstore⟩

/-! ## Drafts and the edits that reach them -/

namespace Draft

/-- The drafts that edits make of `start`, with the stores that are `usable`. -/
inductive Edited (usable : Inline.Store → Prop) (start : Draft) : Draft → Prop
  | start : Edited usable start start
  | addVersion {d : Draft} (header : Version.Header) (metadata : Bytes) :
      Edited usable start d → Edited usable start (d.addVersion header metadata)
  | removeVersion {d : Draft} (id : Version.Id) :
      Edited usable start d → Edited usable start (d.removeVersion id).2
  | setStore {d : Draft} {store : Inline.Store} : usable store →
      Edited usable start d → Edited usable start (d.setStore store)

/-- The drafts that writing starts from: the empty one, and those of records
that decode. -/
inductive Fresh : Draft → Prop
  | empty : Fresh empty
  | decoded {buf : Bytes} {r : Record} {d : Draft} : decode buf = .ok r →
      r.toDraft? = some d → Fresh d

/-- What every edit keeps and reading back needs. -/
structure Sound (d : Draft) : Prop where
  legible : ∀ e ∈ d.index.entries, e.Legible
  parses : Inline.Store.parse d.store.bytes = .ok d.store

theorem Fresh.sound {d : Draft} (h : Fresh d) : d.Sound := by
  cases h with
  | empty => exact ⟨fun e he => absurd he List.not_mem_nil, rfl⟩
  | decoded h hd =>
      obtain ⟨⟨blob, hindex⟩, bytes, hstore⟩ := decode_index_store h hd
      exact ⟨Version.Index.legible_of_decode hindex,
        (Inline.Store.Obtained.parsed hstore).parse_bytes⟩

theorem Edited.sound {usable : Inline.Store → Prop} {start d : Draft}
    (husable : ∀ s, usable s → Inline.Store.parse s.bytes = .ok s) (hstart : start.Sound)
    (h : Edited usable start d) : d.Sound := by
  induction h with
  | start => exact hstart
  | addVersion header metadata _ ih =>
      exact ⟨Version.Index.legible_insert ih.legible (Version.Entry.legible_new header metadata),
        ih.parses⟩
  | removeVersion id _ ih => exact ⟨Version.Index.legible_remove id ih.legible, ih.parses⟩
  | setStore hs _ ih => exact ⟨ih.legible, husable _ hs⟩

theorem bytes_eq (d : Draft) :
    d.bytes = FormatVersion.current.bytes ++ (Write.bin d.index.encode ++
      (Write.uint (Checksum.ofBlob d.index.encode).toUInt64 ++ d.store.bytes)) := by
  simp only [bytes, List.append_assoc]

theorem Sound.decode_bytes {d : Draft} (h : d.Sound) (hsize : d.index.encode.length < 0x100000000) :
    decode d.bytes = .ok ⟨.current, .multi { d.index with revisions := .current } d.index.encode
      (some (Checksum.ofBlob d.index.encode)) d.store⟩ := by
  have hindex := Version.Index.decode_encode h.legible hsize
  have hchecksum := uint32?_append (Checksum.ofBlob d.index.encode) d.store.bytes
  have hdecode := decode_append (Write.uint (Checksum.ofBlob d.index.encode).toUInt64 ++
    d.store.bytes) hsize hindex (by rw [hchecksum]; exact h.parses)
  rw [hchecksum] at hdecode
  rw [bytes_eq]
  exact hdecode

/-- **A record that was written is read back.**  The draft is reached from the
empty one or from a decoded record by any edits, with stores that were parsed,
built or edited; its index fits the 32-bit length of a byte string.  Then its
record decodes at version 1.3 with a valid checksum, gives the draft again at
the current revisions, and writing that draft gives the same bytes. -/
theorem Edited.read_back {start d : Draft} (hstart : Fresh start)
    (hd : Edited Inline.Store.Obtained start d)
    (hsize : d.index.encode.length < 0x100000000) :
    ∃ r, decode d.bytes = .ok r ∧ r.version = ⟨1, 3⟩ ∧ r.status = .valid ∧
      r.toDraft? = some { d with index := { d.index with revisions := .current } } ∧
      ∀ d', r.toDraft? = some d' → d'.bytes = d.bytes := by
  have hsound := hd.sound (fun s hs => hs.parse_bytes) hstart.sound
  refine ⟨_, hsound.decode_bytes hsize, rfl, Checksum.Status.check_ofBlob _, rfl, ?_⟩
  intro d' hd'
  obtain rfl := Option.some.inj hd'
  rfl

/-- A record by another writer: its revisions are older, its one header spends
nine bytes on a small time, its checksum is wrong, and its store is of version
0 with a byte behind it. -/
def foreign : Bytes :=
  let header := [0x95] ++ Write.bin (Version.Id.repeated 1).bytes ++
    [0xd3, 0, 0, 0, 0, 0, 0, 0, 9] ++ Write.bin [0, 0, 0, 0] ++ [1, 0]
  FormatVersion.current.bytes ++ Write.bin ([1, 1, 1] ++ Write.bin header ++ Write.bin [0xb]) ++
    [7] ++ [0, 0xaa]

/-- With a version put in, the other writer's record keeps its header and its
store the way they were. -/
theorem foreign_read_back : ∃ r start, decode foreign = .ok r ∧ r.toDraft? = some start ∧
    ∃ r' again, decode (start.addVersion (.sample 2 10) [0xc]).bytes = .ok r' ∧
      r'.status = .valid ∧ r'.toDraft? = some again ∧
      again.index.entries = .new (.sample 2 10) [0xc] :: start.index.entries ∧
      again.store = ⟨[0, 0xaa], 0⟩ := by
  refine ⟨⟨.current, .multi _ _ _ _⟩, _, rfl, rfl, ?_⟩
  obtain ⟨r', hr', -, hstatus, hdraft, -⟩ := Edited.read_back
    (.decoded (show decode foreign = .ok _ from rfl) rfl)
    (.addVersion (.sample 2 10) [0xc] .start) (by decide +kernel)
  exact ⟨r', _, hr', hstatus, hdraft, by decide +kernel, rfl⟩

end Draft

end Record

end MetaRecord

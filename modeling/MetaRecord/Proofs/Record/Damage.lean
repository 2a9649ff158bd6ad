/-
# `MetaRecord.Proofs.Record.Damage` — which cuts look like a newer format

A record that fails to decode is either damaged, and then it is rebuilt from
its peers, or newer, and then it is left alone.  A record that was cut is
damaged.  It is seen to be, wherever the cut falls, except inside the checksum:
there the checksum is taken to be missing, what is left of it is handed to the
store, and its first byte is no store version that is known.  Such a record is
left unrepaired.

In the store a cut cannot be mistaken, because the version byte stands in
front.  This does not depend on where the store came from; one with bytes
behind its entries, or of version 0, may even be cut without failing.

Main statement: `Edited.isUnsupported_take_iff`.  `decode_empty_take` is the
shortest record of this kind.
-/
import MetaRecord.Proofs.Record.Truncation
import MetaRecord.Tool.Fault

namespace MetaRecord.Record

open MessagePack (Read Write.bin Write.uint)

namespace Draft

/-- Behind the checksum, what is left of the store decides. -/
theorem Sound.isUnsupported_of_store_cut {d : Draft} (h : d.Sound)
    (hsize : d.index.encode.length < 0x100000000) {q t : Bytes} {e : DecodeError}
    (hs : q ++ t = d.store.bytes)
    (he : decode (FormatVersion.current.bytes ++ (Write.bin d.index.encode ++
      (Write.uint (Checksum.ofBlob d.index.encode).toUInt64 ++ q))) = .error e) :
    e.isUnsupported = false := by
  have hparses := h.parses
  rw [← hs] at hparses
  have hchecksum := uint32?_append (Checksum.ofBlob d.index.encode) q
  cases hq : Inline.Store.parse q with
  | error cause =>
      rw [decode_store_error hsize (by rw [hchecksum]; exact hq)] at he
      obtain rfl := Except.error.inj he
      exact Inline.Store.isUnsupported_of_parse_append hparses hq
  | ok store =>
      rw [decode_append _ hsize (Version.Index.decode_encode h.legible hsize)
        (by rw [hchecksum]; exact hq)] at he
      exact absurd he (by simp)

/-- What decoding makes of a record that was cut: inside the checksum a store
of an unknown version, and elsewhere no failure but damage. -/
theorem Sound.decode_remnant {d : Draft} (h : d.Sound)
    (hsize : d.index.encode.length < 0x100000000) {q : Bytes} (hq : Remnant d q) :
    (d.blobEnd < q.length ∧ q.length < d.checksumEnd ∧
      ∃ b, decode q = .error (.unknownInlineVersion b)) ∨
    (¬ (d.blobEnd < q.length ∧ q.length < d.checksumEnd) ∧
      ∀ e, decode q = .error e → e.isUnsupported = false) := by
  cases hq with
  | preamble hle =>
      refine Or.inr ⟨?_, fun e he => ?_⟩
      · rw [blobEnd]
        omega
      · rw [decode_of_length_le hle] at he
        obtain rfl := Except.error.inj he
        rfl
  | blob hne ht hs =>
      have hlt := length_lt_blobEnd ht hs
      refine Or.inr ⟨by omega, fun e he => ?_⟩
      obtain ⟨cause, hcause, -⟩ := decode_blob_cut hsize hs ht hne
      rw [hcause] at he
      obtain rfl := Except.error.inj he
      rfl
  | @checksum q t ht hs =>
      have hlen := length_blob_append d q
      by_cases hne : q = []
      · subst hne
        rw [List.length_nil, Nat.add_zero] at hlen
        refine Or.inr ⟨by omega, fun e he => ?_⟩
        rw [decode_append [] hsize (Version.Index.decode_encode h.legible hsize) rfl] at he
        exact absurd he (by simp)
      · obtain ⟨b, hb⟩ := checksum_cut hs hne ht
        have hpos : 0 < q.length := List.length_pos_iff.mpr hne
        have hlt := length_lt_checksumEnd ht hs
        exact Or.inl ⟨by omega, by omega, b, decode_store_error hsize hb⟩
  | @store q t ht hs =>
      have hlen := length_checksum_append d q
      exact Or.inr ⟨by omega, fun e he => h.isUnsupported_of_store_cut hsize hs he⟩

/-- **A record that was cut is taken for a newer one exactly when the cut falls
inside its checksum.**  There it always fails, with an unknown store version,
and the fault that this is reported as asks for no repair; a failure anywhere
else is reported as damage.  The draft may start empty or from a decoded
record, and its stores may be written or read. -/
theorem Edited.isUnsupported_take_iff {start d : Draft} (hstart : Fresh start)
    (hd : Edited Inline.Store.Obtained start d)
    (hsize : d.index.encode.length < 0x100000000) {n : Nat} (hn : n < d.bytes.length) :
    (∀ e, decode (d.bytes.take n) = .error e →
      (e.isUnsupported = true ↔ d.blobEnd < n ∧ n < d.checksumEnd) ∧
      ((Tool.Fault.ofDecodeError e).isCorruption = false ↔
        d.blobEnd < n ∧ n < d.checksumEnd)) ∧
    (d.blobEnd < n → n < d.checksumEnd →
      ∃ b, decode (d.bytes.take n) = .error (.unknownInlineVersion b)) := by
  have hsound := hd.sound (fun s hs => hs.parse_bytes) hstart.sound
  have hlen : (d.bytes.take n).length = n := List.length_take_of_le (Nat.le_of_lt hn)
  have hdrop : d.bytes.drop n ≠ [] := by
    rw [← List.length_pos_iff, List.length_drop]
    omega
  have hremnant := remnant_of_append (List.take_append_drop n d.bytes) hdrop
  have hcases := hsound.decode_remnant hsize hremnant
  rw [hlen] at hcases
  rcases hcases with ⟨hlow, hhigh, b, hb⟩ | ⟨houtside, hdamage⟩
  · refine ⟨fun e he => ?_, fun _ _ => ⟨b, hb⟩⟩
    rw [hb] at he
    obtain rfl := Except.error.inj he
    exact ⟨⟨fun _ => ⟨hlow, hhigh⟩, fun _ => rfl⟩, ⟨fun _ => ⟨hlow, hhigh⟩, fun _ => rfl⟩⟩
  · refine ⟨fun e he => ?_, fun hlow hhigh => absurd ⟨hlow, hhigh⟩ houtside⟩
    have hfalse := hdamage e he
    refine ⟨⟨fun h => ?_, fun h => absurd h houtside⟩, ⟨fun h => ?_, fun h => absurd h houtside⟩⟩
    · rw [hfalse] at h
      exact absurd h (by decide)
    · have hcorrupt : Tool.Fault.ofDecodeError e = .corrupt e.message := by
        rw [Tool.Fault.ofDecodeError, hfalse]
        rfl
      rw [hcorrupt] at h
      exact absurd h (by simp [Tool.Fault.isCorruption])

/-- One version and one inline value.  A cut that leaves one byte of the
checksum is taken for a newer format, a cut in the value is not. -/
theorem isUnsupported_take_one_version : ∃ store, Inline.Store.build [("a", [0x78])] = .ok store ∧
    let d := (empty.addVersion (.sample 1 10) [0xb]).setStore store
    (∃ e, decode (d.bytes.take (d.blobEnd + 1)) = .error e ∧ e.isUnsupported = true) ∧
      ∃ e, decode (d.bytes.take (d.bytes.length - 1)) = .error e ∧ e.isUnsupported = false := by
  refine ⟨⟨[1, 0x81, 0xa1, 0x61, 0xc4, 1, 0x78], 1⟩, rfl, ?_⟩
  intro d
  have hstore : Inline.Store.Obtained d.store :=
    .written (.build (show Inline.Store.build [("a", [0x78])] = .ok _ from rfl)
      (show [("a", [0x78])].foldlM Inline.Store.put [] = .ok [("a", [0x78])] from rfl)
      ⟨by decide, by decide⟩)
  have hd : Edited Inline.Store.Obtained empty d :=
    .setStore hstore (.addVersion (.sample 1 10) [0xb] .start)
  have hsize : d.index.encode.length < 0x100000000 := by decide +kernel
  have hends : d.blobEnd + 1 < d.checksumEnd ∧ d.checksumEnd + 7 = d.bytes.length := by
    decide +kernel
  obtain ⟨hinside, hunknown⟩ := Edited.isUnsupported_take_iff .empty hd hsize
    (n := d.blobEnd + 1) (by omega)
  obtain ⟨houtside, -⟩ := Edited.isUnsupported_take_iff .empty hd hsize
    (n := d.bytes.length - 1) (by omega)
  have hbetween : d.blobEnd < d.blobEnd + 1 ∧ d.blobEnd + 1 < d.checksumEnd := ⟨by omega, hends.1⟩
  constructor
  · obtain ⟨b, hb⟩ := hunknown hbetween.1 hbetween.2
    exact ⟨_, hb, (hinside _ hb).1.mpr hbetween⟩
  · have hcut : (decode (d.bytes.take (d.bytes.length - 1))).isOk = false := by decide +kernel
    cases he : decode (d.bytes.take (d.bytes.length - 1)) with
    | ok r =>
        rw [he] at hcut
        exact absurd hcut (by simp [Except.isOk, Except.toBool])
    | error e =>
        refine ⟨e, rfl, Bool.eq_false_iff.mpr fun h => ?_⟩
        have := ((houtside e he).1.mp h).2
        omega

/-- The record without versions or values, one byte into its checksum. -/
theorem decode_empty_take :
    14 < empty.bytes.length ∧
      empty.bytes.take 14 = FormatVersion.current.bytes ++ [0xc4, 3, 2, 2, 0, 0xce] ∧
      decode (empty.bytes.take 14) = .error (.unknownInlineVersion 0xce) ∧
      (DecodeError.unknownInlineVersion 0xce).isUnsupported = true ∧
      (Tool.Fault.ofDecodeError (.unknownInlineVersion 0xce)).isCorruption = false :=
  ⟨by decide +kernel, rfl, rfl, rfl, rfl⟩

end Draft

end MetaRecord.Record

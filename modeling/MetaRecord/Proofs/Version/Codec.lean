/-
# `MetaRecord.Proofs.Version.Codec` — headers and index blobs are read back

A version header is read back from its bytes whatever follows them, because
each field is.  An index blob is read back from its encoding under a weaker
condition than having been built here: an entry keeps the header bytes it was
stored with, which need not be the ones `Header.bytes` would write, and all
that matters is that they decode to the entry's header.  That is `Legible`;
decoding yields only legible entries, and inserting and removing keep them so.

Main statements: `Header.read_bytes_append`, and `Index.decode_encode` with
`Index.legible_of_decode`, `legible_insert` and `legible_remove` for its
hypothesis.
-/
import MetaRecord.Proofs.MessagePack.Spelling
import MetaRecord.Version.Index

namespace MetaRecord.Version

open MessagePack (Read ReadError Spells Write.bin Write.uint Write.int)

/-! ## Headers -/

/-- The identifier that repeats one byte. -/
def Id.repeated (byte : UInt8) : Id := ⟨List.replicate 16 byte, List.length_replicate⟩

namespace Header

/-- A field at the front is read, and the scan goes on behind it. -/
theorem field_bind {α β : Type} {name : HeaderField} {r : Read α} {p : Bytes} {a : α}
    (h : Spells ReadError.IsShort r p a) (f : α → Scan β) (rest : Bytes) :
    (field name r >>= f) (p ++ rest) = f a rest := by
  have hfield : field name r (p ++ rest) = (.ok a, rest) := by
    rw [field, h.whole]
  show ExceptT.bindCont f (field name r (p ++ rest)).1 (field name r (p ++ rest)).2 = _
  rw [hfield]
  rfl

theorem read_bytes_append (h : Header) (rest : Bytes) :
    read (h.bytes ++ rest) = (.ok h, rest) := by
  show scan (h.bytes ++ rest) = _
  simp only [scan, bytes, List.append_assoc]
  rw [field_bind (Spells.arrayLength arity)]
  show (field .versionId (Read.fixedBin 16) >>= _) _ = _
  rw [field_bind (Spells.fixedBin h.id (by decide)), field_bind (Spells.int h.modTime),
    field_bind (Spells.fixedBin h.signature (by decide)), field_bind (Spells.uint8 h.type),
    field_bind (Spells.uint8 h.flags.bits)]
  rfl

theorem decode_bytes (h : Header) : decode h.bytes = .ok h := by
  have hread := read_bytes_append h []
  rw [List.append_nil] at hread
  rw [decode, hread]

/-- An object version without flags, by the byte that its identifier repeats
and by its time. -/
def sample (byte : UInt8) (modTime : Int64) : Header where
  id := Id.repeated byte
  modTime := modTime
  signature := ⟨[0, 0, 0, 0], rfl⟩
  type := Kind.object.code
  flags := ⟨0⟩

@[simp] theorem sample_id (byte : UInt8) (modTime : Int64) :
    (sample byte modTime).id = Id.repeated byte := rfl

end Header

/-! ## Entries whose stored header bytes say what the entry says -/

/-- The stored header bytes decode to the entry's header. -/
def Entry.Legible (e : Entry) : Prop := Header.decode e.headerBytes = .ok e.header

theorem Entry.legible_new (h : Header) (metadata : Bytes) : (Entry.new h metadata).Legible :=
  h.decode_bytes

/-- Both byte strings of an entry have a length that can be written. -/
def Entry.Fits (e : Entry) : Prop :=
  e.headerBytes.length < 0x100000000 ∧ e.metadata.length < 0x100000000

/-- What a visitor keeps of its state at each pair holds of the state when the
walk ends, however it ends. -/
theorem visitPairs_invariant {σ : Type} {visit : Visitor σ} {p : σ → Prop}
    (hvisit : ∀ {i h m s s'}, p s → visit i h m s = .ok s' → p s') :
    ∀ (n i : Nat) {s : σ} (buf : Bytes), p s → p (visitPairs visit n i s buf).2
  | 0, _, _, _, hs => hs
  | n + 1, i, s, buf, hs => by
      rw [visitPairs]
      split
      · exact hs
      · split
        · exact hs
        · split
          · exact hs
          · next hv => exact visitPairs_invariant hvisit n (i + 1) _ (hvisit hs hv)

namespace Index

theorem collect_eq_ok {i : Nat} {h m : Bytes} {es es' : List Entry}
    (hc : collect i h m es = .ok es') :
    ∃ header, Header.decode h = .ok header ∧ es' = ⟨header, h, m⟩ :: es := by
  rw [collect] at hc
  cases hd : Header.decode h with
  | error e =>
      rw [hd] at hc
      exact absurd hc (by simp [Bind.bind, Except.bind])
  | ok header =>
      rw [hd] at hc
      exact ⟨header, rfl, (Except.ok.inj hc).symm⟩

theorem legible_of_decode {blob : Bytes} {index : Index} (h : decode blob = .ok index) :
    ∀ e ∈ index.entries, e.Legible := by
  have hinv : ∀ e ∈ (walk blob collect []).2, e.Legible := by
    rw [walk]
    split
    · exact fun e he => absurd he List.not_mem_nil
    · next revisions count rest _ =>
        refine visitPairs_invariant (p := fun es => ∀ e ∈ es, Entry.Legible e) ?_ count 0 rest
          (fun e he => absurd he List.not_mem_nil)
        intro i h m es es' hes hc
        obtain ⟨header, hd, rfl⟩ := collect_eq_ok hc
        intro e he
        rcases List.mem_cons.mp he with rfl | he
        · exact hd
        · exact hes e he
  rw [decode] at h
  generalize walk blob collect [] = w at h hinv
  obtain ⟨outcome, entries⟩ := w
  cases outcome with
  | error e => exact absurd h (by simp [Except.map])
  | ok revisions =>
      obtain rfl := Except.ok.inj h
      exact fun e he => hinv e (List.mem_reverse.mp he)

theorem mem_insert {index : Index} {new e : Entry} (he : e ∈ (index.insert new).entries) :
    e = new ∨ e ∈ index.entries := by
  rw [insert] at he
  rcases List.mem_append.mp he with h | h
  · exact Or.inr (List.mem_of_mem_eraseP (List.mem_of_mem_take h))
  · rcases List.mem_cons.mp h with rfl | h
    · exact Or.inl rfl
    · exact Or.inr (List.mem_of_mem_eraseP (List.mem_of_mem_drop h))

theorem legible_insert {index : Index} {new : Entry} (h : ∀ e ∈ index.entries, e.Legible)
    (hnew : new.Legible) : ∀ e ∈ (index.insert new).entries, e.Legible := by
  intro e he
  rcases mem_insert he with rfl | he
  · exact hnew
  · exact h e he

theorem legible_remove {index : Index} (id : Id) (h : ∀ e ∈ index.entries, e.Legible) :
    ∀ e ∈ (index.remove id).2.entries, e.Legible :=
  fun e he => h e (List.mem_of_mem_eraseP he)

/-! ## Blobs -/

theorem indexed_append {α : Type} {r : Read α} {p : Bytes} {a : α}
    (h : Spells ReadError.IsShort r p a) (rest : Bytes) :
    indexed r (p ++ rest) = .ok (a, rest) := by
  rw [indexed, h.whole]
  rfl

theorem visitPairs_entryBytes :
    ∀ {es : List Entry} (i : Nat) (acc : List Entry) (rest : Bytes),
      (∀ e ∈ es, e.Legible) → (∀ e ∈ es, e.Fits) →
      visitPairs collect es.length i acc (es.flatMap entryBytes ++ rest)
        = (.ok (), es.reverse ++ acc)
  | [], _, _, _, _, _ => rfl
  | e :: es, i, acc, rest, hl, hf => by
      obtain ⟨hh, hm⟩ := hf e List.mem_cons_self
      have hc : collect i e.headerBytes e.metadata acc = .ok (e :: acc) := by
        rw [collect, hl e List.mem_cons_self]
        rfl
      have hbytes : (e :: es).flatMap entryBytes ++ rest
          = Write.bin e.headerBytes ++
            (Write.bin e.metadata ++ (es.flatMap entryBytes ++ rest)) := by
        simp only [List.flatMap_cons, entryBytes, List.append_assoc]
      rw [hbytes, List.length_cons, visitPairs, indexed_append (Spells.bin hh)]
      dsimp only
      rw [indexed_append (Spells.bin hm)]
      dsimp only
      rw [hc]
      dsimp only
      rw [visitPairs_entryBytes (i + 1) (e :: acc) rest
        (fun x hx => hl x (List.mem_cons_of_mem _ hx))
        (fun x hx => hf x (List.mem_cons_of_mem _ hx))]
      simp

theorem opening_append {count : Int64} (hc : ¬ count < 0) (rest : Bytes) :
    opening (Write.uint Revisions.current.header ++ (Write.uint Revisions.current.metadata ++
      (Write.int count ++ rest))) = .ok ((.current, count.toInt.toNat), rest) := by
  dsimp only [opening]
  rw [indexed_append (Spells.uint _), ok_bind]
  dsimp only
  rw [if_neg (by decide), indexed_append (Spells.uint _), ok_bind]
  dsimp only
  rw [if_neg (by decide), indexed_append (Spells.int _), ok_bind]
  dsimp only
  rw [if_neg hc]
  rfl

theorem length_le_encode {index : Index} {e : Entry} (he : e ∈ index.entries) :
    e.headerBytes.length + e.metadata.length ≤ index.encode.length := by
  have hsub : (entryBytes e).length ≤ (index.entries.flatMap entryBytes).length := by
    rw [List.flatMap_def]
    exact (List.sublist_flatten_of_mem (List.mem_map_of_mem he)).length_le
  have hentry : e.headerBytes.length + e.metadata.length ≤ (entryBytes e).length := by
    simp only [entryBytes, Write.bin, List.length_append]
    omega
  simp only [encode, List.length_append]
  omega

theorem fits_of_encode {index : Index} (h : index.encode.length < 0x100000000) :
    ∀ e ∈ index.entries, e.Fits := by
  intro e he
  have hle := length_le_encode he
  exact ⟨by omega, by omega⟩

theorem count_le_encode (index : Index) : index.entries.length ≤ index.encode.length := by
  have hle : ∀ es : List Entry, es.length ≤ (es.flatMap entryBytes).length := by
    intro es
    induction es with
    | nil => exact Nat.le_refl 0
    | cons e es ih =>
        have := List.length_pos_iff.mpr (MessagePack.Write.bin_ne_nil e.headerBytes)
        simp only [List.flatMap_cons, entryBytes, List.length_append, List.length_cons]
        omega
  have := hle index.entries
  simp only [encode, List.length_append]
  omega

/-- A blob that can be written is read back, at the current revisions. -/
theorem decode_encode {index : Index} (hl : ∀ e ∈ index.entries, e.Legible)
    (hsize : index.encode.length < 0x100000000) :
    decode index.encode = .ok { index with revisions := .current } := by
  have hcount := count_le_encode index
  have htoInt : (Int64.ofNat index.entries.length).toInt = index.entries.length :=
    Int64.toInt_ofNat_of_lt (by omega)
  have hneg : ¬ Int64.ofNat index.entries.length < 0 := by
    rw [Int64.lt_iff_toInt_lt, htoInt]
    exact Int.not_lt.mpr (Int.natCast_nonneg _)
  have hwalk : walk index.encode collect [] = (.ok .current, index.entries.reverse) := by
    simp only [walk, encode, List.append_assoc]
    rw [opening_append hneg, htoInt, Int.toNat_natCast]
    dsimp only
    have hpairs := visitPairs_entryBytes 0 [] [] hl (fits_of_encode hsize)
    rw [List.append_nil, List.append_nil] at hpairs
    rw [hpairs]
    rfl
  rw [decode, hwalk]
  show Except.ok _ = _
  rw [List.reverse_reverse]

end Index

end MetaRecord.Version

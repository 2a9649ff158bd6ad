/-
# `MetaRecord.Proofs.MessagePack.Ranges` — the integer reads differ in their range alone

There are two families of integers, unsigned and signed, and a writer for each.
An integer that is not negative can be written by both, and a small one has the
same byte in both.  The reads do not ask which writer it was: each takes every
encoding of an integer (`EncodesInteger`) and then looks whether the integer is
in the range of its type.  So what one of them gives and another does not is a
matter of the integer, never of its bytes.

Main statements: `uint_of_encodes` and `int_of_encodes`, what the two reads make
of an encoding of any integer; `exists_int_iff`, `exists_uint32_iff` and
`exists_uint8_iff`, which integers the reads have in common; and
`integer_reads_agree`.
-/
import MetaRecord.Proofs.MessagePack.Encoding

namespace MetaRecord.MessagePack.Read

/-! ## What the reads make of an integer -/

/-- What is made of an integer that must fit 64 signed bits. -/
def signed64 (v : Int) : Read Int64 :=
  if v < 0x8000000000000000 then return Int64.ofInt v else throw (.outOfRange .signed64)

section Encoded

variable {v : Int} {p : Bytes}

/-- A read that goes on with an integer does so with the one that is encoded. -/
theorem integer_bind {α : Type} (h : EncodesInteger v p) (rest : Bytes) (kind : Kind)
    (f : Int → Read α) : (byte >>= fun b => integer kind b >>= f) (p ++ rest) = f v rest := by
  rw [← bind_assoc]
  show ((byte >>= integer kind) (p ++ rest) >>= fun x => f x.1 x.2) = f v rest
  rw [(h.spells kind).whole rest, ok_bind]

theorem uint_of_encodes (h : EncodesInteger v p) (rest : Bytes) :
    uint (p ++ rest) = natural v rest := integer_bind h rest .uint natural

theorem int_of_encodes (h : EncodesInteger v p) (rest : Bytes) :
    int (p ++ rest) = signed64 v rest := integer_bind h rest .int signed64

/-- An integer that is not negative is given as it is, and another is refused. -/
theorem natural_eq (rest : Bytes) :
    natural v rest =
      if 0 ≤ v then .ok (UInt64.ofNat v.toNat, rest) else .error (.outOfRange .unsigned64) := by
  cases v with
  | ofNat n => rfl
  | negSucc n => rfl

theorem signed64_eq (rest : Bytes) :
    signed64 v rest =
      if v < 0x8000000000000000 then .ok (Int64.ofInt v, rest)
      else .error (.outOfRange .signed64) := by
  rw [signed64]
  split <;> rfl

end Encoded

/-! ## Which integers the reads give -/

section Given

variable {buf rest : Bytes} {n : Nat}

theorem exists_uint_iff :
    (∃ v, uint buf = .ok (v, rest) ∧ v.toNat = n) ↔ ∃ p, EncodesInteger n p ∧ buf = p ++ rest := by
  constructor
  · rintro ⟨v, hread, rfl⟩
    exact uint_eq_ok_iff.mp hread
  · rintro ⟨p, hp, rfl⟩
    have hn : n < 0x10000000000000000 := Int.ofNat_lt.mp hp.lt
    exact ⟨UInt64.ofNat n, uint_of_encodes hp rest, UInt64.toNat_ofNat_of_lt' hn⟩

theorem exists_int_iff :
    (∃ w, int buf = .ok (w, rest) ∧ w.toInt = n) ↔
      n < 0x8000000000000000 ∧ ∃ v, uint buf = .ok (v, rest) ∧ v.toNat = n := by
  rw [exists_uint_iff]
  constructor
  · rintro ⟨w, hread, hw⟩
    have hlt : w.toInt < 0x8000000000000000 := w.toInt_lt
    obtain ⟨p, hp, hbuf⟩ := int_eq_ok_iff.mp hread
    rw [hw] at hp
    exact ⟨by omega, p, hp, hbuf⟩
  · rintro ⟨hlt, p, hp, rfl⟩
    have hlt : (n : Int) < 0x8000000000000000 := by omega
    refine ⟨Int64.ofInt n, ?_, Int64.toInt_ofInt_of_le hp.ge hlt⟩
    rw [int_of_encodes hp, signed64_eq, if_pos hlt]

/-- An unsigned integer is made narrower without loss, or refused. -/
theorem exists_narrow_iff {α : Type} {narrow : UInt64 → α} {toNat : α → Nat} {limit : Nat}
    {range : Range} (hnarrow : ∀ v, toNat (narrow v) = v.toNat % limit) :
    (∃ c, (uint >>= fun v => if v.toNat < limit then pure (narrow v) else throw (.outOfRange range))
        buf = .ok (c, rest) ∧ toNat c = n) ↔
      n < limit ∧ ∃ v, uint buf = .ok (v, rest) ∧ v.toNat = n := by
  constructor
  · rintro ⟨c, hread, rfl⟩
    obtain ⟨v, mid, hv, h⟩ := bind_eq_ok_iff.mp hread
    split at h
    · next hlt =>
        obtain ⟨rfl, rfl⟩ := pure_eq_ok_iff.mp h
        rw [hnarrow, Nat.mod_eq_of_lt hlt]
        exact ⟨hlt, v, hv, rfl⟩
    · exact absurd h throw_ne_ok
  · rintro ⟨hlt, v, hv, rfl⟩
    refine ⟨narrow v, bind_eq_ok_iff.mpr ⟨v, rest, hv, ?_⟩, ?_⟩
    · rw [if_pos hlt]
      rfl
    · rw [hnarrow, Nat.mod_eq_of_lt hlt]

theorem exists_uint32_iff :
    (∃ c, uint32 buf = .ok (c, rest) ∧ c.toNat = n) ↔
      n < 0x100000000 ∧ ∃ v, uint buf = .ok (v, rest) ∧ v.toNat = n :=
  exists_narrow_iff UInt64.toNat_toUInt32

theorem exists_uint8_iff :
    (∃ c, uint8 buf = .ok (c, rest) ∧ c.toNat = n) ↔
      n < 0x100 ∧ ∃ v, uint buf = .ok (v, rest) ∧ v.toNat = n :=
  exists_narrow_iff UInt64.toNat_toUInt8

end Given

/-- **The reads of integers agree.**  Either read gives back what either writer
wrote, unless the integer is outside its range, which it reports.  On any bytes,
an integer that is not negative is given by the signed read and by the narrower
ones exactly if the unsigned read gives it and it is in their range, and the
same bytes are left. -/
theorem integer_reads_agree :
    (∀ (v : UInt64) (rest : Bytes),
      uint (Write.uint v ++ rest) = .ok (v, rest) ∧
      int (Write.uint v ++ rest) =
        if v.toNat < 0x8000000000000000 then .ok (Int64.ofInt v.toNat, rest)
        else .error (.outOfRange .signed64)) ∧
    (∀ (w : Int64) (rest : Bytes),
      int (Write.int w ++ rest) = .ok (w, rest) ∧
      uint (Write.int w ++ rest) =
        if 0 ≤ w.toInt then .ok (UInt64.ofNat w.toInt.toNat, rest)
        else .error (.outOfRange .unsigned64)) ∧
    ∀ (buf rest : Bytes) (n : Nat),
      ((∃ w, int buf = .ok (w, rest) ∧ w.toInt = n) ↔
        n < 0x8000000000000000 ∧ ∃ v, uint buf = .ok (v, rest) ∧ v.toNat = n) ∧
      ((∃ c, uint32 buf = .ok (c, rest) ∧ c.toNat = n) ↔
        n < 0x100000000 ∧ ∃ v, uint buf = .ok (v, rest) ∧ v.toNat = n) ∧
      ((∃ c, uint8 buf = .ok (c, rest) ∧ c.toNat = n) ↔
        n < 0x100 ∧ ∃ v, uint buf = .ok (v, rest) ∧ v.toNat = n) := by
  refine ⟨fun v rest => ⟨(Spells.uint v).whole rest, ?_⟩,
    fun w rest => ⟨(Spells.int w).whole rest, ?_⟩,
    fun buf rest n => ⟨exists_int_iff, exists_uint32_iff, exists_uint8_iff⟩⟩
  · rw [int_of_encodes (.of_spells (.integer_uint .int v)), signed64_eq]
    exact ite_congr (by simp only [eq_iff_iff]; omega) (fun _ => rfl) fun _ => rfl
  · rw [uint_of_encodes (.of_spells (.integer_int .uint w)), natural_eq]

/-- An integer behind a signed marker that fits 64 unsigned bits and not 32. -/
example : uint [0xd3, 0, 0, 0, 1, 0, 0, 0, 0] = .ok (0x100000000, []) ∧
    uint32 [0xd3, 0, 0, 0, 1, 0, 0, 0, 0] = .error (.outOfRange .unsigned32) := by decide

end MetaRecord.MessagePack.Read

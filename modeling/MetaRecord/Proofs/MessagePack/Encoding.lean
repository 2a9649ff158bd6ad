/-
# `MetaRecord.Proofs.MessagePack.Encoding` — all the ways to write a value

The writers give one encoding of a value, the reads accept many: a length or
an integer may be wider than it has to be, and an integer that is not negative
may carry a signed marker.  `EncodesBin` and `EncodesInteger` list the
encodings of a byte string and of an integer by what their first byte
announces.  They are stated without the reads, and the reads accept nothing
else.

Main statements: `Read.bin_eq_ok_iff` and `Read.uint32_eq_ok_iff`.
-/
import MetaRecord.Proofs.MessagePack.Spelling

namespace MetaRecord.MessagePack

/-! ## The lengths of what is written -/

namespace Write

theorem length_sized (code : UInt8) (width n : Nat) :
    (sized code width n).length = width + 1 := by
  rw [sized, List.length_cons, Bytes.length_ofNatBE]

theorem length_length (c₁ c₂ c₄ : UInt8) (n : Nat) :
    (length c₁ c₂ c₄ n).length = if n < 0x100 then 2 else if n < 0x10000 then 3 else 5 := by
  simp only [length, apply_ite List.length, length_sized]

theorem length_uint (v : UInt64) :
    (uint v).length =
      if v.toNat < 0x80 then 1 else if v.toNat < 0x100 then 2 else if v.toNat < 0x10000 then 3
      else if v.toNat < 0x100000000 then 5 else 9 := by
  rw [uint]
  simp only [apply_ite List.length, length_sized, List.length_singleton]

theorem length_int (w : Int64) :
    (int w).length =
      if -0x20 ≤ w.toInt ∧ w.toInt < 0x80 then 1
      else if -0x80 ≤ w.toInt ∧ w.toInt < 0x80 then 2
      else if -0x8000 ≤ w.toInt ∧ w.toInt < 0x8000 then 3
      else if -0x80000000 ≤ w.toInt ∧ w.toInt < 0x80000000 then 5 else 9 := by
  rw [int]
  simp only [apply_ite List.length, length_sized, List.length_singleton]
  split_ifs <;> omega

end Write

/-! ## Encodings -/

/-- `p` encodes the byte string `data`: a first byte that announces the width
of the length, the length and the bytes. -/
inductive EncodesBin (data : Bytes) : Bytes → Prop
  | sized {code : UInt8} {width : Nat} : Lead.ofByte code = .binSized width →
      data.length < Nat.pow 256 width →
      EncodesBin data (Write.sized code width data.length ++ data)

/-- `p` encodes the integer `v`: in its first byte, or behind it as an unsigned
number or as two's complement. -/
inductive EncodesInteger : (v : Int) → (p : Bytes) → Prop
  | positive {code : UInt8} {n : Nat} : Lead.ofByte code = .positive n → EncodesInteger n [code]
  | negative {code : UInt8} {n : Nat} : Lead.ofByte code = .negative n →
      EncodesInteger (n - 256) [code]
  | unsigned {code : UInt8} {width n : Nat} : Lead.ofByte code = .uint width →
      n < Nat.pow 256 width → EncodesInteger n (Write.sized code width n)
  | signed {code : UInt8} {width : Nat} {v : Int} : Lead.ofByte code = .int width →
      -(Nat.pow 256 width : Nat) ≤ 2 * v → 2 * v < (Nat.pow 256 width : Nat) →
      EncodesInteger v (Write.sized code width (Write.complement width v))

/-- An integer in a first byte is below 256, one behind it has at most eight
bytes. -/
def Lead.isNarrow : Lead → Bool
  | .positive n | .negative n => n < 256
  | .uint width | .int width => width ≤ 8
  | _ => true

theorem Lead.isNarrow_ofByte (b : UInt8) : (ofByte b).isNarrow = true := by
  have h : ∀ n : Fin 256, (ofByte (UInt8.ofNat n)).isNarrow = true := by decide +kernel
  simpa using h ⟨b.toNat, b.toNat_lt⟩

theorem Lead.lt_of_inside {b : UInt8} {n : Nat}
    (h : ofByte b = .positive n ∨ ofByte b = .negative n) : n < 256 := by
  have hb := isNarrow_ofByte b
  rcases h with h | h
  all_goals
    rw [h] at hb
    exact of_decide_eq_true hb

theorem Lead.pow_le_of_behind {b : UInt8} {width : Nat}
    (h : ofByte b = .uint width ∨ ofByte b = .int width) :
    Nat.pow 256 width ≤ 0x10000000000000000 := by
  have hb := isNarrow_ofByte b
  have hwidth : width ≤ 8 := by
    rcases h with h | h
    all_goals
      rw [h] at hb
      exact of_decide_eq_true hb
  exact Nat.pow_le_pow_right (by decide) hwidth

/-- The length of a byte string takes a byte at least. -/
theorem Lead.width_pos_of_binSized {b : UInt8} {width : Nat} (h : ofByte b = .binSized width) :
    0 < width := by
  have hnone : ∀ n : Fin 256, ofByte (UInt8.ofNat n) ≠ .binSized 0 := by decide +kernel
  refine Nat.pos_of_ne_zero fun hzero => ?_
  rw [hzero] at h
  exact hnone ⟨b.toNat, b.toNat_lt⟩ (by simpa using h)

theorem EncodesBin.two_le_length {data p : Bytes} (h : EncodesBin data p) : 2 ≤ p.length := by
  cases h with
  | sized hcode _ =>
      have := Lead.width_pos_of_binSized hcode
      rw [List.length_append, Write.length_sized]
      omega

/-- No encoding goes beyond 64 bits. -/
theorem EncodesInteger.lt {v : Int} {p : Bytes} (h : EncodesInteger v p) :
    v < 0x10000000000000000 := by
  cases h with
  | @positive code n hcode =>
      have := Lead.lt_of_inside (Or.inl hcode)
      omega
  | @negative code n hcode =>
      have := Lead.lt_of_inside (Or.inr hcode)
      omega
  | @unsigned code width n hcode hlt =>
      have := Lead.pow_le_of_behind (Or.inl hcode)
      omega
  | @signed code width v hcode _ hhigh =>
      have := Lead.pow_le_of_behind (Or.inr hcode)
      omega

theorem EncodesInteger.ge {v : Int} {p : Bytes} (h : EncodesInteger v p) :
    -0x8000000000000000 ≤ v := by
  cases h with
  | @positive code n _ => omega
  | @negative code n _ => omega
  | @unsigned code width n _ _ => omega
  | @signed code width v hcode hlow _ =>
      have := Lead.pow_le_of_behind (Or.inr hcode)
      omega

/-! ## Encodings are read -/

theorem EncodesBin.spells {data p : Bytes} (h : EncodesBin data p) :
    Spells ReadError.IsShort Read.bin p data := by
  cases h with
  | @sized code width hcode hlt =>
      exact Spells.sized (k := Read.take) (by simp only [hcode]) hlt (Spells.take rfl)

theorem EncodesInteger.spells (kind : Kind) {v : Int} {p : Bytes} (h : EncodesInteger v p) :
    Spells ReadError.IsShort (Read.byte >>= Read.integer kind) p v := by
  cases h with
  | @positive code n hcode =>
      refine Spells.lead code ?_
      rw [Read.integer, hcode]
      exact Spells.pure
  | @negative code n hcode =>
      refine Spells.lead code ?_
      rw [Read.integer, hcode]
      exact Spells.pure
  | @unsigned code width n hcode hlt =>
      have hf : Read.integer kind code
          = Read.number width >>= fun n => Pure.pure (n : Int) := by rw [Read.integer, hcode]
      have hread := Spells.sized (k := fun n : Nat => Pure.pure (n : Int)) hf hlt Spells.pure
      rw [List.append_nil] at hread
      exact hread
  | signed hcode hlow hhigh => exact Spells.integer_complement kind hcode hlow hhigh

namespace Read

theorem byte_bind {α : Type} {b : UInt8} {mid : Bytes} (f : UInt8 → Read α) :
    (byte >>= f) (b :: mid) = f b mid := rfl

/-! ## What is read is an encoding -/

theorem exists_ofNatBE_of_number {width n : Nat} {buf rest : Bytes}
    (h : number width buf = .ok (n, rest)) :
    n < Nat.pow 256 width ∧ buf = Bytes.ofNatBE width n ++ rest := by
  obtain ⟨digits, rfl, rfl, rfl⟩ := number_eq_ok_iff.mp h
  exact ⟨digits.toNatBE_lt, by rw [Bytes.ofNatBE_toNatBE]⟩

theorem bin_eq_ok_iff {buf data rest : Bytes} :
    bin buf = .ok (data, rest) ↔ ∃ p, EncodesBin data p ∧ buf = p ++ rest := by
  constructor
  · intro hbin
    obtain ⟨code, mid, hbyte, h⟩ := bind_eq_ok_iff.mp hbin
    obtain rfl := byte_eq_ok_iff.mp hbyte
    cases hcode : Lead.ofByte code <;> rw [hcode] at h
    case binSized width =>
      obtain ⟨n, mid, hn, htake⟩ := bind_eq_ok_iff.mp h
      obtain ⟨hlt, rfl⟩ := exists_ofNatBE_of_number hn
      obtain ⟨rfl, rfl⟩ := take_eq_ok_iff.mp htake
      exact ⟨_, .sized hcode hlt, by simp [Write.sized]⟩
    all_goals exact absurd h throw_ne_ok
  · rintro ⟨p, hp, rfl⟩
    exact hp.spells.whole rest

theorem complement_signed {width n : Nat} (h : n < Nat.pow 256 width) :
    -(Nat.pow 256 width : Nat) ≤ 2 * signed width n ∧
      2 * signed width n < (Nat.pow 256 width : Nat) ∧
      Write.complement width (signed width n) = n := by
  rw [signed, Write.complement]
  generalize Nat.pow 256 width = m at h ⊢
  split
  · next hlow =>
      rw [Int.emod_eq_of_lt (by omega) (by omega)]
      exact ⟨by omega, by omega, by omega⟩
  · next hhigh =>
      rw [← Int.add_emod_right, Int.sub_add_cancel, Int.emod_eq_of_lt (by omega) (by omega)]
      exact ⟨by omega, by omega, by omega⟩

theorem integer_eq_ok_iff {kind : Kind} {buf rest : Bytes} {v : Int} :
    (byte >>= integer kind) buf = .ok (v, rest) ↔
      ∃ p, EncodesInteger v p ∧ buf = p ++ rest := by
  constructor
  · intro hinteger
    obtain ⟨code, mid, hbyte, h⟩ := bind_eq_ok_iff.mp hinteger
    obtain rfl := byte_eq_ok_iff.mp hbyte
    rw [integer] at h
    cases hcode : Lead.ofByte code <;> rw [hcode] at h
    case positive n =>
      obtain ⟨rfl, rfl⟩ := pure_eq_ok_iff.mp h
      exact ⟨_, .positive hcode, rfl⟩
    case negative n =>
      obtain ⟨rfl, rfl⟩ := pure_eq_ok_iff.mp h
      exact ⟨_, .negative hcode, rfl⟩
    case uint width =>
      obtain ⟨n, mid, hn, hpure⟩ := bind_eq_ok_iff.mp h
      obtain ⟨hlt, rfl⟩ := exists_ofNatBE_of_number hn
      obtain ⟨rfl, rfl⟩ := pure_eq_ok_iff.mp hpure
      exact ⟨_, .unsigned hcode hlt, rfl⟩
    case int width =>
      obtain ⟨n, mid, hn, hpure⟩ := bind_eq_ok_iff.mp h
      obtain ⟨hlt, rfl⟩ := exists_ofNatBE_of_number hn
      obtain ⟨rfl, rfl⟩ := pure_eq_ok_iff.mp hpure
      obtain ⟨hlow, hhigh, hn⟩ := complement_signed hlt
      refine ⟨_, .signed hcode hlow hhigh, ?_⟩
      rw [hn]
      rfl
    all_goals exact absurd h throw_ne_ok
  · rintro ⟨p, hp, rfl⟩
    exact (hp.spells kind).whole rest

end Read

theorem EncodesInteger.of_spells {kind : Kind} {v : Int} {p : Bytes}
    (h : Spells ReadError.IsShort (Read.byte >>= Read.integer kind) p v) : EncodesInteger v p := by
  obtain ⟨p', hp', hbytes⟩ := Read.integer_eq_ok_iff.mp (h.whole [])
  rw [List.append_cancel_right hbytes]
  exact hp'

namespace Read

/-- What is made of an integer that must not be negative. -/
def natural : Int → Read UInt64
  | .ofNat n => return UInt64.ofNat n
  | .negSucc _ => throw (.outOfRange .unsigned64)

theorem uint_eq_ok_iff {buf rest : Bytes} {v : UInt64} :
    uint buf = .ok (v, rest) ↔ ∃ p, EncodesInteger v.toNat p ∧ buf = p ++ rest := by
  constructor
  · intro huint
    obtain ⟨code, mid, hbyte, h⟩ := bind_eq_ok_iff.mp huint
    obtain ⟨w, mid', hw, h⟩ := bind_eq_ok_iff.mp h
    obtain ⟨p, hp, rfl⟩ := integer_eq_ok_iff.mp (bind_eq_ok_iff.mpr ⟨code, mid, hbyte, hw⟩)
    cases w with
    | ofNat n =>
        obtain ⟨rfl, rfl⟩ := pure_eq_ok_iff.mp h
        have hn : n < 0x10000000000000000 := Int.ofNat_lt.mp hp.lt
        refine ⟨p, ?_, rfl⟩
        rw [UInt64.toNat_ofNat_of_lt' hn]
        exact hp
    | negSucc n => exact absurd h throw_ne_ok
  · rintro ⟨p, hp, rfl⟩
    have hread := Spells.narrow (hp.spells .uint) (f := natural)
      (show Pure.pure (UInt64.ofNat v.toNat) = Pure.pure v by rw [UInt64.ofNat_toNat])
    exact hread.whole rest

theorem int_eq_ok_iff {buf rest : Bytes} {v : Int64} :
    int buf = .ok (v, rest) ↔ ∃ p, EncodesInteger v.toInt p ∧ buf = p ++ rest := by
  constructor
  · intro hint
    obtain ⟨code, mid, hbyte, h⟩ := bind_eq_ok_iff.mp hint
    obtain ⟨w, mid', hw, h⟩ := bind_eq_ok_iff.mp h
    obtain ⟨p, hp, rfl⟩ := integer_eq_ok_iff.mp (bind_eq_ok_iff.mpr ⟨code, mid, hbyte, hw⟩)
    split at h
    · next hlt =>
        obtain ⟨rfl, rfl⟩ := pure_eq_ok_iff.mp h
        refine ⟨p, ?_, rfl⟩
        rw [Int64.toInt_ofInt_of_le hp.ge hlt]
        exact hp
    · exact absurd h throw_ne_ok
  · rintro ⟨p, hp, rfl⟩
    have hlt : v.toInt < 0x8000000000000000 := v.toInt_lt
    have hread := Spells.narrow (hp.spells .int)
      (f := fun w : Int =>
        if w < 0x8000000000000000 then Pure.pure (Int64.ofInt w) else throw (.outOfRange .signed64))
      (show _ = Pure.pure v by rw [if_pos hlt, Int64.ofInt_toInt])
    exact hread.whole rest

theorem uint32_eq_ok_iff {buf rest : Bytes} {c : UInt32} :
    uint32 buf = .ok (c, rest) ↔ ∃ p, EncodesInteger c.toNat p ∧ buf = p ++ rest := by
  constructor
  · intro huint32
    obtain ⟨v, mid, hv, h⟩ := bind_eq_ok_iff.mp huint32
    obtain ⟨p, hp, rfl⟩ := uint_eq_ok_iff.mp hv
    split at h
    · next hlt =>
        obtain ⟨rfl, rfl⟩ := pure_eq_ok_iff.mp h
        refine ⟨p, ?_, rfl⟩
        rw [UInt64.toNat_toUInt32, Nat.mod_eq_of_lt hlt]
        exact hp
    · exact absurd h throw_ne_ok
  · rintro ⟨p, hp, rfl⟩
    have hc : c.toUInt64.toNat < 0x100000000 := c.toNat_lt
    have huint : uint (p ++ rest) = .ok (c.toUInt64, rest) := uint_eq_ok_iff.mpr ⟨p, hp, rfl⟩
    refine bind_eq_ok_iff.mpr ⟨_, rest, huint, ?_⟩
    rw [if_pos hc, UInt32.toUInt32_toUInt64]
    rfl

end Read

end MetaRecord.MessagePack

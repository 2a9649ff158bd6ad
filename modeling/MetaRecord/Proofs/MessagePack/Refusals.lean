/-
# `MetaRecord.Proofs.MessagePack.Refusals` — why there is no value to be read

A read that fails says why.  For a byte string and for an integer there are few
reasons: the bytes are used up, the first byte opens no encoding of the kind that
is asked for, what it announces is longer than what is left, or an integer is
there and out of range.  `LacksBin` and `LacksInteger` list them by the bytes, so
that a failure can be spoken of without the read that finds it.

The reads of integers look for the same encodings and differ in what they accept
behind them.  So the reasons are listed once, with the range as a parameter, and
`integer_bind_eq_error_iff` is about every read that goes on with an integer.

Main statements: `Read.bin_eq_error_iff`, `Read.uint_eq_error_iff` and
`Read.int_eq_error_iff`.
-/
import MetaRecord.Proofs.MessagePack.Ranges

namespace MetaRecord.MessagePack

/-! ## First bytes -/

/-- The bytes that open an encoding of a byte string. -/
theorem exists_encodesBin_iff {code : UInt8} :
    (∃ data p, EncodesBin data (code :: p)) ↔ ∃ width, Lead.ofByte code = .binSized width := by
  constructor
  · rintro ⟨data, p, h⟩
    generalize hq : code :: p = q at h
    cases h with
    | @sized code' width hcode _ =>
        obtain ⟨rfl, -⟩ := List.cons.inj hq
        exact ⟨width, hcode⟩
  · rintro ⟨width, hcode⟩
    exact ⟨[], _, .sized hcode (Nat.pow_pos (by decide))⟩

/-- The bytes that open an encoding of an integer. -/
theorem exists_encodesInteger_iff {code : UInt8} :
    (∃ v p, EncodesInteger v (code :: p)) ↔
      (∃ n, Lead.ofByte code = .positive n) ∨ (∃ n, Lead.ofByte code = .negative n) ∨
        (∃ width, Lead.ofByte code = .uint width) ∨ ∃ width, Lead.ofByte code = .int width := by
  constructor
  · rintro ⟨v, p, h⟩
    generalize hq : code :: p = q at h
    cases h with
    | @positive code' n hcode =>
        obtain ⟨rfl, -⟩ := List.cons.inj hq
        exact Or.inl ⟨n, hcode⟩
    | @negative code' n hcode =>
        obtain ⟨rfl, -⟩ := List.cons.inj hq
        exact Or.inr (Or.inl ⟨n, hcode⟩)
    | @unsigned code' width n hcode _ =>
        obtain ⟨rfl, -⟩ := List.cons.inj hq
        exact Or.inr (Or.inr (Or.inl ⟨width, hcode⟩))
    | @signed code' width _ hcode _ _ =>
        obtain ⟨rfl, -⟩ := List.cons.inj hq
        exact Or.inr (Or.inr (Or.inr ⟨width, hcode⟩))
  · have hpow (width : Nat) : 0 < Nat.pow 256 width := Nat.pow_pos (by decide)
    rintro (⟨n, hcode⟩ | ⟨n, hcode⟩ | ⟨width, hcode⟩ | ⟨width, hcode⟩)
    · exact ⟨_, [], .positive hcode⟩
    · exact ⟨_, [], .negative hcode⟩
    · exact ⟨_, _, .unsigned hcode (hpow width)⟩
    · have := hpow width
      exact ⟨0, _, .signed hcode (by omega) (by omega)⟩

/-! ## Reasons -/

/-- No byte string stands at the front of the bytes, for the reason given. -/
inductive LacksBin : (buf : Bytes) → (cause : ReadError) → Prop
  | missing : LacksBin [] (.short 1 0)
  | kind {code : UInt8} {mid : Bytes} : (¬ ∃ data p, EncodesBin data (code :: p)) →
      LacksBin (code :: mid) (.wrongKind .bin code)
  /-- The length is cut. -/
  | length {code : UInt8} {width : Nat} {mid : Bytes} :
      Lead.ofByte code = .binSized width → mid.length < width →
      LacksBin (code :: mid) (.short width mid.length)
  /-- The bytes that the length announces are cut. -/
  | data {code : UInt8} {width size : Nat} {mid : Bytes} :
      Lead.ofByte code = .binSized width → size < Nat.pow 256 width → mid.length < size →
      LacksBin (Write.sized code width size ++ mid) (.short size mid.length)

/-- No integer that `fits` the range stands at the front of the bytes, for the
reason given. -/
inductive LacksInteger (kind : Kind) (range : Range) (fits : Int → Prop) :
    (buf : Bytes) → (cause : ReadError) → Prop
  | missing : LacksInteger kind range fits [] (.short 1 0)
  | kind {code : UInt8} {mid : Bytes} : (¬ ∃ v p, EncodesInteger v (code :: p)) →
      LacksInteger kind range fits (code :: mid) (.wrongKind kind code)
  /-- The number behind the first byte is cut. -/
  | number {code : UInt8} {width : Nat} {mid : Bytes} :
      Lead.ofByte code = .uint width ∨ Lead.ofByte code = .int width → mid.length < width →
      LacksInteger kind range fits (code :: mid) (.short width mid.length)
  | outside {v : Int} {p rest : Bytes} : EncodesInteger v p → ¬ fits v →
      LacksInteger kind range fits (p ++ rest) (.outOfRange range)

/-- There is no integer for 64 unsigned bits. -/
abbrev LacksUint : (buf : Bytes) → (cause : ReadError) → Prop :=
  LacksInteger .uint .unsigned64 (0 ≤ ·)

/-- There is no integer for 64 signed bits. -/
abbrev LacksInt : (buf : Bytes) → (cause : ReadError) → Prop :=
  LacksInteger .int .signed64 (· < 0x8000000000000000)

namespace Read

/-! ## Failures of the primitive reads -/

variable {buf rest : Bytes} {cause : ReadError}

theorem bind_eq_error_iff {α β : Type} {r : Read α} {f : α → Read β} :
    (r >>= f) buf = .error cause ↔
      r buf = .error cause ∨ ∃ a mid, r buf = .ok (a, mid) ∧ f a mid = .error cause := by
  change (r buf >>= fun p => f p.1 p.2) = .error cause ↔ _
  rw [bind_eq_error, Prod.exists]

theorem pure_ne_error {α : Type} {a : α} : (pure a : Read α) buf ≠ .error cause := by
  change Except.ok (a, buf) ≠ .error cause
  simp

theorem byte_eq_error_iff : byte buf = .error cause ↔ buf = [] ∧ cause = .short 1 0 := by
  cases buf with
  | nil => rw [byte_nil, Except.error.injEq, and_iff_right rfl, eq_comm]
  | cons b buf => simp

theorem take_eq_error_iff {n : Nat} :
    take n buf = .error cause ↔ buf.length < n ∧ cause = .short n buf.length := by
  rcases Nat.lt_or_ge buf.length n with hlt | hle
  · rw [take_of_lt hlt, Except.error.injEq, and_iff_right hlt, eq_comm]
  · rw [take_of_le hle]
    exact ⟨nofun, fun h => absurd h.1 (Nat.not_lt.mpr hle)⟩

theorem number_eq_error_iff {width : Nat} :
    number width buf = .error cause ↔ buf.length < width ∧ cause = .short width buf.length := by
  rw [number, bind_eq_error_iff, take_eq_error_iff, or_iff_left]
  rintro ⟨_, _, -, h⟩
  exact pure_ne_error h

/-! ## Failures of the reads -/

theorem bin_eq_error_iff : bin buf = .error cause ↔ LacksBin buf cause := by
  constructor
  · intro hbin
    rcases bind_eq_error_iff.mp hbin with hbyte | ⟨code, mid, hbyte, h⟩
    · obtain ⟨rfl, rfl⟩ := byte_eq_error_iff.mp hbyte
      exact .missing
    · obtain rfl := byte_eq_ok_iff.mp hbyte
      cases hcode : Lead.ofByte code <;> rw [hcode] at h
      case binSized width =>
        rcases bind_eq_error_iff.mp h with hn | ⟨size, mid', hn, htake⟩
        · obtain ⟨hlt, rfl⟩ := number_eq_error_iff.mp hn
          exact .length hcode hlt
        · obtain ⟨hsize, rfl⟩ := exists_ofNatBE_of_number hn
          obtain ⟨hlt, rfl⟩ := take_eq_error_iff.mp htake
          exact .data hcode hsize hlt
      all_goals
        obtain rfl := Except.error.inj h
        exact .kind (by simp [exists_encodesBin_iff, hcode])
  · intro h
    cases h with
    | missing => rfl
    | @kind code mid hnone =>
        rw [exists_encodesBin_iff] at hnone
        rw [bin, byte_bind]
        cases hcode : Lead.ofByte code
        case binSized width => exact absurd ⟨width, hcode⟩ hnone
        all_goals rfl
    | @length code width mid hcode hlt =>
        rw [bin, byte_bind, hcode]
        exact bind_eq_error_iff.mpr (Or.inl (number_eq_error_iff.mpr ⟨hlt, rfl⟩))
    | @data code width size mid hcode hsize hlt =>
        show bin (code :: (Bytes.ofNatBE width size ++ mid)) = _
        rw [bin, byte_bind, hcode]
        exact bind_eq_error_iff.mpr (Or.inr
          ⟨size, mid, (Spells.number hsize).whole mid, take_eq_error_iff.mpr ⟨hlt, rfl⟩⟩)

section Integers

variable {kind : Kind} {range : Range} {fits : Int → Prop} {code : UInt8} {mid : Bytes}

/-- A first byte that opens no integer, and a number that is cut. -/
theorem integer_eq_error_iff : integer kind code mid = .error cause ↔
    ((¬ ∃ v p, EncodesInteger v (code :: p)) ∧ cause = .wrongKind kind code) ∨
      ∃ width, (Lead.ofByte code = .uint width ∨ Lead.ofByte code = .int width) ∧
        mid.length < width ∧ cause = .short width mid.length := by
  have hnumber {α : Type} {width : Nat} {f : Nat → α} :
      (number width >>= fun n => (pure (f n) : Read α)) mid = .error cause ↔
        mid.length < width ∧ cause = .short width mid.length := by
    rw [bind_eq_error_iff, number_eq_error_iff, or_iff_left]
    rintro ⟨_, _, -, h⟩
    exact pure_ne_error h
  rw [integer, exists_encodesInteger_iff]
  cases hcode : Lead.ofByte code
  case positive | negative => simp [pure_ne_error]
  case uint width => simpa using hnumber
  case int width => simpa using hnumber
  all_goals
    simp only [reduceCtorEq, exists_false, or_false, not_false_eq_true, true_and, false_and]
    exact ⟨fun h => (Except.error.inj h).symm, fun h => h ▸ rfl⟩

/-- A read that goes on with an integer fails where there is none, and where it
refuses the one that is there. -/
theorem integer_bind_eq_error_iff {α : Type} {f : Int → Read α}
    (hf : ∀ v rest e, f v rest = .error e ↔ ¬ fits v ∧ e = .outOfRange range) :
    (byte >>= fun b => integer kind b >>= f) buf = .error cause ↔
      LacksInteger kind range fits buf cause := by
  constructor
  · intro hread
    rcases bind_eq_error_iff.mp hread with hbyte | ⟨code, mid, hbyte, h⟩
    · obtain ⟨rfl, rfl⟩ := byte_eq_error_iff.mp hbyte
      exact .missing
    · obtain rfl := byte_eq_ok_iff.mp hbyte
      rcases bind_eq_error_iff.mp h with hinteger | ⟨v, rest, hinteger, hv⟩
      · rcases integer_eq_error_iff.mp hinteger with ⟨hnone, rfl⟩ | ⟨width, hcode, hlt, rfl⟩
        · exact .kind hnone
        · exact .number hcode hlt
      · obtain ⟨p, hp, hbuf⟩ := integer_eq_ok_iff.mp
          (bind_eq_ok_iff.mpr ⟨code, mid, byte_cons code mid, hinteger⟩)
        obtain ⟨hrefused, rfl⟩ := (hf v rest cause).mp hv
        rw [hbuf]
        exact .outside hp hrefused
  · intro h
    cases h with
    | missing => rfl
    | @kind code mid hnone =>
        rw [byte_bind]
        exact bind_eq_error_iff.mpr (Or.inl (integer_eq_error_iff.mpr (Or.inl ⟨hnone, rfl⟩)))
    | @number code width mid hcode hlt =>
        rw [byte_bind]
        exact bind_eq_error_iff.mpr (Or.inl (integer_eq_error_iff.mpr
          (Or.inr ⟨width, hcode, hlt, rfl⟩)))
    | @outside v p rest hp hrefused =>
        rw [integer_bind hp]
        exact (hf v rest _).mpr ⟨hrefused, rfl⟩

end Integers

theorem uint_eq_error_iff : uint buf = .error cause ↔ LacksUint buf cause := by
  refine integer_bind_eq_error_iff (f := natural) fun v rest e => ?_
  rw [natural_eq]
  split
  · next hv => exact ⟨nofun, fun h => absurd hv h.1⟩
  · next hv => rw [Except.error.injEq, and_iff_right hv, eq_comm]

theorem int_eq_error_iff : int buf = .error cause ↔ LacksInt buf cause := by
  refine integer_bind_eq_error_iff (f := signed64) fun v rest e => ?_
  rw [signed64_eq]
  split
  · next hv => exact ⟨nofun, fun h => absurd hv h.1⟩
  · next hv => rw [Except.error.injEq, and_iff_right hv, eq_comm]

end Read

end MetaRecord.MessagePack

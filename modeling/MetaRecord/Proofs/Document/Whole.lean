/-
# `MetaRecord.Proofs.Document.Whole` — what is rendered is a whole value

The rendering looks at the first byte and then leaves the reading to the read
of the kind that it announces.  `counted` is the rendering of a family of
values that open with a count; every other first byte is that of a scalar, for
which only the number of bytes behind it matters.

`Takes n r` says that the read `r` takes `n` values whenever it succeeds.  It
follows the shape of a read, so the rendering takes one value because an array
takes as many as its count says and a map twice as many.

Main statements: `value_of_opening` and `value_scalar_iff`, what the first byte
does; `value_takes`, by induction on the levels that are left.
-/
import MetaRecord.Document.Value
import MetaRecord.Proofs.MessagePack.Skip

namespace MetaRecord.MessagePack.Read

open MetaRecord.Decimal (Binary64)

/-! ## Reads and their shapes -/

/-- The read succeeds on `buf` and leaves `rest`. -/
def Leaves {α : Type} (r : Read α) (buf rest : Bytes) : Prop := ∃ a, r buf = .ok (a, rest)

section Shape

variable {α β : Type} {r : Read α} {buf rest : Bytes} {b : UInt8} {mid : Bytes}

theorem upcoming_bind (f : UInt8 → Read β) : (upcoming >>= f) (b :: mid) = f b (b :: mid) := rfl

theorem times_succ (n : Nat) (done : List α) :
    times r (n + 1) done = r >>= fun a => times r n (a :: done) := by
  funext buf
  rw [times]
  show _ = (r buf >>= fun x => times r n (x.1 :: done) x.2)
  cases r buf <;> rfl

theorem leaves_pure {a : α} : Leaves (Pure.pure a) buf rest ↔ Leaves (take 0) buf rest := by
  simp [Leaves, pure_eq_ok_iff, take_eq_ok_iff]

/-- What succeeds on every value that is read, and reads no more, changes
nothing. -/
theorem leaves_bind {f : α → Read β}
    (hf : ∀ a mid, r buf = .ok (a, mid) → ∃ b, f a = Pure.pure b) :
    Leaves (r >>= f) buf rest ↔ Leaves r buf rest := by
  simp only [Leaves, bind_eq_ok_iff]
  constructor
  · rintro ⟨_, a, mid, h, h'⟩
    obtain ⟨b, hb⟩ := hf a mid h
    rw [hb] at h'
    obtain ⟨rfl, rfl⟩ := pure_eq_ok_iff.mp h'
    exact ⟨a, h⟩
  · rintro ⟨a, h⟩
    obtain ⟨b, hb⟩ := hf a rest h
    exact ⟨b, a, rest, h, by rw [hb]; rfl⟩

theorem leaves_bind_pure {g : α → β} :
    Leaves (r >>= fun a => Pure.pure (g a)) buf rest ↔ Leaves r buf rest :=
  leaves_bind fun a _ _ => ⟨g a, rfl⟩

theorem leaves_number {width : Nat} :
    Leaves (number width) buf rest ↔ Leaves (take width) buf rest :=
  leaves_bind_pure

end Shape

/-! ## Reads of scalars -/

section Scalar

variable {b : UInt8} {n width : Nat} {mid rest : Bytes}

theorem leaves_nil (h : Lead.ofByte b = .nil) :
    Leaves nil (b :: mid) rest ↔ Leaves (take 0) mid rest := by
  rw [nil, Leaves, byte_bind, h]
  exact leaves_pure

theorem leaves_bool {v : Bool} (h : Lead.ofByte b = .bool v) :
    Leaves bool (b :: mid) rest ↔ Leaves (take 0) mid rest := by
  rw [bool, Leaves, byte_bind, h]
  exact leaves_pure

theorem leaves_float (h : Lead.ofByte b = .float width) :
    Leaves float (b :: mid) rest ↔ Leaves (take width) mid rest := by
  have hfloat : ∃ g : Nat → Binary64,
      float (b :: mid) = (number width >>= fun n => Pure.pure (g n)) mid := by
    rw [float, byte_bind, h]
    by_cases hw : width = 4
    · subst hw
      exact ⟨fun n => Binary64.ofBinary32 (UInt32.ofNat n), rfl⟩
    · refine ⟨fun n => ⟨UInt64.ofNat n⟩, congrFun ?_ mid⟩
      split
      · next hlead => exact absurd (Lead.float.inj hlead) hw
      · next hlead => rw [Lead.float.inj hlead]
      · next hother => exact absurd rfl (hother width)
  obtain ⟨g, hg⟩ := hfloat
  rw [Leaves, hg]
  exact leaves_bind_pure.trans leaves_number

theorem leaves_uint_positive (h : Lead.ofByte b = .positive n) :
    Leaves uint (b :: mid) rest ↔ Leaves (take 0) mid rest := by
  rw [uint, Leaves, byte_bind, integer, h]
  exact leaves_pure

theorem leaves_uint (h : Lead.ofByte b = .uint width) :
    Leaves uint (b :: mid) rest ↔ Leaves (take width) mid rest := by
  rw [uint, Leaves, byte_bind, integer, h, bind_assoc]
  exact leaves_bind_pure.trans leaves_number

theorem leaves_int_negative (h : Lead.ofByte b = .negative n) :
    Leaves int (b :: mid) rest ↔ Leaves (take 0) mid rest := by
  have hn := Lead.lt_of_inside (Or.inr h)
  rw [int, Leaves, byte_bind, integer, h, pure_bind, if_pos (by omega)]
  exact leaves_pure

theorem leaves_int (h : Lead.ofByte b = .int width) :
    Leaves int (b :: mid) rest ↔ Leaves (take width) mid rest := by
  have hpow := Lead.pow_le_of_behind (Or.inr h)
  rw [int, Leaves, byte_bind, integer, h, bind_assoc]
  refine (leaves_bind fun n mid' hn => ?_).trans leaves_number
  obtain ⟨hlt, -⟩ := exists_ofNatBE_of_number hn
  have hsigned := (complement_signed hlt).2.1
  exact ⟨_, by rw [pure_bind, if_pos (by omega)]⟩

end Scalar

/-! ## Reads that take whole values -/

/-- Whenever the read succeeds, it takes `n` values. -/
def Takes {α : Type} (n : Nat) (r : Read α) : Prop :=
  ∀ buf rest, Leaves r buf rest → ∃ q, IsSequence n q ∧ buf = q ++ rest

section Takes

variable {α β : Type} {m n : Nat} {r : Read α} {f : α → Read β} {buf rest data : Bytes}

theorem Takes.pure (a : α) : Takes 0 (Pure.pure a : Read α) := by
  rintro buf rest ⟨_, h⟩
  obtain ⟨-, rfl⟩ := pure_eq_ok_iff.mp h
  exact ⟨[], isSequence_zero_iff.mpr rfl, rfl⟩

theorem Takes.bind (hr : Takes m r) (hf : ∀ a, Takes n (f a)) : Takes (m + n) (r >>= f) := by
  rintro buf rest ⟨b, h⟩
  obtain ⟨a, mid, hra, hfb⟩ := bind_eq_ok_iff.mp h
  obtain ⟨q₁, hq₁, rfl⟩ := hr buf mid ⟨a, hra⟩
  obtain ⟨q₂, hq₂, rfl⟩ := hf a mid rest ⟨b, hfb⟩
  exact ⟨q₁ ++ q₂, isSequence_add_iff.mpr ⟨q₁, q₂, hq₁, hq₂, rfl⟩, (List.append_assoc ..).symm⟩

theorem Takes.times (hr : Takes m r) (n : Nat) (done : List α) :
    Takes (n * m) (times r n done) := by
  induction n generalizing done with
  | zero =>
      rw [Nat.zero_mul]
      exact .pure done.reverse
  | succ n ih =>
      rw [Nat.succ_mul, Nat.add_comm, times_succ]
      exact hr.bind fun a => ih (a :: done)

/-- A value of a family whose count is that of its bytes. -/
theorem takes_of_opened {f : Family} {fault : UInt8 → ReadError} {r : Read Bytes}
    (hr : r = opened f take fault)
    (hvalue : ∀ p data, Opens f data.length p → IsValue (p ++ data)) : Takes 1 r := by
  rintro buf rest ⟨data, h⟩
  rw [hr] at h
  obtain ⟨n, p, mid, hp, rfl, htake⟩ := opened_eq_ok_iff.mp h
  obtain ⟨rfl, rfl⟩ := take_eq_ok_iff.mp htake
  exact ⟨p ++ data, isSequence_one_iff.mpr (hvalue p data hp), (List.append_assoc ..).symm⟩

theorem takes_strBytes : Takes 1 strBytes :=
  takes_of_opened strBytes_eq fun _ _ hp => ⟨_, .str hp⟩

theorem takes_bin : Takes 1 bin :=
  takes_of_opened bin_eq fun _ _ hp => ⟨_, .bin hp⟩

theorem takes_extension : Takes 1 Read.extension := by
  rintro buf rest ⟨e, hext⟩
  rw [extension_eq] at hext
  obtain ⟨n, p, mid, hp, rfl, hbody⟩ := opened_eq_ok_iff.mp hext
  obtain ⟨tag, mid', htag, hdata⟩ := bind_eq_ok_iff.mp hbody
  obtain rfl := byte_eq_ok_iff.mp htag
  obtain ⟨data, mid, htake, hpure⟩ := bind_eq_ok_iff.mp hdata
  obtain ⟨rfl, rfl⟩ := take_eq_ok_iff.mp htake
  obtain ⟨-, rfl⟩ := pure_eq_ok_iff.mp hpure
  exact ⟨p ++ tag :: data, isSequence_one_iff.mpr ⟨_, .ext hp⟩, by simp⟩

/-- A text is read where its bytes are. -/
theorem takes_str : Takes 1 str := by
  refine Takes.bind (n := 0) takes_strBytes fun data => ?_
  split
  · next s _ => exact Takes.pure s
  · exact fun buf rest ⟨_, h⟩ => absurd h throw_ne_ok

/-- A count that is read, and then as many values as it says, each read taking
`m` of them. -/
theorem takes_of_length {f : Family} {length : Read UInt32} {k : List α → β}
    {fault : UInt8 → ReadError} (hr : Takes m r)
    (hlength : length = opened f (fun n => Pure.pure (UInt32.ofNat n)) fault)
    (hheads : ∀ n p, Opens f n p → Heads (n * m) p) :
    Takes 1 (length >>= fun n => Read.times r n.toNat [] >>= fun items => Pure.pure (k items)) := by
  rintro buf rest ⟨b, hall⟩
  obtain ⟨c, mid, hc, hitems⟩ := bind_eq_ok_iff.mp hall
  rw [hlength] at hc
  obtain ⟨n, p, mid', hp, rfl, hpure⟩ := opened_eq_ok_iff.mp hc
  obtain ⟨rfl, rfl⟩ := pure_eq_ok_iff.mp hpure
  rw [UInt32.toNat_ofNat_of_lt' hp.count_lt] at hitems
  obtain ⟨q, hq, rfl⟩ := hr.times n [] mid' rest (leaves_bind_pure.mp ⟨b, hitems⟩)
  exact ⟨p ++ q, isSequence_one_iff.mpr (isValue_iff.mpr ⟨_, p, q, hheads n p hp, hq, rfl⟩),
    (List.append_assoc ..).symm⟩

end Takes

end MetaRecord.MessagePack.Read

namespace MetaRecord.Document

open MessagePack MessagePack.Read

/-! ## What the first byte does -/

section FirstByte

variable {levels : Nat} {b : UInt8} {mid rest : Bytes}

/-- The rendering of a value that opens with a count, with `levels` levels for
the values in it. -/
def counted (levels : Nat) : Family → Read Json
  | .str => return .str (← str)
  | .bin => return .str (Text.Base64.encode (← bin))
  | .ext => return extension (← Read.extension)
  | .array => do
    let n ← arrayLength
    return .arr (← times (value levels) n.toNat [])
  | .map => do
    let n ← mapLength
    return Json.object (← times (pair (value levels)) n.toNat [])

theorem value_of_opening {f : Family} {count : Count}
    (h : (Lead.ofByte b).opening? = some (f, count)) :
    value (levels + 1) (b :: mid) = counted levels f (b :: mid) := by
  rw [value, upcoming_bind]
  cases hl : Lead.ofByte b <;> rw [hl] at h <;> cases h <;> rfl

theorem value_scalar_iff {width : Nat} (h : (Lead.ofByte b).scalar? = some width) :
    Leaves (value (levels + 1)) (b :: mid) rest ↔ Leaves (take width) mid rest := by
  rw [value, Leaves, upcoming_bind]
  cases hl : Lead.ofByte b <;> rw [hl] at h <;> cases h
  case nil => exact leaves_bind_pure.trans (leaves_nil hl)
  case bool => exact leaves_bind_pure.trans (leaves_bool hl)
  case positive => exact leaves_bind_pure.trans (leaves_uint_positive hl)
  case uint => exact leaves_bind_pure.trans (leaves_uint hl)
  case negative => exact leaves_bind_pure.trans (leaves_int_negative hl)
  case int => exact leaves_bind_pure.trans (leaves_int hl)
  case float => exact leaves_bind_pure.trans (leaves_float hl)

theorem value_of_unused {j : Json} (h : Lead.ofByte b = .unused) :
    value (levels + 1) (b :: mid) ≠ .ok (j, rest) := by
  rw [value, upcoming_bind, h]
  exact Read.throw_ne_ok

end FirstByte

/-! ## Whole values -/

section Whole

variable {r : Read Json} {levels : Nat}

theorem key_takes (hr : Takes 1 r) : Takes 1 (key r) := by
  rintro buf rest ⟨name, h⟩
  rw [key] at h
  split at h
  · next data mid hkey =>
      obtain ⟨-, rfl⟩ := Prod.mk.inj (Except.ok.inj h)
      cases buf with
      | nil => exact nomatch hkey
      | cons b buf =>
          rw [mapKey, peek, ok_bind] at hkey
          split at hkey
          · exact takes_bin _ _ ⟨data, hkey⟩
          · exact takes_strBytes _ _ ⟨data, hkey⟩
  · obtain ⟨⟨j, mid⟩, hj, hpure⟩ := bind_eq_ok.mp h
    obtain ⟨-, rfl⟩ := Prod.mk.inj (Except.ok.inj hpure)
    exact hr buf mid ⟨j, hj⟩
  · cases h

theorem pair_takes (hr : Takes 1 r) : Takes 2 (pair r) :=
  (key_takes hr).bind fun _ => hr.bind fun _ => .pure _

theorem counted_takes (hvalue : Takes 1 (value levels)) (f : Family) :
    Takes 1 (counted levels f) := by
  cases f with
  | str => exact takes_str.bind fun _ => .pure _
  | bin => exact takes_bin.bind fun _ => .pure _
  | ext => exact takes_extension.bind fun _ => .pure _
  | array =>
      refine takes_of_length hvalue arrayLength_eq fun n p hp => ?_
      rw [Nat.mul_one]
      exact .array hp
  | map =>
      refine takes_of_length (pair_takes hvalue) mapLength_eq fun n p hp => ?_
      rw [Nat.mul_comm]
      exact .map hp

/-- What is rendered is one value. -/
theorem value_takes (levels : Nat) : Takes 1 (value levels) := by
  induction levels with
  | zero => exact fun buf rest ⟨_, h⟩ => absurd h Read.throw_ne_ok
  | succ levels ih =>
      rintro (_ | ⟨b, mid⟩) rest hleaves
      · obtain ⟨j, h⟩ := hleaves
        exact nomatch h
      · rcases (Lead.ofByte b).cases with hunused | ⟨width, hscalar⟩ | ⟨f, count, hopening⟩
        · obtain ⟨j, h⟩ := hleaves
          exact absurd h (value_of_unused hunused)
        · obtain ⟨data, h⟩ := (value_scalar_iff hscalar).mp hleaves
          obtain ⟨rfl, rfl⟩ := take_eq_ok_iff.mp h
          have hencodes := Encodes.scalar (Lead.scalar?_ofByte.mp hscalar)
          exact ⟨b :: data, isSequence_one_iff.mpr ⟨_, hencodes⟩, rfl⟩
        · obtain ⟨j, h⟩ := hleaves
          rw [value_of_opening hopening] at h
          exact counted_takes ih f _ _ ⟨j, h⟩

end Whole

end MetaRecord.Document

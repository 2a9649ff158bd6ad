/-
# `MetaRecord.Proofs.MessagePack.Smallest` — whether fewer bytes would do

A read takes more than one encoding of a value, so it is worth asking whether a
writer gives a smallest one.  An encoding has one byte, or a first byte and a
number of one, two, four or eight bytes behind it, and each writer turns to the
next width where the narrower one is too small.  What is left to see is that no
family of first bytes has a width that the writer passes over:
`Opens.length_cases` and `EncodesInteger.length_cases` list what there is.

For integers that are not negative there are two families, and an unsigned
number of `width` bytes goes twice as far as two's complement.  The unsigned
writer has the family that goes further.  The signed writer keeps to its own,
also from half of what `width` bytes can say up to the whole of it, where it
takes more bytes than the other writer would (`FillsUnsigned`).

Main statements: `writers_smallest`, and `int_smallest_iff`, for which integers
the signed writer gives a smallest encoding and what is smaller for the others.
-/
import MetaRecord.Proofs.MessagePack.Grammar
import MetaRecord.Proofs.MessagePack.Ranges

namespace MetaRecord.MessagePack

/-- `p` is a smallest encoding of `a`: the read takes it whole, whatever
follows, and no fewer bytes are read as `a` with nothing left. -/
structure Smallest {α : Type} (r : Read α) (p : Bytes) (a : α) : Prop where
  whole (rest : Bytes) : r (p ++ rest) = .ok (a, rest)
  least {q : Bytes} : r q = .ok (a, []) → p.length ≤ q.length

/-! ## Lengths and counts -/

/-- The widths of the counts that a family has behind a first byte. -/
def Family.widths (f : Family) : List Nat := f.sized.map (·.2)

/-- What opens a value has one byte, or as many as the count needs. -/
theorem Opens.length_cases {f : Family} {n : Nat} {p : Bytes} (h : Opens f n p) :
    (n ∈ f.counted.map (·.2) ∧ p.length = 1) ∨ (1 ∈ f.widths ∧ n < 0x100 ∧ p.length = 2) ∨
      (n < 0x10000 ∧ p.length = 3) ∨ p.length = 5 := by
  cases h with
  | inside hcode => exact Or.inl ⟨List.mem_map_of_mem hcode, rfl⟩
  | @behind code width hcode hlt =>
      have hwidths : ∀ w ∈ f.widths, w = 1 ∨ w = 2 ∨ w = 4 := by cases f <;> decide
      have hwidth : width ∈ f.widths := List.mem_map_of_mem hcode
      rcases hwidths width hwidth with rfl | rfl | rfl
      · exact Or.inr (Or.inl ⟨hwidth, hlt, rfl⟩)
      · exact Or.inr (Or.inr (Or.inl ⟨hlt, rfl⟩))
      · exact Or.inr (Or.inr (Or.inr rfl))

section Data

variable {f : Family} {fault : UInt8 → ReadError} {data q : Bytes}

/-- A value that is read to its end is its opening and the bytes in it. -/
theorem exists_opens_of_opened (h : Read.opened f Read.take fault q = .ok (data, [])) :
    ∃ p, Opens f data.length p ∧ q.length = p.length + data.length := by
  obtain ⟨n, p, mid, hp, rfl, htake⟩ := Read.opened_eq_ok_iff.mp h
  obtain ⟨rfl, rfl⟩ := Read.take_eq_ok_iff.mp htake
  exact ⟨p, hp, by simp⟩

theorem length_bin_le (h : Read.bin q = .ok (data, [])) : (Write.bin data).length ≤ q.length := by
  rw [Read.bin_eq] at h
  obtain ⟨p, hp, hq⟩ := exists_opens_of_opened h
  rw [Write.bin, List.length_append, Write.length_length, hq]
  rcases hp.length_cases with ⟨hn, -⟩ | hp | hp | hp
  · exact absurd hn List.not_mem_nil
  all_goals split_ifs <;> omega

theorem length_str_le {s : String} (h : Read.strBytes q = .ok (Text.utf8 s, [])) :
    (Write.str s).length ≤ q.length := by
  rw [Read.strBytes_eq] at h
  obtain ⟨p, hp, hq⟩ := exists_opens_of_opened h
  have hshort : ∀ n ∈ Family.str.counted.map (·.2), n < 32 := by decide
  rw [Write.str, List.length_append, apply_ite List.length, Write.length_length, hq]
  rw [List.length_singleton]
  rcases hp.length_cases with ⟨hn, hp⟩ | hp | hp | hp
  · rw [if_pos (hshort _ hn)]
    omega
  all_goals split_ifs <;> omega

end Data

/-- A count without data of its own takes as few bytes as it can. -/
theorem length_count_le {f : Family} {fault : UInt8 → ReadError} {n : UInt32} {q : Bytes}
    (hcounted : ∀ m ∈ f.counted.map (·.2), m < 16) (hwidths : 1 ∉ f.widths)
    (h : Read.opened f (fun n => pure (UInt32.ofNat n)) fault q = .ok (n, []))
    (small c₂ c₄ : UInt8) :
    (if n.toNat < 16 then [small] else if n.toNat < 0x10000 then Write.sized c₂ 2 n.toNat
      else Write.sized c₄ 4 n.toNat).length ≤ q.length := by
  obtain ⟨m, p, mid, hp, rfl, hpure⟩ := Read.opened_eq_ok_iff.mp h
  obtain ⟨rfl, rfl⟩ := Read.pure_eq_ok_iff.mp hpure
  rw [UInt32.toNat_ofNat_of_lt' hp.count_lt, List.append_nil]
  rw [apply_ite List.length, apply_ite List.length, Write.length_sized, Write.length_sized,
    List.length_singleton]
  rcases hp.length_cases with ⟨hm, hp⟩ | ⟨hone, -⟩ | hp | hp
  · rw [if_pos (hcounted m hm)]
    omega
  · exact absurd hone hwidths
  all_goals split_ifs <;> omega

/-! ## Integers -/

/-- The first bytes with an unsigned number behind, and its width. -/
def unsignedCodes : List (UInt8 × Nat) := [(0xcc, 1), (0xcd, 2), (0xce, 4), (0xcf, 8)]

/-- What the lead of `b` says of an integer is in range, and its width is one of
the four. -/
def Lead.isInteger (b : UInt8) : Lead → Bool
  | .positive n => n < 0x80
  | .negative n => 0xe0 ≤ n && n < 0x100
  | .uint width => unsignedCodes.contains (b, width)
  | .int width => width ∈ [1, 2, 4, 8]
  | _ => true

theorem Lead.isInteger_ofByte (b : UInt8) : (ofByte b).isInteger b = true := by
  have h : ∀ n : Fin 256, (ofByte (UInt8.ofNat n)).isInteger (UInt8.ofNat n) = true := by
    decide +kernel
  simpa using h ⟨b.toNat, b.toNat_lt⟩

section Widths

variable {b : UInt8} {n width : Nat}

theorem Lead.lt_of_positive (h : ofByte b = .positive n) : n < 0x80 := by
  have hb := isInteger_ofByte b
  rw [h] at hb
  exact of_decide_eq_true hb

theorem Lead.bounds_of_negative (h : ofByte b = .negative n) : 0xe0 ≤ n ∧ n < 0x100 := by
  have hb := isInteger_ofByte b
  rw [h, isInteger, Bool.and_eq_true] at hb
  exact ⟨of_decide_eq_true hb.1, of_decide_eq_true hb.2⟩

theorem Lead.mem_unsignedCodes (h : ofByte b = .uint width) : (b, width) ∈ unsignedCodes := by
  have hb := isInteger_ofByte b
  rw [h] at hb
  exact List.contains_iff_mem.mp hb

theorem Lead.width_of_int (h : ofByte b = .int width) : width ∈ [1, 2, 4, 8] := by
  have hb := isInteger_ofByte b
  rw [h] at hb
  exact of_decide_eq_true hb

theorem width_of_mem (h : (b, width) ∈ unsignedCodes) : width ∈ [1, 2, 4, 8] := by
  have hall : ∀ x ∈ unsignedCodes, x.2 ∈ [1, 2, 4, 8] := by decide
  exact hall _ h

theorem pow_of_width (h : width ∈ [1, 2, 4, 8]) :
    (width = 1 ∧ Nat.pow 256 width = 0x100) ∨ (width = 2 ∧ Nat.pow 256 width = 0x10000) ∨
      (width = 4 ∧ Nat.pow 256 width = 0x100000000) ∨
      (width = 8 ∧ Nat.pow 256 width = 0x10000000000000000) := by
  simp only [List.mem_cons, List.not_mem_nil, or_false] at h
  rcases h with rfl | rfl | rfl | rfl
  · exact Or.inl ⟨rfl, rfl⟩
  · exact Or.inr (Or.inl ⟨rfl, rfl⟩)
  · exact Or.inr (Or.inr (Or.inl ⟨rfl, rfl⟩))
  · exact Or.inr (Or.inr (Or.inr ⟨rfl, rfl⟩))

end Widths

namespace Write

variable {width : Nat}

/-- The unsigned writer takes no more than a width that is enough. -/
theorem length_uint_le {v : UInt64} (hwidth : width ∈ [1, 2, 4, 8])
    (hv : v.toNat < Nat.pow 256 width) : (uint v).length ≤ width + 1 := by
  have hpow := pow_of_width hwidth
  rw [length_uint]
  split_ifs <;> omega

/-- The signed writer takes no more than a width that is enough for two's
complement. -/
theorem length_int_le {w : Int64} (hwidth : width ∈ [1, 2, 4, 8])
    (hlow : -(Nat.pow 256 width : Nat) ≤ 2 * w.toInt)
    (hhigh : 2 * w.toInt < (Nat.pow 256 width : Nat)) : (int w).length ≤ width + 1 := by
  have hpow := pow_of_width hwidth
  have hw : w.toInt < 0x8000000000000000 := w.toInt_lt
  have hw' : -0x8000000000000000 ≤ w.toInt := w.le_toInt
  rw [length_int]
  split_ifs <;> omega

/-- An unsigned number that takes more than half of what a width can say is
written in that width. -/
theorem uint_eq_sized {b : UInt8} {v : UInt64} (hcode : (b, width) ∈ unsignedCodes)
    (hlow : Nat.pow 256 width ≤ 2 * v.toNat) (hhigh : v.toNat < Nat.pow 256 width) :
    uint v = sized b width v.toNat := by
  have hpow := pow_of_width (width_of_mem hcode)
  simp only [unsignedCodes, List.mem_cons, Prod.mk.injEq, List.not_mem_nil, or_false] at hcode
  rw [uint]
  rcases hcode with ⟨rfl, rfl⟩ | ⟨rfl, rfl⟩ | ⟨rfl, rfl⟩ | ⟨rfl, rfl⟩
  · rw [if_neg (by omega), if_pos (by omega)]
  · rw [if_neg (by omega), if_neg (by omega), if_pos (by omega)]
  · rw [if_neg (by omega), if_neg (by omega), if_neg (by omega), if_pos (by omega)]
  · rw [if_neg (by omega), if_neg (by omega), if_neg (by omega), if_neg (by omega)]

end Write

/-- No encoding of an unsigned integer is smaller than the unsigned writer's. -/
theorem EncodesInteger.length_uint_le {v : UInt64} {p : Bytes} (h : EncodesInteger v.toNat p) :
    (Write.uint v).length ≤ p.length := by
  generalize hn : (v.toNat : Int) = n at h
  cases h with
  | @positive code n hcode =>
      have := Lead.lt_of_positive hcode
      rw [Write.length_uint, if_pos (by omega)]
      exact Nat.le_refl _
  | @negative code n hcode =>
      have := Lead.bounds_of_negative hcode
      omega
  | @unsigned code width n hcode hlt =>
      rw [Write.length_sized]
      exact Write.length_uint_le (width_of_mem (Lead.mem_unsignedCodes hcode)) (by omega)
  | @signed code width _ hcode hlow hhigh =>
      rw [Write.length_sized]
      exact Write.length_uint_le (Lead.width_of_int hcode) (by omega)

/-! ## The writers whose encodings are smallest -/

theorem smallest_uint (v : UInt64) : Smallest Read.uint (Write.uint v) v where
  whole := (Spells.uint v).whole
  least h := by
    obtain ⟨p, hp, rfl⟩ := Read.uint_eq_ok_iff.mp h
    rw [List.append_nil]
    exact hp.length_uint_le

theorem smallest_bin {data : Bytes} (h : data.length < 0x100000000) :
    Smallest Read.bin (Write.bin data) data where
  whole := (Spells.bin h).whole
  least := length_bin_le

theorem smallest_str {s : String} (h : (Text.utf8 s).length < 0x100000000) :
    Smallest Read.str (Write.str s) s where
  whole rest := by
    refine Read.bind_eq_ok_iff.mpr ⟨_, rest, (Spells.strBytes h).whole rest, ?_⟩
    rw [Text.ofUtf8?_utf8]
    rfl
  least {q} hstr := by
    obtain ⟨bytes, mid, hbytes, htext⟩ := Read.bind_eq_ok_iff.mp hstr
    cases ht : Text.ofUtf8? bytes with
    | none =>
        rw [ht] at htext
        exact absurd htext Read.throw_ne_ok
    | some t =>
        rw [ht] at htext
        obtain ⟨rfl, rfl⟩ := Read.pure_eq_ok_iff.mp htext
        obtain rfl := Text.ofUtf8?_eq_some_iff.mp ht
        exact length_str_le hbytes

theorem smallest_arrayLength (n : UInt32) :
    Smallest Read.arrayLength (Write.arrayLength n) n where
  whole := (Spells.arrayLength n).whole
  least h := by
    rw [Read.arrayLength_eq] at h
    exact length_count_le (by decide) (by decide) h _ _ _

theorem smallest_mapLength (n : UInt32) : Smallest Read.mapLength (Write.mapLength n) n where
  whole := (Spells.mapLength n).whole
  least h := by
    rw [Read.mapLength_eq] at h
    exact length_count_le (by decide) (by decide) h _ _ _

/-- **What is written is read back, and nothing smaller would be.**  Unsigned
integers, the headers of arrays and maps, and byte strings and texts as long as
the format allows take a smallest encoding. -/
theorem writers_smallest :
    (∀ v, Smallest Read.uint (Write.uint v) v) ∧
    (∀ data, data.length < 0x100000000 → Smallest Read.bin (Write.bin data) data) ∧
    (∀ s, (Text.utf8 s).length < 0x100000000 → Smallest Read.str (Write.str s) s) ∧
    (∀ n, Smallest Read.arrayLength (Write.arrayLength n) n) ∧
    ∀ n, Smallest Read.mapLength (Write.mapLength n) n :=
  ⟨smallest_uint, fun _ => smallest_bin, fun _ => smallest_str, smallest_arrayLength,
    smallest_mapLength⟩

/-- The longest text whose length its first byte holds, and the shortest byte
string whose length takes two bytes. -/
theorem writers_smallest_at_limits :
    let s := String.ofList (List.replicate 31 'a')
    let data := List.replicate 256 (7 : UInt8)
    (Text.utf8 s).length < 0x100000000 ∧ Smallest Read.str (Write.str s) s ∧
      data.length < 0x100000000 ∧ Smallest Read.bin (Write.bin data) data := by
  intro s data
  have hs : (Text.utf8 s).length < 0x100000000 := by decide
  have hdata : data.length < 0x100000000 := by
    rw [List.length_replicate]
    decide
  obtain ⟨-, hbin, hstr, -⟩ := writers_smallest
  exact ⟨hs, hstr s hs, hdata, hbin data hdata⟩

/-! ## The signed writer -/

/-- An integer for which one, two or four bytes are enough as an unsigned number
and not as two's complement. -/
def FillsUnsigned (v : Int) : Prop :=
  (0x80 ≤ v ∧ v < 0x100) ∨ (0x8000 ≤ v ∧ v < 0x10000) ∨ (0x80000000 ≤ v ∧ v < 0x100000000)

theorem EncodesInteger.eq_uint_of_length_lt {w : Int64} {p : Bytes}
    (h : EncodesInteger w.toInt p) (hlt : p.length < (Write.int w).length) :
    FillsUnsigned w.toInt ∧ p = Write.uint (UInt64.ofNat w.toInt.toNat) := by
  have hmax : w.toInt < 0x8000000000000000 := w.toInt_lt
  generalize hv : w.toInt = v at h
  cases h with
  | @positive code n hcode =>
      have := Lead.lt_of_positive hcode
      rw [Write.length_int, if_pos (by omega)] at hlt
      exact absurd hlt (Nat.lt_irrefl 1)
  | @negative code n hcode =>
      have := Lead.bounds_of_negative hcode
      rw [Write.length_int, if_pos (by omega)] at hlt
      exact absurd hlt (Nat.lt_irrefl 1)
  | @signed code width _ hcode hlow hhigh =>
      rw [← hv] at hlow hhigh
      rw [Write.length_sized] at hlt
      exact absurd (Write.length_int_le (Lead.width_of_int hcode) hlow hhigh) (Nat.not_le.mpr hlt)
  | @unsigned code width n hcode hn =>
      rw [Write.length_sized] at hlt
      have hcode := Lead.mem_unsignedCodes hcode
      have hwidth := width_of_mem hcode
      -- In two's complement the width would have been enough for less.
      have hhalf : Nat.pow 256 width ≤ 2 * n := by
        refine Nat.le_of_not_lt fun hhalf => Nat.not_le.mpr hlt ?_
        exact Write.length_int_le hwidth (by omega) (by omega)
      have hpow := pow_of_width hwidth
      have hlt' : n < 0x10000000000000000 := by omega
      rw [Int.toNat_natCast]
      refine ⟨?_, ?_⟩
      · rw [FillsUnsigned]
        omega
      · rw [Write.uint_eq_sized hcode] <;> rw [UInt64.toNat_ofNat_of_lt' hlt']
        · exact hhalf
        · exact hn

/-- What the unsigned writer gives for such an integer is smaller, and is read. -/
theorem FillsUnsigned.uint_smaller {w : Int64} (h : FillsUnsigned w.toInt) :
    Read.int (Write.uint (UInt64.ofNat w.toInt.toNat)) = .ok (w, []) ∧
      (Write.uint (UInt64.ofNat w.toInt.toNat)).length < (Write.int w).length := by
  rw [FillsUnsigned] at h
  have hlt : w.toInt.toNat < 0x10000000000000000 := by omega
  have hv : (UInt64.ofNat w.toInt.toNat).toNat = w.toInt.toNat := UInt64.toNat_ofNat_of_lt' hlt
  constructor
  · have hencodes := EncodesInteger.of_spells (.integer_uint .int (UInt64.ofNat w.toInt.toNat))
    rw [hv, Int.toNat_of_nonneg (by omega)] at hencodes
    exact Read.int_eq_ok_iff.mpr ⟨_, hencodes, (List.append_nil _).symm⟩
  · rw [Write.length_uint, Write.length_int, hv]
    split_ifs <;> omega

/-- **Which integers the signed writer gives a smallest encoding.**  All but
those that fill a width as an unsigned number; for these, what the unsigned
writer gives is smaller, and nothing else is. -/
theorem int_smallest_iff (w : Int64) :
    (Smallest Read.int (Write.int w) w ↔ ¬ FillsUnsigned w.toInt) ∧
    ∀ q, (Read.int q = .ok (w, []) ∧ q.length < (Write.int w).length) ↔
      FillsUnsigned w.toInt ∧ q = Write.uint (UInt64.ofNat w.toInt.toNat) := by
  have hsmaller : ∀ q, (Read.int q = .ok (w, []) ∧ q.length < (Write.int w).length) ↔
      FillsUnsigned w.toInt ∧ q = Write.uint (UInt64.ofNat w.toInt.toNat) := by
    intro q
    constructor
    · rintro ⟨hread, hlt⟩
      obtain ⟨p, hp, rfl⟩ := Read.int_eq_ok_iff.mp hread
      rw [List.append_nil] at hlt ⊢
      exact hp.eq_uint_of_length_lt hlt
    · rintro ⟨hfills, rfl⟩
      exact hfills.uint_smaller
  refine ⟨⟨fun hsmallest hfills => ?_, fun hfills => ⟨(Spells.int w).whole, fun {q} hread => ?_⟩⟩,
    hsmaller⟩
  · obtain ⟨hread, hlt⟩ := hfills.uint_smaller
    exact Nat.not_le.mpr hlt (hsmallest.least hread)
  · exact Nat.le_of_not_lt fun hlt => hfills ((hsmaller q).mp ⟨hread, hlt⟩).1

/-- The signed writer takes three bytes for an integer that two bytes hold. -/
theorem int_not_smallest :
    Write.int 128 = [0xd1, 0x00, 0x80] ∧ Read.int [0xcc, 0x80] = .ok (128, []) ∧
      ¬ ∀ (v : Int64) (q : Bytes), Read.int q = .ok (v, []) → (Write.int v).length ≤ q.length := by
  have hwritten : Write.int 128 = [0xd1, 0x00, 0x80] := by decide
  have hread : Read.int [0xcc, 0x80] = .ok (128, []) := by decide
  refine ⟨hwritten, hread, fun hsmallest => ?_⟩
  have hle := hsmallest 128 [0xcc, 0x80] hread
  rw [hwritten] at hle
  exact absurd hle (by decide)

end MetaRecord.MessagePack

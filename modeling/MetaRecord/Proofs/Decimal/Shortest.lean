/-
# `MetaRecord.Proofs.Decimal.Shortest` — the shortest decimal reads back

The interval of a number holds exactly the decimals that are not beyond the
half-way points to its neighbours.  The search for digits gives up none too
early: what it finds lies in the interval, and with seventeen digits it finds
something, because the grid is then narrower than the interval.

Main statement: `nearest_shortest`, the shortest decimal of a number is rounded
to that number.
-/
import Mathlib.Algebra.Order.Field.Power
import Mathlib.Data.Nat.Cast.Order.Field
import Mathlib.Tactic.LinearCombination
import Mathlib.Tactic.NormNum.Pow
import MetaRecord.Decimal.Shortest
import MetaRecord.Proofs.Decimal.Nearest

namespace MetaRecord.Decimal

/-- The number that a decimal stands for. -/
def Scientific.value (s : Scientific) : ℚ := s.digits * 10 ^ s.exponent

namespace Rounding

/-- The interval holds `q`. -/
structure Holds (r : Rounding) (q : ℚ) : Prop where
  low_le : r.low ≤ q * r.den
  le_high : q * r.den ≤ r.high
  ends : r.closed = false → (r.low : ℚ) ≠ q * r.den ∧ q * r.den ≠ r.high

variable {r : Rounding}

/-! ## On a decimal grid -/

section Grid

variable (e : Int)

theorem shift_up_pos : 0 < Nat.pow 10 (-e).toNat := Nat.pow_pos (by decide)

/-- The two powers of a shift differ by the step of the grid. -/
theorem ten_zpow_mul_pow :
    (10 : ℚ) ^ e * (Nat.pow 10 (-e).toNat : Nat) = (Nat.pow 10 e.toNat : Nat) := by
  rw [Nat.pow_eq, Nat.pow_eq]
  push_cast
  rw [← zpow_natCast, ← zpow_natCast, ← zpow_add₀ (by norm_num)]
  congr 1
  omega

theorem shift_den (c : Nat) :
    ((c * (r.shift e).den : Nat) : ℚ) = c * 10 ^ e * r.den * (Nat.pow 10 (-e).toNat : Nat) := by
  show ((c * (r.den * Nat.pow 10 e.toNat) : Nat) : ℚ) = _
  push_cast [← ten_zpow_mul_pow e]
  ring

theorem shift_le_iff (a c : Nat) :
    a * Nat.pow 10 (-e).toNat ≤ c * (r.shift e).den ↔ (a : ℚ) ≤ c * 10 ^ e * r.den := by
  rw [← Nat.cast_le (α := ℚ), shift_den, Nat.cast_mul]
  exact mul_le_mul_iff_left₀ (Nat.cast_pos.mpr (shift_up_pos e))

theorem le_shift_iff (a c : Nat) :
    c * (r.shift e).den ≤ a * Nat.pow 10 (-e).toNat ↔ (c * 10 ^ e * r.den : ℚ) ≤ a := by
  rw [← Nat.cast_le (α := ℚ), shift_den, Nat.cast_mul]
  exact mul_le_mul_iff_left₀ (Nat.cast_pos.mpr (shift_up_pos e))

/-- A point of the grid is tested against the interval itself. -/
theorem holds_of_holds_shift {c : Nat} (h : (r.shift e).holds c) : r.Holds (c * 10 ^ e) := by
  have hlow := shift_le_iff (r := r) e r.low c
  have hhigh := le_shift_iff (r := r) e r.high c
  have hlow' := le_shift_iff (r := r) e r.low c
  have hhigh' := shift_le_iff (r := r) e r.high c
  rw [holds] at h
  split at h
  · next hclosed =>
      obtain ⟨h₁, h₂⟩ := Bool.and_eq_true_iff.mp h
      refine ⟨hlow.mp (of_decide_eq_true h₁), hhigh.mp (of_decide_eq_true h₂), fun hopen => ?_⟩
      exact absurd (hclosed.symm.trans hopen) (by decide)
  · obtain ⟨h₁, h₂⟩ := Bool.and_eq_true_iff.mp h
    have h₁ := of_decide_eq_true h₁
    have h₂ := of_decide_eq_true h₂
    refine ⟨hlow.mp h₁.le, hhigh.mp h₂.le, fun _ => ⟨fun heq => ?_, fun heq => ?_⟩⟩
    · exact absurd (hlow'.mpr heq.ge) (Nat.not_le.mpr h₁)
    · exact absurd (hhigh'.mpr heq.ge) (Nat.not_le.mpr h₂)

end Grid

/-! ## The search -/

theorem holds_of_nearest? {c : Nat} (h : r.nearest? = some c) : r.holds c := by
  simp only [nearest?] at h
  split at h
  · exact nomatch h
  · next hc _ => exact Option.some.inj h ▸ hc
  · next hc => exact Option.some.inj h ▸ hc
  · next hc hc' =>
      obtain rfl | rfl : r.value / r.den = c ∨ r.value / r.den + 1 = c := by
        split at h
        · exact Or.inl (Option.some.inj h)
        · split at h
          · exact Or.inr (Option.some.inj h)
          · split at h
            · exact Or.inl (Option.some.inj h)
            · exact Or.inr (Option.some.inj h)
      · exact hc
      · exact hc'

/-- The value lies inside, and the interval is wider than the grid. -/
structure Wide (r : Rounding) : Prop where
  den_pos : 0 < r.den
  low_lt : r.low < r.value
  lt_high : r.value < r.high
  wide : r.low + r.den < r.high

/-- A grid narrower than the interval has a point beside the value inside it. -/
theorem Wide.isSome_nearest? (h : r.Wide) : r.nearest?.isSome := by
  have hc : r.value / r.den * r.den ≤ r.value := Nat.div_mul_le_self ..
  have hc' : r.value < (r.value / r.den + 1) * r.den := by
    rw [Nat.mul_comm]
    exact Nat.lt_mul_div_succ _ h.den_pos
  have hsucc : (r.value / r.den + 1) * r.den = r.value / r.den * r.den + r.den :=
    Nat.succ_mul ..
  have hinside (c : Nat) (hlow : r.low < c * r.den) (hhigh : c * r.den < r.high) :
      r.holds c := by
    simp [holds, hlow, hhigh, hlow.le, hhigh.le]
  have hone : r.holds (r.value / r.den) ∨ r.holds (r.value / r.den + 1) := by
    by_cases hlow : r.low < r.value / r.den * r.den
    · exact Or.inl (hinside _ hlow (hc.trans_lt h.lt_high))
    · refine Or.inr (hinside _ (h.low_lt.trans hc') ?_)
      have := h.wide
      omega
  simp only [nearest?]
  split
  · next h₁ h₂ => simp [h₁, h₂] at hone
  · rfl
  · rfl
  · split
    · rfl
    · split <;> rfl

theorem holds_of_search {point : Int} {tries n : Nat} {s : Scientific}
    (h : r.search point tries n = some s) : r.Holds s.value := by
  induction tries generalizing n with
  | zero => exact nomatch h
  | succ tries ih =>
      rw [search] at h
      split at h
      · next c hc =>
          obtain rfl := Option.some.inj h
          exact holds_of_holds_shift _ (holds_of_nearest? hc)
      · exact ih h

theorem isSome_search {point : Int} {tries n k : Nat} (hn : n ≤ k) (hk : k < n + tries)
    (h : (r.shift (point - k)).nearest?.isSome) : (r.search point tries n).isSome := by
  induction tries generalizing n with
  | zero => omega
  | succ tries ih =>
      rw [search]
      split
      · rfl
      · next hnone =>
          rcases Nat.eq_or_lt_of_le hn with rfl | hlt
          · rw [hnone] at h
            exact nomatch h
          · exact ih hlt (by omega)

end Rounding

/-! ## Trimming -/

theorem Scientific.value_trim (fuel : Nat) (s : Scientific) : (s.trim fuel).value = s.value := by
  induction fuel generalizing s with
  | zero => rfl
  | succ fuel ih =>
      rw [trim]
      split
      · next h =>
          rw [ih, value, value]
          have hdigits : s.digits = s.digits / 10 * 10 := by omega
          have hcast : (s.digits : ℚ) = (s.digits / 10 : Nat) * 10 := by exact_mod_cast hdigits
          rw [hcast, zpow_add_one₀ (by norm_num)]
          ring
      · rfl

/-! ## The interval of a number -/

namespace Rounding

open Binary64 (size gap weight)

variable {x : Binary64}

/-- Where the point stands is a tenth of the value at most. -/
theorem digitCount_le (n : Nat) (h : 0 < n) : Nat.pow 10 (digitCount n - 1) ≤ n := by
  have hpos : 0 < digitCount n := Nat.length_toDigits_pos
  by_cases hone : digitCount n = 1
  · rw [hone]
    exact h
  · by_contra hlt
    have := (Nat.length_toDigits_le_iff (b := 10) (by decide) (by omega)).mpr (Nat.lt_of_not_le hlt)
    change digitCount n ≤ _ at this
    omega

theorem lt_digitCount (n : Nat) : n < Nat.pow 10 (digitCount n) :=
  (Nat.length_toDigits_le_iff (by decide) Nat.length_toDigits_pos).mp (le_refl _)

theorem ten_zpow_point_le {r : Rounding} (hden : 0 < r.den) (hvalue : 0 < r.value) :
    (10 : ℚ) ^ (r.point - 1) * r.den ≤ r.value := by
  rw [point]
  split
  · next hle =>
      have hpos : 0 < r.value / r.den := Nat.div_pos hle hden
      have hcount := digitCount_le _ hpos
      have hlen : 0 < digitCount (r.value / r.den) := Nat.length_toDigits_pos
      obtain ⟨k, hk⟩ : ∃ k, digitCount (r.value / r.den) = k + 1 :=
        ⟨_, (Nat.succ_pred hlen.ne').symm⟩
      rw [hk, Nat.add_sub_cancel] at hcount
      have hmul : Nat.pow 10 k * r.den ≤ r.value :=
        (Nat.mul_le_mul_right _ hcount).trans (Nat.div_mul_le_self ..)
      rw [hk]
      push_cast
      rw [add_sub_cancel_right, zpow_natCast]
      exact_mod_cast hmul
  · next hlt =>
      have hcount := lt_digitCount ((r.den - 1) / r.value)
      generalize digitCount ((r.den - 1) / r.value) = k at hcount ⊢
      have hmul : r.den ≤ r.value * Nat.pow 10 k := by
        have := (Nat.div_lt_iff_lt_mul hvalue).mp hcount
        rw [Nat.mul_comm] at this
        omega
      have hcast : (r.den : ℚ) ≤ r.value * 10 ^ k := by exact_mod_cast hmul
      rw [show (1 - (k : Int) - 1) = -(k : Int) by omega, zpow_neg, zpow_natCast, inv_mul_le_iff₀
        (by positivity), mul_comm]
      exact hcast

/-- How far the lower end is away, in quarters of the last place. -/
def below (x : Binary64) : Nat := if x.fractionField = 0 ∧ 1 < x.exponentField then 1 else 2

/-- A quarter of the last place. -/
def scale (x : Binary64) : Nat := Nat.pow 2 (x.binade - 1077)

theorem ofBinary64_eq (x : Binary64) :
    ofBinary64 x =
      { low := (4 * x.significand - below x) * scale x
        value := 4 * x.significand * scale x
        high := (4 * x.significand + 2) * scale x
        den := Nat.pow 2 (1077 - x.binade)
        closed := x.significand % 2 = 0 } := rfl

theorem scale_pos : 0 < scale x := Nat.pow_pos (by decide)

theorem den_ofBinary64_pos : 0 < (ofBinary64 x).den := Nat.pow_pos (by decide)

theorem four_mul_significand_lt : 4 * x.significand < (2 + below x) * 10 ^ 16 := by
  have hfraction : x.fractionField < Binary64.fractions := Nat.mod_lt _ (by decide)
  rw [Binary64.fractions] at hfraction
  rw [below, Binary64.significand, Binary64.fractions]
  by_cases hpower : x.fractionField = 0 ∧ 1 < x.exponentField
  · rw [if_pos hpower, if_neg (by omega), hpower.1]
    decide
  · rw [if_neg hpower]
    split <;> omega

/-- With seventeen digits the grid is narrower than the interval. -/
theorem wide_shift (h : x.significand ≠ 0) :
    ((ofBinary64 x).shift ((ofBinary64 x).point - (17 : Nat))).Wide := by
  have hscale : 0 < scale x := scale_pos
  have hbelow : below x = 1 ∨ below x = 2 := by rw [below]; split <;> simp
  have hvalue : 0 < (ofBinary64 x).value := Nat.mul_pos (by omega) hscale
  have hgrid := ten_zpow_point_le (den_ofBinary64_pos (x := x)) hvalue
  generalize he : (ofBinary64 x).point - ((17 : Nat) : Int) = e
  have hpoint : (ofBinary64 x).point - 1 = e + (16 : Nat) := by omega
  rw [hpoint, zpow_add₀ (by norm_num), zpow_natCast] at hgrid
  have hup := shift_up_pos e
  generalize hu : Nat.pow 10 (-e).toNat = u at hup
  -- The step of the grid is a part of the value, and that is at most three or
  -- four quarters of the last place.
  have hstep : ((ofBinary64 x).shift e).den * 10 ^ 16 ≤ 4 * x.significand * (scale x * u) := by
    have hden := shift_den (r := ofBinary64 x) e 1
    rw [Nat.one_mul, Nat.cast_one, one_mul, hu] at hden
    rw [← Nat.cast_le (α := ℚ)]
    calc (((((ofBinary64 x).shift e).den * 10 ^ 16 : Nat)) : ℚ)
        = 10 ^ e * 10 ^ 16 * (ofBinary64 x).den * u := by push_cast [hden]; ring
      _ ≤ (ofBinary64 x).value * u := mul_le_mul_of_nonneg_right hgrid (Nat.cast_nonneg u)
      _ = ((4 * x.significand * (scale x * u) : Nat) : ℚ) := by
        rw [ofBinary64_eq]
        push_cast
        ring
  have hlt : ((ofBinary64 x).shift e).den < (2 + below x) * (scale x * u) := by
    have hunit : 0 < scale x * u := Nat.mul_pos hscale hup
    have hmul := Nat.mul_lt_mul_of_pos_right (four_mul_significand_lt (x := x)) hunit
    have hlt := hstep.trans_lt hmul
    rw [Nat.mul_right_comm] at hlt
    exact Nat.lt_of_mul_lt_mul_right hlt
  have hsum : (4 * x.significand - below x) + (2 + below x) = 4 * x.significand + 2 := by
    have : 4 ≤ 4 * x.significand := Nat.le_mul_of_pos_right _ (Nat.pos_of_ne_zero h)
    rcases hbelow with h | h <;> omega
  have hlow : 4 * x.significand - below x < 4 * x.significand := by omega
  have hhigh : 4 * x.significand < 4 * x.significand + 2 := by omega
  refine ⟨Nat.mul_pos den_ofBinary64_pos (Nat.pow_pos (by decide)), ?_, ?_, ?_⟩
  · exact Nat.mul_lt_mul_of_pos_right (Nat.mul_lt_mul_of_pos_right hlow hscale) (shift_up_pos e)
  · exact Nat.mul_lt_mul_of_pos_right (Nat.mul_lt_mul_of_pos_right hhigh hscale) (shift_up_pos e)
  · show (4 * x.significand - below x) * scale x * Nat.pow 10 (-e).toNat +
      ((ofBinary64 x).shift e).den < (4 * x.significand + 2) * scale x * Nat.pow 10 (-e).toNat
    rw [hu, ← hsum, Nat.add_mul, Nat.add_mul]
    refine Nat.add_lt_add_left ?_ _
    rwa [Nat.mul_assoc]

theorem exists_search (h : x.significand ≠ 0) :
    ∃ s, (ofBinary64 x).search (ofBinary64 x).point 17 1 = some s ∧ (ofBinary64 x).Holds s.value :=
  have hsome := isSome_search (by decide : 1 ≤ 17) (by decide : 17 < 1 + 17)
    (wide_shift h).isSome_nearest?
  ⟨_, (Option.some_get hsome).symm, holds_of_search (Option.some_get hsome).symm⟩

/-! ## The half-way points -/

theorem four_scale : 4 * scale x * 2 ^ 1074 = gap x.rank * (ofBinary64 x).den := by
  have hbinade : 1 ≤ x.binade := Nat.le_max_right ..
  have hden : (ofBinary64 x).den = 2 ^ (1077 - x.binade) := rfl
  have hexponents : 2 + (x.binade - 1077) + 1074 = x.binade - 1 + (1077 - x.binade) := by omega
  rw [Binary64.gap_rank, hden, scale, Nat.pow_eq, Nat.pow_eq, ← Nat.pow_add,
    show 4 = 2 ^ 2 from rfl, ← Nat.pow_add, ← Nat.pow_add, hexponents]

/-- Below a power of two the next number is half as far away. -/
theorem two_mul_gap {n : Nat} (hn : n + 1 = x.rank) : 2 * gap n = below x * gap x.rank := by
  rw [below, Binary64.fractionField_eq, Binary64.exponentField_eq, ← hn, gap, gap,
    Binary64.fractions]
  split
  · next h =>
      obtain ⟨e, he⟩ : ∃ e, (n + 1) / 0x10000000000000 = e + 2 := ⟨_, (Nat.sub_add_cancel h.2).symm⟩
      have he' : n / 0x10000000000000 = e + 1 := by omega
      rw [he, he', Nat.max_eq_left (by omega), Nat.max_eq_left (by omega), Nat.one_mul]
      exact (Nat.pow_succ' ..).symm
  · next h =>
      have hmax : max (n / 0x10000000000000) 1 = max ((n + 1) / 0x10000000000000) 1 := by omega
      rw [hmax]

theorem size_mul_eq_iff {n : Nat} {d a : ℚ} :
    size n * d = a ↔ weight n * d = a * 2 ^ 1074 := by
  rw [size, div_mul_eq_mul_div, div_eq_iff (pow_ne_zero _ two_ne_zero)]

section Neighbours

variable (x)

theorem four_scale_cast : (4 * scale x * 2 ^ 1074 : ℚ) = gap x.rank * (ofBinary64 x).den := by
  have hscale := congrArg (Nat.cast (R := ℚ)) (four_scale (x := x))
  rwa [Nat.cast_mul, Nat.cast_mul, Nat.cast_mul, Nat.cast_pow] at hscale

theorem size_mul_den : size x.rank * (ofBinary64 x).den = 4 * x.significand * scale x := by
  have hscale := four_scale_cast x
  have hweight : weight x.rank = x.significand * gap x.rank := by
    rw [Binary64.weight_rank, Binary64.gap_rank]
  rw [size_mul_eq_iff, hweight, Nat.cast_mul]
  generalize (2 : ℚ) ^ 1074 = u at hscale ⊢
  linear_combination (-(x.significand : ℚ)) * hscale

theorem size_succ_mul_den :
    size (x.rank + 1) * (ofBinary64 x).den = (4 * x.significand + 4) * scale x := by
  have hscale := four_scale_cast x
  have hsize := size_mul_den x
  rw [size_mul_eq_iff] at hsize ⊢
  rw [Binary64.weight_succ, Nat.cast_add]
  generalize (2 : ℚ) ^ 1074 = u at hscale hsize ⊢
  linear_combination hsize - hscale

theorem size_pred_mul_den {n : Nat} (hn : n + 1 = x.rank) :
    size n * (ofBinary64 x).den = (4 * x.significand - 2 * below x) * scale x := by
  have hscale := four_scale_cast x
  have hgap : (2 * gap n : ℚ) = below x * gap x.rank := by exact_mod_cast two_mul_gap hn
  have hsize := size_mul_den x
  rw [size_mul_eq_iff] at hsize ⊢
  have hweight : (weight x.rank : ℚ) = weight n + gap n := by
    rw [← hn, Binary64.weight_succ, Nat.cast_add]
  rw [hweight] at hsize
  generalize (2 : ℚ) ^ 1074 = u at hscale hsize ⊢
  linear_combination hsize - (ofBinary64 x).den * hgap / 2 + below x * hscale / 2

end Neighbours

/-- What the interval holds is not beyond the half-way points. -/
theorem Holds.halfway {q : ℚ} (hx : x.significand ≠ 0) (h : (ofBinary64 x).Holds q) :
    Binary64.Halfway q x := by
  have hden : (0 : ℚ) < (ofBinary64 x).den := Nat.cast_pos.mpr den_ofBinary64_pos
  have hbelow : below x ≤ 4 * x.significand := by rw [below]; split <;> omega
  have hlow : ((ofBinary64 x).low : ℚ) = (4 * x.significand - below x) * scale x := by
    rw [ofBinary64_eq]
    push_cast [hbelow]
    rfl
  have hhigh : ((ofBinary64 x).high : ℚ) = (4 * x.significand + 2) * scale x := by
    rw [ofBinary64_eq]
    push_cast
    rfl
  have hsize := size_mul_den x
  have hlow_eq {n : Nat} (hn : n + 1 = x.rank) :
      2 * ((ofBinary64 x).low : ℚ) = (size n + size x.rank) * (ofBinary64 x).den := by
    rw [hlow, add_mul, size_pred_mul_den x hn, hsize]
    ring
  have hhigh_eq : 2 * ((ofBinary64 x).high : ℚ) =
      (size x.rank + size (x.rank + 1)) * (ofBinary64 x).den := by
    rw [hhigh, add_mul (size x.rank), size_succ_mul_den, hsize]
    ring
  have hopen (hodd : x.significand % 2 = 1) : (ofBinary64 x).closed = false := by
    rw [ofBinary64_eq, hodd]
    rfl
  refine ⟨fun n hn => ?_, ?_, fun hodd n hn heq => ?_, fun hodd heq => ?_⟩
  · refine le_of_mul_le_mul_right ?_ hden
    linarith [hlow_eq hn, h.low_le]
  · refine le_of_mul_le_mul_right ?_ hden
    linarith [h.le_high]
  · refine (h.ends (hopen hodd)).1 ?_
    have hlow := hlow_eq hn
    rw [heq] at hlow
    linarith
  · refine (h.ends (hopen hodd)).2 ?_
    rw [← heq] at hhigh_eq
    linarith

end Rounding

/-! ## The shortest decimal -/

variable {x : Binary64}

theorem value_shortest (h : x.significand ≠ 0) :
    (Rounding.ofBinary64 x).Holds (shortest x).value := by
  obtain ⟨s, hs, hholds⟩ := Rounding.exists_search h
  simp only [shortest, if_neg h, hs, Option.getD_some, Scientific.value_trim]
  exact hholds

theorem digits_shortest_pos (h : x.significand ≠ 0) : 0 < (shortest x).digits := by
  have hholds := value_shortest h
  by_contra hzero
  have hvalue : (shortest x).value = 0 := by
    rw [Scientific.value, Nat.eq_zero_of_not_pos hzero, Nat.cast_zero, zero_mul]
  have hlow := hholds.low_le
  rw [hvalue, zero_mul, Nat.cast_nonpos] at hlow
  have hbelow : Rounding.below x ≤ 2 := by rw [Rounding.below]; split <;> simp
  have hpos : 0 < (4 * x.significand - Rounding.below x) * Rounding.scale x :=
    Nat.mul_pos (by omega) Rounding.scale_pos
  exact hpos.ne' hlow

/-- Zero is its own magnitude. -/
theorem nearest_zero (h : x.significand = 0) : Binary64.Nearest 0 x := by
  have hmagnitude : x.magnitude = 0 := by simp [Binary64.magnitude, h]
  refine ⟨?_, fun y _ => ?_, fun y _ heq => Or.inl ?_⟩
  · rw [Binary64.significand] at h
    split at h
    · next hfield => simp [Binary64.isFinite, hfield]
    · rw [Binary64.fractions] at h
      omega
  · rw [hmagnitude, sub_self, abs_zero]
    exact abs_nonneg _
  · rw [hmagnitude, sub_self, abs_zero, zero_sub, abs_neg, eq_comm, abs_eq_zero] at heq
    rw [hmagnitude, heq]

/-- **The shortest decimal of a number is rounded to that number.** -/
theorem nearest_shortest (hfinite : x.isFinite) : Binary64.Nearest (shortest x).value x := by
  by_cases hzero : x.significand = 0
  · have hvalue : (shortest x).value = 0 := by simp [shortest, hzero, Scientific.value]
    rw [hvalue]
    exact nearest_zero hzero
  · exact Binary64.nearest_of_halfway hfinite ((value_shortest hzero).halfway hzero)

end MetaRecord.Decimal

/-
# `MetaRecord.Proofs.Decimal.Nearest` — the number a decimal is rounded to

Reading a decimal as a double-precision number rounds it to the nearest one, and
a decimal half-way between two of them to the one with the even significand.
Infinity takes part, as if it were `2 ^ 1024`: what is nearer to it than to the
largest finite number is out of range, and rounded to no number.

The magnitudes ascend with the bits under the sign, the `rank`, and so each of
them has a neighbour on either side.  A decimal is rounded to a number when it
is not beyond the half-way point to either neighbour.

Main statements: `nearest_of_halfway`, and `Nearest.unique`, a decimal is rounded
to one number only.
-/
import Mathlib.Algebra.Order.Field.Basic
import Mathlib.Algebra.Order.Field.Rat
import Mathlib.Algebra.Order.Group.Abs
import Mathlib.Order.Monotone.Basic
import Mathlib.Tactic.FieldSimp
import Mathlib.Tactic.Linarith
import Mathlib.Tactic.Ring
import MetaRecord.Decimal.Binary64

namespace MetaRecord.Decimal.Binary64

/-! ## Ranks and magnitudes -/

/-- The magnitude of a finite number; infinity counts as `2 ^ 1024`. -/
def magnitude (x : Binary64) : ℚ := x.significand * 2 ^ x.binade / 2 ^ 1075

/-- The bits under the sign. -/
def rank (x : Binary64) : Nat := x.bits.toNat % signBit

/-- The magnitude of the number with a given rank, in units of the smallest. -/
def weight (n : Nat) : Nat :=
  (if n / fractions = 0 then n % fractions else n % fractions + fractions) *
    Nat.pow 2 (max (n / fractions) 1 - 1)

/-- How far the next magnitude is away, in units of the smallest. -/
def gap (n : Nat) : Nat := Nat.pow 2 (max (n / fractions) 1 - 1)

theorem weight_succ (n : Nat) : weight (n + 1) = weight n + gap n := by
  have hdiv : (n + 1) / fractions =
      if n % fractions + 1 = fractions then n / fractions + 1 else n / fractions := by
    unfold fractions
    split <;> omega
  have hmod : (n + 1) % fractions =
      if n % fractions + 1 = fractions then 0 else n % fractions + 1 := by
    unfold fractions
    split <;> omega
  rw [weight, weight, gap, hdiv, hmod]
  by_cases hlast : n % fractions + 1 = fractions
  · rw [if_pos hlast, if_pos hlast, if_neg (Nat.succ_ne_zero _)]
    by_cases hlow : n / fractions = 0
    · rw [if_pos hlow, hlow]
      show (0 + fractions) * 1 = n % fractions * 1 + 1
      omega
    · obtain ⟨e, he⟩ := Nat.exists_eq_succ_of_ne_zero hlow
      rw [if_neg hlow, he, Nat.max_eq_left (by omega), Nat.max_eq_left (by omega),
        Nat.add_sub_cancel, Nat.succ_sub_one]
      show (0 + fractions) * 2 ^ (e + 1) = (n % fractions + fractions) * 2 ^ e + 2 ^ e
      rw [← Nat.succ_mul, pow_succ]
      have hsum : (n % fractions + fractions).succ = fractions * 2 := by omega
      rw [hsum]
      ring
  · rw [if_neg hlast, if_neg hlast, ← Nat.succ_mul]
    split
    · rfl
    · rw [Nat.succ_eq_add_one, Nat.add_right_comm]

theorem gap_pos (n : Nat) : 0 < gap n := Nat.pow_pos (by decide)

theorem weight_strictMono : StrictMono weight :=
  strictMono_nat_of_lt_succ fun n => by
    rw [weight_succ]
    exact Nat.lt_add_of_pos_right (gap_pos n)

theorem exponentField_eq (x : Binary64) : x.exponentField = x.rank / fractions := by
  rw [exponentField, rank, signBit, fractions]
  omega

theorem fractionField_eq (x : Binary64) : x.fractionField = x.rank % fractions := by
  rw [fractionField, rank, signBit, fractions]
  omega

theorem isFinite_iff {x : Binary64} : x.isFinite ↔ x.rank < 2047 * fractions := by
  rw [isFinite, decide_eq_true_eq, exponentField_eq, Nat.div_lt_iff_lt_mul (by decide)]

theorem weight_rank (x : Binary64) : weight x.rank = x.significand * Nat.pow 2 (x.binade - 1) := by
  rw [weight, significand, binade, exponentField_eq, fractionField_eq]

theorem gap_rank (x : Binary64) : gap x.rank = Nat.pow 2 (x.binade - 1) := by
  rw [gap, binade, exponentField_eq]

/-- The magnitude of the number with a given rank. -/
def size (n : Nat) : ℚ := weight n / 2 ^ 1074

theorem magnitude_eq (x : Binary64) : x.magnitude = size x.rank := by
  obtain ⟨e, he⟩ : ∃ e, x.binade = e + 1 := ⟨x.binade - 1, by rw [binade]; omega⟩
  rw [magnitude, size, weight_rank, he, Nat.add_sub_cancel]
  push_cast
  rw [Nat.pow_eq]
  push_cast
  rw [pow_succ, pow_succ, ← mul_assoc]
  exact mul_div_mul_right _ _ two_ne_zero

theorem size_strictMono : StrictMono size := fun _ _ h =>
  div_lt_div_of_pos_right (Nat.cast_lt.mpr (weight_strictMono h)) (by positivity)

theorem magnitude_inj {x y : Binary64} : x.magnitude = y.magnitude ↔ x.rank = y.rank := by
  rw [magnitude_eq, magnitude_eq, size_strictMono.injective.eq_iff]

/-- Sign and rank are all there is to a number. -/
theorem ext_rank {x y : Binary64} (hsign : x.isNegative = y.isNegative) (hrank : x.rank = y.rank) :
    x = y := by
  obtain ⟨x⟩ := x
  obtain ⟨y⟩ := y
  have hx := x.toNat_lt
  have hy := y.toNat_lt
  have hsign : signBit ≤ x.toNat ↔ signBit ≤ y.toNat := decide_eq_decide.mp hsign
  simp only [rank, signBit] at hsign hrank
  rw [Binary64.mk.injEq, ← UInt64.toNat_inj]
  omega

/-- The number with the next rank. -/
def next (x : Binary64) : Binary64 := ⟨UInt64.ofNat (x.rank + 1)⟩

theorem rank_next {x : Binary64} (h : x.isFinite) : x.next.rank = x.rank + 1 := by
  have h := isFinite_iff.mp h
  rw [fractions] at h
  show (UInt64.ofNat (x.rank + 1)).toNat % signBit = x.rank + 1
  rw [UInt64.toNat_ofNat', signBit]
  omega

theorem significand_mod_two (x : Binary64) : x.significand % 2 = x.rank % 2 := by
  rw [significand, exponentField_eq, fractionField_eq, fractions]
  split <;> omega

/-! ## Rounding -/

/-- The magnitude `q` is rounded to the finite number `x`, or to `x` with the
other sign. -/
structure Nearest (q : ℚ) (x : Binary64) : Prop where
  finite : x.isFinite
  closest : ∀ y : Binary64, ¬ y.isNaN → |q - x.magnitude| ≤ |q - y.magnitude|
  even : ∀ y : Binary64, ¬ y.isNaN → |q - x.magnitude| = |q - y.magnitude| →
    x.magnitude = y.magnitude ∨ x.significand % 2 = 0

section Distance

variable {q a b : ℚ}

theorem abs_sub_le_right (hab : a < b) (h : a + b ≤ 2 * q) : |q - b| ≤ |q - a| := by
  rw [abs_of_pos (by linarith : 0 < q - a), abs_le]
  constructor <;> linarith

theorem abs_sub_le_left (hab : a < b) (h : 2 * q ≤ a + b) : |q - a| ≤ |q - b| := by
  rw [abs_of_neg (by linarith : q - b < 0), abs_le]
  constructor <;> linarith

theorem two_mul_of_abs_sub_eq (hab : a < b) (h : |q - a| = |q - b|) : 2 * q = a + b := by
  rcases abs_eq_abs.mp h with h | h <;> linarith

end Distance

/-- `q` is not beyond the half-way points to the neighbours of `x`, and not on
them if `x` is odd. -/
structure Halfway (q : ℚ) (x : Binary64) : Prop where
  above : ∀ n, n + 1 = x.rank → size n + size x.rank ≤ 2 * q
  below : 2 * q ≤ size x.rank + size (x.rank + 1)
  odd_above : x.significand % 2 = 1 → ∀ n, n + 1 = x.rank → size n + size x.rank ≠ 2 * q
  odd_below : x.significand % 2 = 1 → 2 * q ≠ size x.rank + size (x.rank + 1)

variable {q : ℚ} {x y : Binary64}

theorem nearest_of_halfway (hfinite : x.isFinite) (h : Halfway q x) : Nearest q x := by
  -- Ranks further away than the neighbours only make the half-way point move away.
  have hlow {k : Nat} (hk : k < x.rank) : size k + size x.rank ≤ 2 * q ∧
      (size k + size x.rank = 2 * q → x.significand % 2 = 0) := by
    obtain ⟨n, hn⟩ : ∃ n, n + 1 = x.rank := ⟨x.rank - 1, by omega⟩
    have hle : size k ≤ size n := size_strictMono.monotone (by omega)
    have habove := h.above n hn
    refine ⟨by linarith, fun heq => ?_⟩
    by_contra hodd
    exact h.odd_above (by omega) n hn (by linarith)
  have hhigh {k : Nat} (hk : x.rank < k) : 2 * q ≤ size x.rank + size k ∧
      (2 * q = size x.rank + size k → x.significand % 2 = 0) := by
    have hle : size (x.rank + 1) ≤ size k := size_strictMono.monotone hk
    have hbelow := h.below
    refine ⟨by linarith, fun heq => ?_⟩
    by_contra hodd
    exact h.odd_below (by omega) (by linarith)
  refine ⟨hfinite, fun y _ => ?_, fun y _ heq => ?_⟩
  · rw [magnitude_eq, magnitude_eq]
    rcases Nat.lt_trichotomy y.rank x.rank with hlt | heq | hgt
    · exact abs_sub_le_right (size_strictMono hlt) (hlow hlt).1
    · rw [heq]
    · exact abs_sub_le_left (size_strictMono hgt) (hhigh hgt).1
  · rw [magnitude_eq, magnitude_eq] at heq
    rcases Nat.lt_trichotomy y.rank x.rank with hlt | hsame | hgt
    · exact Or.inr ((hlow hlt).2 (two_mul_of_abs_sub_eq (size_strictMono hlt) heq.symm).symm)
    · exact Or.inl (magnitude_inj.mpr hsame.symm)
    · exact Or.inr ((hhigh hgt).2 (two_mul_of_abs_sub_eq (size_strictMono hgt) heq))

theorem not_isNaN_of_rank_le (h : x.rank ≤ 2047 * fractions) : ¬ x.isNaN := by
  rw [isNaN, Bool.and_eq_true, decide_eq_true_eq, bne_iff_ne, exponentField_eq, fractionField_eq]
  rw [fractions] at *
  omega

/-- Of two numbers that are equally near, one has an odd significand or there is
a nearer one between them. -/
theorem Nearest.rank_le (hx : Nearest q x) (hy : Nearest q y) : x.rank ≤ y.rank := by
  by_contra hlt
  have hlt := Nat.lt_of_not_le hlt
  have hnan {z : Binary64} (hz : z.isFinite) : ¬ z.isNaN :=
    not_isNaN_of_rank_le (Nat.le_of_lt (isFinite_iff.mp hz))
  have heq := le_antisymm (hx.closest y (hnan hy.finite)) (hy.closest x (hnan hx.finite))
  have hne : x.magnitude ≠ y.magnitude := fun h => Nat.ne_of_gt hlt (magnitude_inj.mp h)
  have hevenx := (hx.even y (hnan hy.finite) heq).resolve_left hne
  have heveny := (hy.even x (hnan hx.finite) heq.symm).resolve_left hne.symm
  rw [significand_mod_two] at hevenx heveny
  -- The next number after `y` is not `x`, which is even too.
  have hnext := rank_next hy.finite
  have hbetween : y.next.rank < x.rank := by omega
  have hcloser := hy.closest y.next
    (not_isNaN_of_rank_le (Nat.le_of_lt (hbetween.trans (isFinite_iff.mp hx.finite))))
  rw [magnitude_eq, magnitude_eq] at heq hcloser
  have hmiddle := two_mul_of_abs_sub_eq (size_strictMono hlt) heq.symm
  have hyz : size y.rank < size y.next.rank := size_strictMono (by omega)
  have hzx : size y.next.rank < size x.rank := size_strictMono hbetween
  rw [abs_of_pos (by linarith : 0 < q - size y.rank), le_abs] at hcloser
  rcases hcloser with h | h <;> linarith

/-- A decimal is rounded to one number only. -/
theorem Nearest.unique (hx : Nearest q x) (hy : Nearest q y)
    (hsign : x.isNegative = y.isNegative) : x = y :=
  ext_rank hsign (le_antisymm (hx.rank_le hy) (hy.rank_le hx))

end MetaRecord.Decimal.Binary64

/-
# `MetaRecord.Proofs.Json.Numbers` — numbers are read as they were printed

A printed number ends where the text after it cannot go on as a number.  A whole
number is printed without a point, and any other has a fraction, an exponent or
both, in every layout; its digits and its exponent make up the shortest decimal
of the number, which is rounded to it.

Main statements: `value_int` and `value_float`.
-/
import Mathlib.Tactic.Ring
import MetaRecord.Json.Printer
import MetaRecord.Proofs.Decimal.Shortest
import MetaRecord.Proofs.Json.Grammar

namespace MetaRecord.Json.Grammar

open Decimal (Binary64 Scientific Style exponentText shortest)

variable {rest : List Char}

/-- No number goes on at the front of the text. -/
def Ends (rest : List Char) : Prop :=
  ∀ c ∈ rest.head?, ¬ c.isDigit ∧ c ≠ '.' ∧ c ≠ 'e' ∧ c ≠ 'E'

/-! ## Digits -/

theorem Digits.of_isDigit {digits : List Char} (hne : digits ≠ []) (h : ∀ c ∈ digits, c.isDigit)
    (hrest : ∀ c ∈ rest.head?, ¬ c.isDigit) : Digits (digits ++ rest) digits rest :=
  ⟨rfl, hne, h, hrest⟩

theorem isDigit_toDigits {n : Nat} {c : Char} (h : c ∈ Nat.toDigits 10 n) : c.isDigit :=
  Nat.isDigit_of_mem_toDigits (by decide) (le_refl _) h

theorem decimalValue_toDigits (n : Nat) : decimalValue (Nat.toDigits 10 n) = n :=
  Nat.ofDigitChars_ten_toDigits

theorem head?_toDigits_ne_zero {n : Nat} (h : 0 < n) : (Nat.toDigits 10 n).head? ≠ some '0' := by
  induction n using Nat.strong_induction_on with
  | _ n ih =>
      by_cases hlt : n < 10
      · rw [Nat.toDigits_of_lt_base hlt]
        simp [h.ne']
      · have hle := Nat.le_of_not_lt hlt
        rw [Nat.toDigits_of_base_le (by decide) hle,
          List.head?_append_of_ne_nil _ Nat.toDigits_ne_nil]
        exact ih (n / 10) (Nat.div_lt_self h (by decide)) (Nat.div_pos hle (by decide))

theorem isDigit_replicate_zero {n : Nat} {c : Char} (h : c ∈ List.replicate n '0') : c.isDigit := by
  rw [List.eq_of_mem_replicate h]
  rfl

theorem isDigit_singleton_zero : ∀ c ∈ ['0'], c.isDigit :=
  List.forall_mem_singleton.mpr rfl

/-! ## Parts of a number -/

/-- Digits before a point: without needless zeros in front. -/
structure Whole (digits : List Char) : Prop where
  nonempty : digits ≠ []
  isDigit : ∀ c ∈ digits, c.isDigit
  zero : digits.head? = some '0' → digits = ['0']

theorem whole_zero : Whole ['0'] where
  nonempty := List.cons_ne_nil _ _
  isDigit := isDigit_singleton_zero
  zero _ := rfl

theorem whole_toDigits (n : Nat) : Whole (Nat.toDigits 10 n) := by
  refine ⟨Nat.toDigits_ne_nil, fun c => isDigit_toDigits, fun hzero => ?_⟩
  rcases Nat.eq_zero_or_pos n with rfl | hpos
  · exact Nat.toDigits_zero 10
  · exact absurd hzero (head?_toDigits_ne_zero hpos)

/-- A number that begins without zeros may go on with more digits. -/
theorem Whole.append {digits more : List Char} (h : Whole digits) (hhead : digits.head? ≠ some '0')
    (hmore : ∀ c ∈ more, c.isDigit) : Whole (digits ++ more) where
  nonempty := List.append_ne_nil_of_left_ne_nil h.nonempty _
  isDigit c hc := (List.mem_append.mp hc).elim (h.isDigit c) (hmore c)
  zero hzero := by
    rw [List.head?_append_of_ne_nil _ h.nonempty] at hzero
    exact absurd hzero hhead

theorem Whole.minus {digits : List Char} (h : Whole digits) (rest : List Char) :
    Minus (digits ++ rest) false (digits ++ rest) := by
  refine Minus.none fun hhead => ?_
  rw [List.head?_append_of_ne_nil _ h.nonempty] at hhead
  exact absurd (h.isDigit '-' (List.mem_of_mem_head? hhead)) (by decide)

theorem Whole.take {digits : List Char} (h : Whole digits) (hhead : digits.head? ≠ some '0')
    {n : Nat} (hn : 0 < n) : Whole (digits.take n) where
  nonempty hnil := by
    rcases List.take_eq_nil_iff.mp hnil with hzero | hempty
    · omega
    · exact h.nonempty hempty
  isDigit c hc := h.isDigit c (List.mem_of_mem_take hc)
  zero hzero := by
    rw [List.head?_take, if_neg hn.ne'] at hzero
    exact absurd hzero hhead

/-- However the text goes on, what is printed is all of the number. -/
def Spells (text : List Char) (n : Numeral) : Prop :=
  ∀ rest, Ends rest → Numeral.Reads (text ++ rest) n rest

section Spelling

variable {whole fraction : List Char}

theorem Ends.no_fraction (h : Ends rest) : Fraction rest [] rest :=
  Fraction.none fun hhead => (h '.' hhead).2.1 rfl

theorem Ends.no_exponent (h : Ends rest) : Exponent rest none rest :=
  Exponent.none ⟨fun hhead => (h 'e' hhead).2.2.1 rfl, fun hhead => (h 'E' hhead).2.2.2 rfl⟩

theorem spells_whole (hwhole : Whole whole) : Spells whole ⟨false, whole, [], none⟩ := by
  intro rest hrest
  have hdigits := Digits.of_isDigit hwhole.nonempty hwhole.isDigit fun c hc => (hrest c hc).1
  exact ⟨hwhole.minus rest, hdigits, hwhole.zero, hrest.no_fraction, hrest.no_exponent⟩

/-- An exponent is printed with its sign. -/
theorem exponent_exponentText (e : Int) (hrest : Ends rest) :
    Exponent ('e' :: exponentText e ++ rest) (some e) rest := by
  have hdigits : Digits (Nat.toDigits 10 e.natAbs ++ rest) (Nat.toDigits 10 e.natAbs) rest :=
    .of_isDigit Nat.toDigits_ne_nil (fun c => isDigit_toDigits) fun c hc => (hrest c hc).1
  rw [exponentText]
  split
  · next hneg =>
      have hread := Exponent.mark (Or.inl rfl) (Sign.minus _) hdigits
      rw [decimalValue_toDigits] at hread
      have he : -1 * (e.natAbs : Int) = e := by omega
      rwa [he] at hread
  · next hpos =>
      have hread := Exponent.mark (Or.inl rfl) (Sign.plus _) hdigits
      rw [decimalValue_toDigits] at hread
      have he : 1 * (e.natAbs : Int) = e := by omega
      rwa [he] at hread

theorem spells_point (hwhole : Whole whole) (hne : fraction ≠ [])
    (hfraction : ∀ c ∈ fraction, c.isDigit) :
    Spells (whole ++ '.' :: fraction) ⟨false, whole, fraction, none⟩ := by
  intro rest hrest
  rw [List.append_assoc, List.cons_append]
  refine ⟨hwhole.minus _, .of_isDigit hwhole.nonempty hwhole.isDigit ?_, hwhole.zero,
    .point (.of_isDigit hne hfraction fun c hc => (hrest c hc).1), hrest.no_exponent⟩
  simp

theorem spells_exponent (hwhole : Whole whole) (e : Int) :
    Spells (whole ++ 'e' :: exponentText e) ⟨false, whole, [], some e⟩ := by
  intro rest hrest
  rw [List.append_assoc]
  refine ⟨hwhole.minus _, .of_isDigit hwhole.nonempty hwhole.isDigit ?_, hwhole.zero,
    .none ?_, exponent_exponentText e hrest⟩
  · simp
  · simp

theorem spells_point_exponent (hwhole : Whole whole) (hne : fraction ≠ [])
    (hfraction : ∀ c ∈ fraction, c.isDigit) (e : Int) :
    Spells (whole ++ '.' :: fraction ++ 'e' :: exponentText e)
      ⟨false, whole, fraction, some e⟩ := by
  intro rest hrest
  rw [List.append_assoc, List.append_assoc, List.cons_append]
  refine ⟨hwhole.minus _, .of_isDigit hwhole.nonempty hwhole.isDigit ?_, hwhole.zero,
    .point (.of_isDigit hne hfraction ?_), exponent_exponentText e hrest⟩
  · simp
  · simp

/-- A minus sign in front makes a number negative. -/
theorem Spells.negative {text : List Char} {exponent : Option Int}
    (h : Spells text ⟨false, whole, fraction, exponent⟩) :
    Spells ('-' :: text) ⟨true, whole, fraction, exponent⟩ := by
  intro rest hrest
  have hread := h rest hrest
  rw [List.cons_append]
  generalize text ++ rest = t at hread ⊢
  cases hread with
  | mk hminus hwhole hzero hfraction hexponent =>
      cases hminus with
      | none => exact ⟨.minus _, hwhole, hzero, hfraction, hexponent⟩

end Spelling

/-! ## Whole numbers -/

theorem value_int (n : Int) (hrest : Ends rest) :
    Value (Text.signedDecimal n ++ rest) (.int n) rest := by
  have hspells := spells_whole (whole_toDigits n.natAbs)
  rw [Text.signedDecimal]
  split
  · next hneg =>
      have hvalue := Numeral.Denotes.int (n := ⟨true, Nat.toDigits 10 n.natAbs, [], none⟩) rfl rfl
      simp only [decimalValue_toDigits, if_true] at hvalue
      have hn : -(n.natAbs : Int) = n := by omega
      rw [hn] at hvalue
      exact .number (hspells.negative rest hrest) hvalue
  · next hpos =>
      have hvalue := Numeral.Denotes.int (n := ⟨false, Nat.toDigits 10 n.natAbs, [], none⟩) rfl rfl
      simp only [decimalValue_toDigits, Bool.false_eq_true, if_false] at hvalue
      have hn : (n.natAbs : Int) = n := by omega
      rw [hn] at hvalue
      exact .number (hspells rest hrest) hvalue

/-! ## Other numbers -/

/-- The text is a decimal's, with a fraction or an exponent. -/
def SpellsDecimal (text : List Char) (q : ℚ) : Prop :=
  ∃ whole fraction exponent, Spells text ⟨false, whole, fraction, exponent⟩ ∧
    (fraction ≠ [] ∨ exponent ≠ none) ∧ Numeral.magnitude ⟨false, whole, fraction, exponent⟩ = q

theorem magnitude_eq_of_point {whole fraction : List Char} {s : Scientific} {exponent : Option Int}
    (hdigits : decimalValue (whole ++ fraction) = s.digits)
    (hexponent : exponent.getD 0 - fraction.length = s.exponent) :
    Numeral.magnitude ⟨false, whole, fraction, exponent⟩ = s.value := by
  rw [Numeral.magnitude, Scientific.value, hdigits, hexponent]

theorem decimalValue_append_zeros (digits : List Char) (n : Nat) :
    decimalValue (digits ++ List.replicate n '0') = 10 ^ n * decimalValue digits := by
  rw [decimalValue, Nat.ofDigitChars_append, Nat.ofDigitChars_replicate_zero, decimalValue]

theorem decimalValue_zeros_append (digits : List Char) (n : Nat) :
    decimalValue (List.replicate n '0' ++ digits) = decimalValue digits := by
  rw [decimalValue, Nat.ofDigitChars_append, Nat.ofDigitChars_replicate_zero, Nat.mul_zero,
    decimalValue]

section Layout

variable {digits : List Char} {s : Scientific}

/-- The digits of a decimal, which is not zero. -/
structure DigitsOf (s : Scientific) (digits : List Char) : Prop where
  whole : Whole digits
  head : digits.head? ≠ some '0'
  value : decimalValue digits = s.digits

theorem digitsOf_toDigits (hs : 0 < s.digits) : DigitsOf s (Nat.toDigits 10 s.digits) :=
  ⟨whole_toDigits _, head?_toDigits_ne_zero hs, decimalValue_toDigits _⟩

/-- Zeros up to the point. -/
theorem DigitsOf.padded (h : DigitsOf s digits) (hexponent : 0 ≤ s.exponent) :
    SpellsDecimal (digits ++ List.replicate s.exponent.toNat '0' ++ ['.', '0']) s.value := by
  obtain ⟨n, hn⟩ := Int.eq_ofNat_of_zero_le hexponent
  refine ⟨_, _, _, spells_point (h.whole.append h.head fun c => isDigit_replicate_zero)
    (List.cons_ne_nil _ _) isDigit_singleton_zero, Or.inl (List.cons_ne_nil _ _), ?_⟩
  have hall : digits ++ List.replicate n '0' ++ ['0'] = digits ++ List.replicate (n + 1) '0' := by
    rw [List.replicate_succ', List.append_assoc]
  rw [Numeral.magnitude, Scientific.value, hn, Int.toNat_natCast]
  dsimp only
  rw [hall, decimalValue_append_zeros, h.value, Option.getD_none, List.length_singleton]
  push_cast
  rw [zpow_natCast, pow_succ]
  field_simp

/-- A point among the digits. -/
theorem DigitsOf.parted (h : DigitsOf s digits) (hexponent : s.exponent < 0)
    (hpoint : 0 < digits.length + s.exponent) :
    SpellsDecimal (digits.take (digits.length + s.exponent).toNat ++
      '.' :: digits.drop (digits.length + s.exponent).toNat) s.value := by
  generalize hn : (digits.length + s.exponent).toNat = n
  have hlength : ((digits.drop n).length : Int) = -s.exponent := by
    rw [List.length_drop]
    omega
  have hne : digits.drop n ≠ [] := List.ne_nil_of_length_pos (by omega)
  refine ⟨_, _, _, spells_point (h.whole.take h.head (by omega)) hne
    fun c hc => h.whole.isDigit c (List.mem_of_mem_drop hc), Or.inl hne,
    magnitude_eq_of_point ?_ ?_⟩
  · rw [List.take_append_drop, h.value]
  · rw [hlength, Option.getD_none, zero_sub, neg_neg]

/-- Zeros after the point. -/
theorem DigitsOf.below_one (h : DigitsOf s digits) (hpoint : digits.length + s.exponent ≤ 0) :
    SpellsDecimal
      ('0' :: '.' :: List.replicate (-(digits.length + s.exponent)).toNat '0' ++ digits)
      s.value := by
  generalize hn : (-(digits.length + s.exponent)).toNat = n
  have hne : List.replicate n '0' ++ digits ≠ [] :=
    List.append_ne_nil_of_right_ne_nil _ h.whole.nonempty
  refine ⟨['0'], List.replicate n '0' ++ digits, none, spells_point whole_zero hne ?_, Or.inl hne,
    magnitude_eq_of_point ?_ ?_⟩
  · intro c hc
    exact (List.mem_append.mp hc).elim isDigit_replicate_zero (h.whole.isDigit c)
  · rw [← h.value, ← decimalValue_zeros_append digits (n + 1)]
    rfl
  · rw [List.length_append, List.length_replicate, Option.getD_none]
    omega

theorem DigitsOf.one_with_exponent {d : Char} (h : DigitsOf s [d]) :
    SpellsDecimal (d :: 'e' :: exponentText s.exponent) s.value := by
  refine ⟨[d], [], some s.exponent, spells_exponent h.whole _, Or.inr (Option.some_ne_none _),
    magnitude_eq_of_point h.value ?_⟩
  rw [Option.getD_some, List.length_nil]
  omega

theorem DigitsOf.with_exponent {d e : Char} {more : List Char} (h : DigitsOf s (d :: e :: more)) :
    SpellsDecimal
      (d :: '.' :: e :: more ++ 'e' :: exponentText ((more.length + 1 : Nat) + s.exponent))
      s.value := by
  have hd : Whole [d] := h.whole.take h.head Nat.one_pos
  refine ⟨[d], e :: more, some _, spells_point_exponent hd (List.cons_ne_nil e more)
    (fun c hc => h.whole.isDigit c (List.mem_cons_of_mem _ hc)) _, Or.inl (List.cons_ne_nil _ _),
    magnitude_eq_of_point h.value ?_⟩
  rw [Option.getD_some, List.length_cons]
  omega

/-- Every layout of a decimal spells it. -/
theorem spellsDecimal_positive (style : Style) (hs : 0 < s.digits) :
    SpellsDecimal (style.positive s) s.value := by
  have h := digitsOf_toDigits hs
  rw [Style.positive]
  generalize Nat.toDigits 10 s.digits = digits at h ⊢
  split
  · split
    · next hexponent => exact h.padded hexponent
    · next hexponent =>
        split
        · next hpoint => exact h.parted (by omega) hpoint
        · next hpoint => exact h.below_one (by omega)
  · cases digits with
    | nil => exact absurd rfl h.whole.nonempty
    | cons d more =>
        cases more with
        | nil =>
            have he : (([d] : List Char).length : Int) + s.exponent - 1 = s.exponent := by
              rw [List.length_singleton]
              omega
            dsimp only
            rw [he]
            exact h.one_with_exponent
        | cons e more =>
            have he : ((d :: e :: more).length : Int) + s.exponent - 1 =
                (more.length + 1 : Nat) + s.exponent := by
              rw [List.length_cons, List.length_cons]
              omega
            dsimp only
            rw [he]
            exact h.with_exponent

end Layout

theorem spellsDecimal_zero : SpellsDecimal ['0', '.', '0'] 0 := by
  refine ⟨_, _, _, spells_point whole_zero (List.cons_ne_nil _ _) isDigit_singleton_zero,
    Or.inl (List.cons_ne_nil _ _), ?_⟩
  have hvalue : decimalValue (['0'] ++ ['0']) = 0 := rfl
  rw [Numeral.magnitude, hvalue, Nat.cast_zero, zero_mul]

/-- A finite number is read as it was printed. -/
theorem value_float {x : Binary64} (hfinite : x.isFinite) (hrest : Ends rest) (style : Style) :
    Value (style.text x ++ rest) (.float x) rest := by
  have hnearest := Decimal.nearest_shortest hfinite
  have hspells : SpellsDecimal
      (if x.significand = 0 then ['0', '.', '0'] else style.positive (shortest x))
      (shortest x).value := by
    split
    · next hzero =>
        have hvalue : (shortest x).value = 0 := by simp [shortest, hzero, Scientific.value]
        rw [hvalue]
        exact spellsDecimal_zero
    · next hzero => exact spellsDecimal_positive style (Decimal.digits_shortest_pos hzero)
  obtain ⟨whole, fraction, exponent, hspells, hsome, hmagnitude⟩ := hspells
  rw [← hmagnitude] at hnearest
  rw [Style.text]
  split
  · next hneg => exact .number (hspells.negative rest hrest) (.float hsome hnearest hneg)
  · next hpos => exact .number (hspells rest hrest) (.float hsome hnearest (by simpa using hpos))

end MetaRecord.Json.Grammar

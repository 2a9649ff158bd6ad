/-
# `MetaRecord.Proofs.Calendar.Distinct` — different instants have different texts

A date is found by dividing, and the divisor for the year is no exact one: the
days of an era are first stripped of its leap days, by an estimate of how many
there have been.  That the estimate is right is a matter of the days at which a
year begins, and there are four hundred of these.  Between them the year can
only grow, so they settle all the days (`firstDayOfYear_le`).

From there on everything has an inverse.  A date gives back its day
(`Date.toDays_ofDays`), a numeral of fixed width its number, and the fields of a
text stand at fixed places as long as the year has four digits.

Main statements: `Date.toDays_ofDays` and `Instant.text_injective`.
-/
import Mathlib.Order.Monotone.Basic
import MetaRecord.Calendar.Instant

namespace MetaRecord

namespace Calendar

/-! ## Years and months -/

theorem yearOfEra_monotone : Monotone yearOfEra := by
  refine monotone_nat_of_le_succ fun n => ?_
  unfold yearOfEra
  omega

/-- A year of an era begins on its first day and not before. -/
theorem yearOfEra_firstDay {y : Nat} (hy : y < 400) :
    y ≤ yearOfEra (firstDayOfYear y) ∧ (0 < y → yearOfEra (firstDayOfYear y - 1) < y) := by
  have hall : ∀ y < 400, y ≤ yearOfEra (firstDayOfYear y) ∧
      (0 < y → yearOfEra (firstDayOfYear y - 1) < y) := by decide +kernel
  exact hall y hy

section Era

variable {n : Nat}

theorem yearOfEra_lt (h : n < eraDays) : yearOfEra n < 400 := by
  have hlast : yearOfEra (eraDays - 1) = 399 := by decide
  have := yearOfEra_monotone (Nat.le_sub_one_of_lt h)
  omega

theorem firstDayOfYear_le (h : n < eraDays) : firstDayOfYear (yearOfEra n) ≤ n := by
  by_contra hlt
  have hpos : 0 < yearOfEra n := by
    refine Nat.pos_of_ne_zero fun hzero => hlt ?_
    rw [hzero]
    exact Nat.zero_le n
  have hbefore := (yearOfEra_firstDay (yearOfEra_lt h)).2 hpos
  have := yearOfEra_monotone (show n ≤ firstDayOfYear (yearOfEra n) - 1 by omega)
  omega

theorem lt_firstDayOfYear_add (h : n < eraDays) : n < firstDayOfYear (yearOfEra n) + 366 := by
  by_contra hge
  have hnext : firstDayOfYear (yearOfEra n + 1) ≤ firstDayOfYear (yearOfEra n) + 366 := by
    unfold firstDayOfYear
    omega
  -- The last year of an era ends with the era.
  have hy : yearOfEra n + 1 < 400 := by
    have hlt := yearOfEra_lt h
    by_contra hlast
    have hlast : yearOfEra n = 399 := by omega
    rw [hlast] at hge
    have : firstDayOfYear 399 + 366 = eraDays := by decide
    omega
  have hbegun := (yearOfEra_firstDay hy).1
  have := yearOfEra_monotone (show firstDayOfYear (yearOfEra n + 1) ≤ n by omega)
  omega

end Era

theorem monthOfYear_bounds {n : Nat} (h : n < 366) :
    monthOfYear n < 12 ∧ firstDayOfMonth (monthOfYear n) ≤ n ∧
      n < firstDayOfMonth (monthOfYear n) + 31 := by
  unfold monthOfYear firstDayOfMonth
  omega

/-! ## Dates -/

namespace Date

/-- The days from 1 January 1970 to a date. -/
def toDays (d : Date) : Int :=
  -- January and February close the year that began the March before.
  let year := if d.month < 3 then d.year - 1 else d.year
  let month := if d.month < 3 then d.month + 9 else d.month - 3
  year / 400 * eraDays + firstDayOfYear (year % 400).toNat + firstDayOfMonth month + d.day - 1
    - epochDay

/-- The parts from which a date is put together. -/
theorem exists_parts (days : Int) : ∃ (era : Int) (year month day : Nat),
    year < 400 ∧ month < 12 ∧ day < 31 ∧
    days + epochDay = era * eraDays + firstDayOfYear year + firstDayOfMonth month + day ∧
    ofDays days = if month < 10 then ⟨era * 400 + year, month + 3, day + 1⟩
      else ⟨era * 400 + year + 1, month - 9, day + 1⟩ := by
  have hera : ((days + epochDay) % eraDays).toNat < eraDays := by
    unfold eraDays
    omega
  have hyear := firstDayOfYear_le hera
  have hyear' := lt_firstDayOfYear_add hera
  obtain ⟨hmonth, hday, hday'⟩ := monthOfYear_bounds
    (show ((days + epochDay) % eraDays).toNat -
      firstDayOfYear (yearOfEra ((days + epochDay) % eraDays).toNat) < 366 by omega)
  refine ⟨(days + epochDay) / eraDays, _, _, _, yearOfEra_lt hera, hmonth, ?_, ?_, rfl⟩
  · omega
  · have := Int.mul_ediv_add_emod (days + epochDay) eraDays
    have : 0 ≤ (days + epochDay) % eraDays := Int.emod_nonneg _ (by decide)
    rw [Int.mul_comm]
    omega

/-- A date gives back its day. -/
theorem toDays_ofDays (days : Int) : (ofDays days).toDays = days := by
  obtain ⟨era, year, month, day, hyear, hmonth, -, hdays, hdate⟩ := exists_parts days
  have hera : (era * 400 + year) / 400 = era := by omega
  have hyear' : ((era * 400 + year) % 400).toNat = year := by omega
  rw [hdate]
  split
  · next hlt =>
      have hlate : ¬ month + 3 < 3 := by omega
      simp only [toDays, if_neg hlate, Nat.add_sub_cancel, hera, hyear']
      push_cast
      omega
  · next hge =>
      have hearly : month - 9 < 3 := by omega
      have hmonth' : month - 9 + 9 = month := by omega
      simp only [toDays, if_pos hearly, hmonth', Int.add_sub_cancel, hera, hyear']
      push_cast
      omega

theorem ofDays_bounds (days : Int) : (ofDays days).month ≤ 12 ∧ (ofDays days).day ≤ 31 := by
  obtain ⟨era, year, month, day, -, hmonth, hday, -, hdate⟩ := exists_parts days
  rw [hdate]
  split <;> exact ⟨by dsimp only; omega, hday⟩

/-- The first million days from 1970 on have years of four digits. -/
theorem year_ofDays {days : Int} (hlow : 0 ≤ days) (hhigh : days < 0x100000) :
    0 ≤ (ofDays days).year ∧ (ofDays days).year < 10000 := by
  obtain ⟨era, year, month, day, hyear, hmonth, hday, hdays, hdate⟩ := exists_parts days
  have hinside : firstDayOfYear year + firstDayOfMonth month + day < 2 * eraDays := by
    unfold firstDayOfYear firstDayOfMonth eraDays
    omega
  unfold eraDays epochDay at *
  rw [hdate]
  split <;> exact ⟨by dsimp only; omega, by dsimp only; omega⟩

end Date

end Calendar

/-! ## Texts -/

theorem Text.fixed_append_inj {width m n : Nat} {s t : List Char} (hm : m < Nat.pow 10 width)
    (hn : n < Nat.pow 10 width) (h : fixed width m ++ s = fixed width n ++ t) :
    m = n ∧ s = t := by
  obtain ⟨hfixed, hrest⟩ := List.append_inj h (by simp)
  refine ⟨?_, hrest⟩
  rw [← fixedValue_fixed width m hm, hfixed, fixedValue_fixed width n hn]

namespace Calendar.Instant

/-- The year has four digits, and the fraction is below a second. -/
structure IsPlain (t : Instant) : Prop where
  year_nonneg : 0 ≤ t.date.year
  year_lt : t.date.year < 10000
  nanos_lt : t.nanos < secondNanos

theorem isPlain_of_lt {seconds nanos : Nat} (hseconds : seconds < 0x400000000)
    (hnanos : nanos < secondNanos) : IsPlain ⟨seconds, nanos⟩ := by
  have hdays : 0 ≤ (seconds : Int) / daySeconds ∧ (seconds : Int) / daySeconds < 0x100000 := by
    unfold daySeconds
    omega
  obtain ⟨hlow, hhigh⟩ := Date.year_ofDays hdays.1 hdays.2
  exact ⟨hlow, hhigh, hnanos⟩

variable {t t' : Instant}

theorem IsPlain.ofUnix? (h : t.IsPlain) : ofUnix? t.seconds t.nanos = some t := by
  have hlow := h.year_nonneg
  have hhigh := h.year_lt
  have hnanos := h.nanos_lt
  have hdouble : ¬ 2 * secondNanos ≤ t.nanos := by omega
  have hleap : ¬ (secondNanos ≤ t.nanos ∧ t.seconds % 60 ≠ 59) := by omega
  have hyears : firstYear ≤ t.date.year ∧ t.date.year ≤ lastYear := by
    unfold firstYear lastYear
    omega
  rw [Instant.ofUnix?, if_neg hdouble, if_neg hleap, if_pos hyears]

/-- The fields of a text stand one after the other, with a mark between two. -/
theorem IsPlain.chars (h : t.IsPlain) :
    t.chars = Text.fixed 4 t.date.year.toNat ++ '-' :: (Text.fixed 2 t.date.month ++ '-' ::
      (Text.fixed 2 t.date.day ++ 'T' :: (Text.fixed 2 (t.secondOfDay / 3600) ++ ':' ::
      (Text.fixed 2 (t.secondOfDay / 60 % 60) ++ ':' :: (Text.fixed 2 (t.secondOfDay % 60) ++ '.' ::
      (Text.fixed 9 t.nanos ++ ['Z'])))))) := by
  have hleap : t.nanos / secondNanos = 0 := Nat.div_eq_of_lt h.nanos_lt
  have hnanos : t.nanos % secondNanos = t.nanos := Nat.mod_eq_of_lt h.nanos_lt
  rw [Instant.chars, yearText, if_pos ⟨h.year_nonneg, h.year_lt⟩, hleap, hnanos]
  simp only [List.append_assoc, List.cons_append, Nat.add_zero]

/-- The fields of a text fit their widths. -/
theorem IsPlain.fields_lt (h : t.IsPlain) :
    t.date.year.toNat < 10000 ∧ t.date.month < 100 ∧ t.date.day < 100 ∧
      t.secondOfDay / 3600 < 100 ∧ t.secondOfDay / 60 % 60 < 100 ∧ t.secondOfDay % 60 < 100 ∧
      t.nanos < 1000000000 := by
  have hyear := h.year_lt
  obtain ⟨hmonth, hday⟩ : t.date.month ≤ 12 ∧ t.date.day ≤ 31 := Date.ofDays_bounds _
  have hsecond : t.secondOfDay < 86400 := by
    unfold secondOfDay daySeconds
    omega
  exact ⟨by omega, by omega, by omega, by omega, by omega, by omega, h.nanos_lt⟩

theorem chars_injective (h : t.IsPlain) (h' : t'.IsPlain) (hchars : t.chars = t'.chars) :
    t = t' := by
  obtain ⟨hy, hmo, hd, hh, hmi, hs, hn⟩ := h.fields_lt
  obtain ⟨hy', hmo', hd', hh', hmi', hs', hn'⟩ := h'.fields_lt
  rw [h.chars, h'.chars] at hchars
  obtain ⟨hyear, hchars⟩ := Text.fixed_append_inj hy hy' hchars
  obtain ⟨hmonth, hchars⟩ := Text.fixed_append_inj hmo hmo' (List.cons.inj hchars).2
  obtain ⟨hday, hchars⟩ := Text.fixed_append_inj hd hd' (List.cons.inj hchars).2
  obtain ⟨hhour, hchars⟩ := Text.fixed_append_inj hh hh' (List.cons.inj hchars).2
  obtain ⟨hminute, hchars⟩ := Text.fixed_append_inj hmi hmi' (List.cons.inj hchars).2
  obtain ⟨hsecond, hchars⟩ := Text.fixed_append_inj hs hs' (List.cons.inj hchars).2
  obtain ⟨hnanos, -⟩ := Text.fixed_append_inj hn hn' (List.cons.inj hchars).2
  have hdate : t.date = t'.date := by
    have hlow := h.year_nonneg
    have hlow' := h'.year_nonneg
    have hyear : t.date.year = t'.date.year := by omega
    cases hdate : t.date
    cases hdate' : t'.date
    rw [hdate, hdate'] at hyear hmonth hday
    rw [Date.mk.injEq]
    exact ⟨hyear, hmonth, hday⟩
  have hdays : t.seconds / daySeconds = t'.seconds / daySeconds := by
    have hsame := congrArg Date.toDays hdate
    rwa [Instant.date, Instant.date, Date.toDays_ofDays, Date.toDays_ofDays] at hsame
  have hseconds : t.seconds = t'.seconds := by
    unfold secondOfDay daySeconds at *
    omega
  cases t
  cases t'
  rw [Instant.mk.injEq]
  exact ⟨hseconds, hnanos⟩

theorem text_injective (h : t.IsPlain) (h' : t'.IsPlain) (htext : t.text = t'.text) : t = t' :=
  chars_injective h h' (String.ofList_injective htext)

end Calendar.Instant

end MetaRecord

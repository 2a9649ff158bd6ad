/-
# `MetaRecord.Proofs.Document.Times` — one instant, one text

A time is an extension in one of four forms: MessagePack's own, with the seconds
alone, with both numbers packed into one word or with both in full, and the form
of stored metadata, which is the full one in the other order.  `EncodesTime`
lists the forms of an instant.  All of them are rendered as its text, and that
is the text of no other instant.

The numbers are cut out of the bytes and moved between integer types, and each
such move can fail for some argument: a slice may have another length than the
word that is made of it, a word may be too large for a narrower or a signed one.
`timeWords` takes the fields out in this way, word by word, and says none if a
move fails.  It never does.

Main statements: `timeFields_of_encodes`, `exists_timeWords`, and
`times_render_alike`.
-/
import Mathlib.Algebra.Group.Nat.Defs
import MetaRecord.Proofs.Calendar.Distinct
import MetaRecord.Proofs.Document.Agreement

namespace MetaRecord.Document

open Calendar (Instant)
open MessagePack MessagePack.Read

/-- The extensions that hold the instant `nanos` nanoseconds after `seconds`
seconds. -/
inductive EncodesTime (seconds nanos : Nat) : Extension → Prop
  /-- Thirty bits of nanoseconds above thirty-four bits of seconds. -/
  | packed : EncodesTime seconds nanos
      ⟨timestampTag, Bytes.ofNatBE 8 (nanos * 2 ^ 34 + seconds)⟩
  | full : EncodesTime seconds nanos
      ⟨timestampTag, Bytes.ofNatBE 4 nanos ++ Bytes.ofNatBE 8 seconds⟩
  | stored : EncodesTime seconds nanos
      ⟨storedTimeTag, Bytes.ofNatBE 8 seconds ++ Bytes.ofNatBE 4 nanos⟩
  | whole : nanos = 0 → seconds < 2 ^ 32 →
      EncodesTime seconds nanos ⟨timestampTag, Bytes.ofNatBE 4 seconds⟩

/-! ## The fields of a time -/

theorem timestampTag_ne : timestampTag ≠ storedTimeTag := by decide

theorem signed_eight {n : Nat} (h : n < 2 ^ 63) : signed 8 n = n := by
  have hn : 2 * n < Nat.pow 256 8 := by
    show 2 * n < 0x10000000000000000
    omega
  rw [signed, if_pos hn]

theorem timeFields_of_encodes {seconds nanos : Nat} {e : Extension}
    (h : EncodesTime seconds nanos e) (hseconds : seconds < 2 ^ 34) (hnanos : nanos < 10 ^ 9) :
    timeFields e = some ((seconds : Int), nanos) := by
  have hword : Bytes.toNatBE (Bytes.ofNatBE 8 seconds) = seconds :=
    Bytes.toNatBE_ofNatBE 8 seconds (Nat.lt_trans hseconds (by decide))
  have hhalf : Bytes.toNatBE (Bytes.ofNatBE 4 nanos) = nanos :=
    Bytes.toNatBE_ofNatBE 4 nanos (Nat.lt_trans hnanos (by decide))
  cases h with
  | packed =>
      have hpacked : nanos * 2 ^ 34 + seconds < Nat.pow 256 8 := by
        show _ < 0x10000000000000000
        omega
      simp only [timeFields, if_neg timestampTag_ne, if_true, Bytes.length_ofNatBE,
        Bytes.toNatBE_ofNatBE 8 _ hpacked]
      rw [Option.some.injEq, Prod.mk.injEq]
      exact ⟨by omega, by omega⟩
  | full =>
      simp [timeFields, timestampTag_ne, hword, hhalf, signed_eight (show seconds < 2 ^ 63 by omega)]
  | stored =>
      simp [timeFields, hword, hhalf, signed_eight (show seconds < 2 ^ 63 by omega)]
  | whole hzero hshort =>
      have hshort : seconds < Nat.pow 256 4 := hshort
      simp [timeFields, timestampTag_ne, Bytes.toNatBE_ofNatBE 4 seconds hshort, hzero]

/-! ## The fields as words -/

/-- The bytes as a word of 64 bits, if there are eight. -/
def word64? (bytes : Bytes) : Option UInt64 :=
  (FixedBytes.ofBytes? 8 bytes).map fun eight => UInt64.ofNat eight.bytes.toNatBE

/-- The bytes as a word of 32 bits, if there are four. -/
def word32? (bytes : Bytes) : Option UInt32 :=
  (FixedBytes.ofBytes? 4 bytes).map fun four => UInt32.ofNat four.bytes.toNatBE

/-- The same number in 32 bits, if it fits them. -/
def narrow? (v : UInt64) : Option UInt32 :=
  if v.toNat < 2 ^ 32 then some v.toUInt32 else none

/-- The same number as a signed one, if it fits. -/
def signed? (v : UInt64) : Option Int64 :=
  if v.toNat < 2 ^ 63 then some v.toInt64 else none

/-- The fields of an extension that is a time, as they are cut out and moved
from word to word.  There is no answer where one of these steps fails. -/
def timeWords (e : Extension) : Option (Option (Int64 × UInt32)) :=
  if e.tag = storedTimeTag ∧ e.data.length = 12 then do
    let seconds ← word64? (e.data.take 8)
    let nanos ← word32? (e.data.drop 8)
    return some (seconds.toInt64, nanos)
  else if e.tag = timestampTag ∧ e.data.length = 4 then do
    let seconds ← word32? e.data
    return some (seconds.toUInt64.toInt64, 0)
  else if e.tag = timestampTag ∧ e.data.length = 8 then do
    let v ← word64? e.data
    let nanos ← narrow? (v >>> 34)
    let seconds ← signed? (v &&& 0x3ffffffff)
    return some (seconds, nanos)
  else if e.tag = timestampTag ∧ e.data.length = 12 then do
    let nanos ← word32? (e.data.take 4)
    let seconds ← word64? (e.data.drop 4)
    return some (seconds.toInt64, nanos)
  else return none

theorem toInt_toInt64 (v : UInt64) : v.toInt64.toInt = signed 8 v.toNat := by
  show v.toBitVec.toInt = _
  rw [BitVec.toInt_eq_toNat_cond]
  rfl

theorem exists_word {α : Type} {ofNat : Nat → α} {toNat : α → Nat} {width : Nat} {bytes : Bytes}
    (hword : ∀ {n}, n < Nat.pow 256 width → toNat (ofNat n) = n) (h : bytes.length = width) :
    ∃ v, ((FixedBytes.ofBytes? width bytes).map fun word => ofNat word.bytes.toNatBE) = some v ∧
      toNat v = bytes.toNatBE := by
  have hlt : bytes.toNatBE < Nat.pow 256 width := by
    rw [← h]
    exact bytes.toNatBE_lt
  have hfixed : FixedBytes.ofBytes? width bytes = some ⟨bytes, h⟩ :=
    FixedBytes.ofBytes?_eq_some_iff.mpr rfl
  refine ⟨ofNat bytes.toNatBE, ?_, hword hlt⟩
  rw [hfixed, Option.map_some]

theorem exists_word64 {bytes : Bytes} (h : bytes.length = 8) :
    ∃ v, word64? bytes = some v ∧ v.toNat = bytes.toNatBE :=
  exists_word UInt64.toNat_ofNat_of_lt' h

theorem exists_word32 {bytes : Bytes} (h : bytes.length = 4) :
    ∃ v, word32? bytes = some v ∧ v.toNat = bytes.toNatBE :=
  exists_word UInt32.toNat_ofNat_of_lt' h

/-- The upper thirty bits of a word fit 32 bits. -/
theorem exists_narrow (v : UInt64) : ∃ n, narrow? (v >>> 34) = some n ∧ n.toNat = v.toNat / 2 ^ 34 := by
  have hv := v.toNat_lt
  have hshift : (v >>> 34).toNat = v.toNat / 2 ^ 34 := by
    rw [UInt64.toNat_shiftRight]
    exact Nat.shiftRight_eq_div_pow ..
  have hlt : (v >>> 34).toNat < 2 ^ 32 := by omega
  refine ⟨(v >>> 34).toUInt32, if_pos hlt, ?_⟩
  rw [UInt64.toNat_toUInt32, Nat.mod_eq_of_lt hlt, hshift]

/-- The lower thirty-four bits of a word fit as a signed number. -/
theorem exists_signed (v : UInt64) :
    ∃ s, signed? (v &&& 0x3ffffffff) = some s ∧ s.toInt = (v.toNat % 2 ^ 34 : Nat) := by
  have hmask : (v &&& 0x3ffffffff).toNat = v.toNat % 2 ^ 34 := by
    rw [UInt64.toNat_and]
    exact Nat.and_two_pow_sub_one_eq_mod v.toNat 34
  have hlt : (v &&& 0x3ffffffff).toNat < 2 ^ 63 := by omega
  refine ⟨_, if_pos hlt, ?_⟩
  rw [toInt_toInt64, signed_eight hlt, hmask]

/-- The fields that the words hold. -/
def fieldsOf (words : Int64 × UInt32) : Int × Nat := (words.1.toInt, words.2.toNat)

/-- Eight bytes and four make the fields, whichever of them come first. -/
theorem exists_wordPair {long short : Bytes} (hlong : long.length = 8) (hshort : short.length = 4) :
    ∃ s n, word64? long = some s ∧ word32? short = some n ∧
      fieldsOf (s.toInt64, n) = (signed 8 long.toNatBE, short.toNatBE) := by
  obtain ⟨s, hs, hs'⟩ := exists_word64 hlong
  obtain ⟨n, hn, hn'⟩ := exists_word32 hshort
  refine ⟨s, n, hs, hn, ?_⟩
  rw [fieldsOf, toInt_toInt64, hs', hn']

section Extension

variable {e : Extension}

theorem exists_timeWords_stored (htag : e.tag = storedTimeTag) :
    ∃ words, timeWords e = some words ∧ words.map fieldsOf = timeFields e := by
  by_cases hlen : e.data.length = 12
  · obtain ⟨s, n, hs, hn, hfields⟩ := exists_wordPair
      (show (e.data.take 8).length = 8 by simp [hlen])
      (show (e.data.drop 8).length = 4 by simp [hlen])
    refine ⟨some (s.toInt64, n), ?_, ?_⟩
    · simp [timeWords, htag, hlen, hs, hn]
    · simp [timeFields, htag, hlen, hfields]
  · refine ⟨none, ?_, ?_⟩
    · simp [timeWords, htag, hlen, timestampTag_ne.symm]
    · simp [timeFields, htag, hlen]

theorem exists_timeWords_timestamp (htag : e.tag = timestampTag) :
    ∃ words, timeWords e = some words ∧ words.map fieldsOf = timeFields e := by
  obtain hlen | hlen | hlen | ⟨h4, h8, h12⟩ : e.data.length = 4 ∨ e.data.length = 8 ∨
      e.data.length = 12 ∨ e.data.length ≠ 4 ∧ e.data.length ≠ 8 ∧ e.data.length ≠ 12 := by
    omega
  · obtain ⟨s, hs, hs'⟩ := exists_word32 hlen
    have hlt := s.toNat_lt
    refine ⟨some (s.toUInt64.toInt64, 0), ?_, ?_⟩
    · simp [timeWords, htag, timestampTag_ne, hlen, hs]
    · simp [timeFields, fieldsOf, htag, timestampTag_ne, hlen, toInt_toInt64, ← hs',
        signed_eight (show s.toNat < 2 ^ 63 by omega)]
  · obtain ⟨v, hv, hv'⟩ := exists_word64 hlen
    obtain ⟨n, hn, hn'⟩ := exists_narrow v
    obtain ⟨s, hs, hs'⟩ := exists_signed v
    refine ⟨some (s, n), ?_, ?_⟩
    · simp [timeWords, htag, timestampTag_ne, hlen, hv, hn, hs]
    · simp [timeFields, fieldsOf, htag, timestampTag_ne, hlen, hs', hn', hv']
  · obtain ⟨s, n, hs, hn, hfields⟩ := exists_wordPair
      (show (e.data.drop 4).length = 8 by simp [hlen])
      (show (e.data.take 4).length = 4 by simp [hlen])
    refine ⟨some (s.toInt64, n), ?_, ?_⟩
    · simp [timeWords, htag, timestampTag_ne, hlen, hs, hn]
    · simp [timeFields, htag, timestampTag_ne, hlen, hfields]
  · refine ⟨none, ?_, ?_⟩
    · simp [timeWords, htag, timestampTag_ne, h4, h8, h12]
    · simp [timeFields, htag, timestampTag_ne]

end Extension

/-- Every step succeeds, and the words hold the fields. -/
theorem exists_timeWords (e : Extension) :
    ∃ words, timeWords e = some words ∧ words.map fieldsOf = timeFields e := by
  by_cases hstored : e.tag = storedTimeTag
  · exact exists_timeWords_stored hstored
  · by_cases htag : e.tag = timestampTag
    · exact exists_timeWords_timestamp htag
    · refine ⟨none, ?_, ?_⟩
      · simp [timeWords, hstored, htag]
      · simp [timeFields, hstored, htag]

/-! ## Rendering -/

theorem extension_of_encodes {seconds nanos : Nat} {e : Extension}
    (h : EncodesTime seconds nanos e) (hseconds : seconds < 2 ^ 34) (hnanos : nanos < 10 ^ 9) :
    extension e = .str (Instant.text ⟨seconds, nanos⟩) := by
  have hplain : Instant.IsPlain ⟨seconds, nanos⟩ := Instant.isPlain_of_lt hseconds hnanos
  rw [extension, timeFields_of_encodes h hseconds hnanos, Option.bind_some]
  simp only [hplain.ofUnix?]

/-- An extension is rendered alike behind every header that announces it. -/
theorem render_extension (e : Extension) {p : Bytes} (hp : Opens .ext e.data.length p)
    (rest : Bytes) :
    render (p ++ e.tag.toUInt8 :: (e.data ++ rest)) = .ok (extension e, rest) := by
  have hread : Read.extension (p ++ e.tag.toUInt8 :: (e.data ++ rest)) = .ok (e, rest) := by
    rw [extension_eq, opened_of_opens hp, extensionBody, byte_bind]
    refine bind_eq_ok_iff.mpr ⟨e.data, rest, take_append e.data rest, ?_⟩
    rw [Int8.toInt8_toUInt8]
    rfl
  rw [render, value_of_opens hp]
  exact bind_eq_ok_iff.mpr ⟨e, rest, hread, rfl⟩

/-- **All forms of an instant are rendered as its text, and no other instant
is.**  This holds of the instants of thirty-four bits of seconds, and whatever
an extension holds, no step in taking its fields out fails. -/
theorem times_render_alike :
    (∀ {seconds nanos : Nat} {e : Extension}, seconds < 2 ^ 34 → nanos < 10 ^ 9 →
      EncodesTime seconds nanos e →
      extension e = .str (Instant.text ⟨seconds, nanos⟩) ∧
      ∀ p rest, Opens .ext e.data.length p →
        render (p ++ e.tag.toUInt8 :: (e.data ++ rest)) =
          .ok (.str (Instant.text ⟨seconds, nanos⟩), rest)) ∧
    (∀ {seconds nanos seconds' nanos' : Nat}, seconds < 2 ^ 34 → nanos < 10 ^ 9 →
      seconds' < 2 ^ 34 → nanos' < 10 ^ 9 →
      (Instant.text ⟨seconds, nanos⟩ = Instant.text ⟨seconds', nanos'⟩ ↔
        seconds = seconds' ∧ nanos = nanos')) ∧
    ∀ e, ∃ words, timeWords e = some words ∧ words.map fieldsOf = timeFields e := by
  refine ⟨fun hseconds hnanos h => ⟨extension_of_encodes h hseconds hnanos, fun p rest hp => ?_⟩,
    fun hseconds hnanos hseconds' hnanos' => ⟨fun htext => ?_, ?_⟩, exists_timeWords⟩
  · rw [render_extension _ hp, extension_of_encodes h hseconds hnanos]
  · have hsame := Instant.text_injective (Instant.isPlain_of_lt hseconds hnanos)
      (Instant.isPlain_of_lt hseconds' hnanos') htext
    rw [Instant.mk.injEq, Int.natCast_inj] at hsame
    exact hsame
  · rintro ⟨rfl, rfl⟩
    rfl

/-- An instant packed into a word, and in stored metadata behind a header; a
nanosecond later the text is another. -/
theorem times_render_alike_nanosecond :
    let seconds := 1700000000
    let shown := "2023-11-14T22:13:20.000000005Z"
    seconds < 2 ^ 34 ∧ 5 < 10 ^ 9 ∧ 6 < 10 ^ 9 ∧
      extension ⟨timestampTag, Bytes.ofNatBE 8 (5 * 2 ^ 34 + seconds)⟩ = .str shown ∧
      render ([0xc7, 12, 5] ++ Bytes.ofNatBE 8 seconds ++ Bytes.ofNatBE 4 5 ++ [7]) =
        .ok (.str shown, [7]) ∧
      Instant.text ⟨seconds, 6⟩ ≠ shown := by
  intro seconds shown
  have hseconds : seconds < 2 ^ 34 := by decide
  have hshown : Instant.text ⟨seconds, 5⟩ = shown := by decide
  obtain ⟨hforms, hdistinct, -⟩ := times_render_alike
  have hpacked := (hforms hseconds (by decide : 5 < 10 ^ 9) .packed).1
  have hstored := (hforms hseconds (by decide : 5 < 10 ^ 9) .stored).2
    (Write.sized 0xc7 1 12) [7] (.behind (by decide) (by decide))
  rw [hshown] at hpacked hstored
  refine ⟨hseconds, by decide, by decide, hpacked, hstored, ?_⟩
  rw [← hshown, Ne, hdistinct hseconds (by decide) hseconds (by decide)]
  decide

end MetaRecord.Document

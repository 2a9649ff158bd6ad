/-
# `MetaRecord.Proofs.Record.Preamble` — which openings are recognised

The opening of a record is eight bytes, and there are three ways it can turn
out, which are told apart in this order: nothing follows the eight bytes, they
do not start with the magic, or they are an opening.  Writing the version that
was found in front of the payload gives the record back, with one exception.
The sentinel is the bytes of a version as well, and whoever reads them finds
version 1.0.

Main statements: `parse_cases`, and `parse_eq_ok_iff` and `parse_eq_error_iff`
on what the buffer is like; `opening_codec`, which puts them together with the
way back and with the refusal of newer versions.
-/
import MetaRecord.Proofs.Outcome
import MetaRecord.Record.Preamble

namespace MetaRecord

open FormatVersion (sentinel)

/-! ## Versions and their bytes -/

namespace FormatVersion

variable {a b c d : UInt8} {v : FormatVersion}

theorem bytes_eq (v : FormatVersion) : v.bytes = magic ++ v.versionBytes := rfl

theorem ofVersionBytes_of_eq (h : [a, b, c, d] = sentinel) : ofVersionBytes a b c d = legacy :=
  if_pos h

/-- Four bytes other than the sentinel are those of the version that is read
from them. -/
theorem versionBytes_ofVersionBytes (h : [a, b, c, d] ≠ sentinel) :
    (ofVersionBytes a b c d).versionBytes = [a, b, c, d] := by
  rw [ofVersionBytes, if_neg h, versionBytes, Bytes.ofUInt16LE_toUInt16LE,
    Bytes.ofUInt16LE_toUInt16LE]
  rfl

theorem ofVersionBytes_eq_of_versionBytes (h : v.versionBytes = [a, b, c, d])
    (hne : [a, b, c, d] ≠ sentinel) : ofVersionBytes a b c d = v := by
  have hback := Preamble.ofVersionBytes_versionBytes v (h ▸ hne)
  obtain ⟨rfl, rfl, rfl, rfl⟩ : _ = a ∧ _ = b ∧ _ = c ∧ _ = d := by
    simpa [versionBytes, Bytes.ofUInt16LE] using h
  exact hback

/-- The version that the sentinel spells is not the one it stands for. -/
theorem ne_legacy_of_versionBytes (h : v.versionBytes = sentinel) : v ≠ legacy := by
  rintro rfl
  exact absurd h (by decide)

end FormatVersion

namespace Preamble

/-! ## Recognising an opening -/

theorem parse_of_length_le {buf : Bytes} (h : buf.length ≤ 8) :
    parse buf = .error (.tooShort buf.length) := by
  match buf, h with
  | [], _ | [_], _ | [_, _], _ | [_, _, _], _ | [_, _, _, _], _ | [_, _, _, _, _], _
  | [_, _, _, _, _, _], _ | [_, _, _, _, _, _, _], _ | [_, _, _, _, _, _, _, _], _ => rfl
  | _ :: _ :: _ :: _ :: _ :: _ :: _ :: _ :: _ :: _, h =>
      simp only [List.length_cons] at h
      omega

/-- A buffer that is long enough is four bytes, four version bytes and a
payload. -/
theorem exists_parts {buf : Bytes} (h : 8 < buf.length) :
    ∃ (front : FixedBytes 4) (a b c d : UInt8) (payload : Bytes),
      payload ≠ [] ∧ buf = front.bytes ++ [a, b, c, d] ++ payload := by
  match buf, h with
  | m₁ :: m₂ :: m₃ :: m₄ :: a :: b :: c :: d :: p :: payload, _ =>
      exact ⟨⟨[m₁, m₂, m₃, m₄], rfl⟩, a, b, c, d, p :: payload, by simp, rfl⟩

theorem parse_parts {front : FixedBytes 4} {a b c d : UInt8} {payload : Bytes}
    (h : payload ≠ []) :
    parse (front.bytes ++ [a, b, c, d] ++ payload) =
      if front.bytes = FormatVersion.magic then
        .ok ⟨FormatVersion.ofVersionBytes a b c d, payload⟩
      else .error (.badMagic front) := by
  obtain ⟨p, payload, rfl⟩ := List.exists_cons_of_ne_nil h
  obtain ⟨bytes, hbytes⟩ := front
  match bytes, hbytes with
  | [_, _, _, _], _ => rfl

/-- The three ways an opening can turn out. -/
theorem parse_cases (buf : Bytes) :
    (buf.length ≤ 8 ∧ parse buf = .error (.tooShort buf.length)) ∨
    (∃ (front : FixedBytes 4) (rest : Bytes), 4 < rest.length ∧ buf = front.bytes ++ rest ∧
      front.bytes ≠ FormatVersion.magic ∧ parse buf = .error (.badMagic front)) ∨
    ∃ (a b c d : UInt8) (payload : Bytes), payload ≠ [] ∧
      buf = FormatVersion.magic ++ [a, b, c, d] ++ payload ∧
      parse buf = .ok ⟨FormatVersion.ofVersionBytes a b c d, payload⟩ := by
  rcases Nat.lt_or_ge 8 buf.length with hlong | hshort
  · obtain ⟨front, a, b, c, d, payload, hne, rfl⟩ := exists_parts hlong
    rw [parse_parts hne]
    by_cases hmagic : front.bytes = FormatVersion.magic
    · refine Or.inr (Or.inr ⟨a, b, c, d, payload, hne, ?_, if_pos hmagic⟩)
      rw [hmagic]
    · refine Or.inr (Or.inl ⟨front, [a, b, c, d] ++ payload, ?_, ?_, hmagic, if_neg hmagic⟩)
      · simpa using List.length_pos_of_ne_nil hne
      · rw [List.append_assoc]
  · exact Or.inl ⟨hshort, parse_of_length_le hshort⟩

/-- The version and the payload of a buffer that opens as a record. -/
structure Opens (buf : Bytes) (p : Preamble) : Prop where
  long : 8 < buf.length
  magic : FormatVersion.magic <+: buf
  payload : p.payload = buf.drop 8
  version : if (buf.drop 4).take 4 = sentinel then p.version = .legacy
    else p.version.bytes ++ p.payload = buf

theorem length_parts (a b c d : UInt8) (payload : Bytes) :
    (FormatVersion.magic ++ [a, b, c, d] ++ payload).length = 8 + payload.length :=
  List.length_append

theorem opens_parts {a b c d : UInt8} {payload : Bytes} {p : Preamble} (hne : payload ≠ []) :
    Opens (FormatVersion.magic ++ [a, b, c, d] ++ payload) p ↔
      p = ⟨FormatVersion.ofVersionBytes a b c d, payload⟩ := by
  have hbytes : ((FormatVersion.magic ++ [a, b, c, d] ++ payload).drop 4).take 4 = [a, b, c, d] :=
    rfl
  have hpayload : (FormatVersion.magic ++ [a, b, c, d] ++ payload).drop 8 = payload := rfl
  constructor
  · rintro ⟨-, -, hdrop, hversion⟩
    obtain ⟨version, payload'⟩ := p
    obtain rfl : payload' = payload := hdrop
    rw [hbytes] at hversion
    split at hversion
    · next hsentinel =>
        obtain rfl : version = .legacy := hversion
        rw [FormatVersion.ofVersionBytes_of_eq hsentinel]
    · next hsentinel =>
        have hversion := List.append_cancel_right hversion
        rw [FormatVersion.bytes_eq, List.append_cancel_left_eq] at hversion
        rw [FormatVersion.ofVersionBytes_eq_of_versionBytes hversion hsentinel]
  · rintro rfl
    refine ⟨?_, ?_, rfl, ?_⟩
    · rw [length_parts]
      exact Nat.lt_add_of_pos_right (List.length_pos_of_ne_nil hne)
    · rw [List.append_assoc]
      exact List.prefix_append _ _
    · rw [hbytes]
      split
      · next hsentinel => exact FormatVersion.ofVersionBytes_of_eq hsentinel
      · next hsentinel =>
          rw [FormatVersion.bytes_eq, FormatVersion.versionBytes_ofVersionBytes hsentinel]

theorem parse_eq_ok_iff {buf : Bytes} {p : Preamble} : parse buf = .ok p ↔ Opens buf p := by
  rcases parse_cases buf with ⟨hshort, h⟩ | ⟨front, rest, hlong, rfl, hmagic, h⟩ |
    ⟨a, b, c, d, payload, hne, rfl, h⟩
  · rw [h]
    exact ⟨nofun, fun hopens => absurd hopens.long (Nat.not_lt.mpr hshort)⟩
  · rw [h]
    refine ⟨nofun, fun hopens => absurd ?_ hmagic⟩
    have hfront := List.prefix_iff_eq_take.mp hopens.magic
    rw [hfront]
    exact (List.take_left' front.length_eq).symm
  · rw [h, opens_parts hne, Except.ok.injEq, eq_comm]

theorem exists_opens_iff {buf : Bytes} :
    (∃ p, Opens buf p) ↔ 8 < buf.length ∧ FormatVersion.magic <+: buf := by
  constructor
  · rintro ⟨p, h⟩
    exact ⟨h.long, h.magic⟩
  · rintro ⟨hlong, hmagic⟩
    obtain ⟨front, a, b, c, d, payload, hne, rfl⟩ := exists_parts hlong
    have hfront : FormatVersion.magic = front.bytes := by
      rw [List.append_assoc] at hmagic
      rw [List.prefix_iff_eq_take.mp hmagic]
      exact List.take_left' front.length_eq
    rw [← hfront]
    exact ⟨_, (opens_parts hne).mpr rfl⟩

/-- A buffer that is too short is refused for that, whatever it starts with. -/
theorem parse_eq_error_iff {buf : Bytes} {e : DecodeError} :
    parse buf = .error e ↔
      buf.length ≤ 8 ∧ e = .tooShort buf.length ∨
      8 < buf.length ∧ ∃ front : FixedBytes 4, front.bytes = buf.take 4 ∧
        front.bytes ≠ FormatVersion.magic ∧ e = .badMagic front := by
  rcases parse_cases buf with ⟨hshort, h⟩ | ⟨front, rest, hlong, rfl, hmagic, h⟩ |
    ⟨a, b, c, d, payload, hne, rfl, h⟩
  · have hnot := Nat.not_lt.mpr hshort
    simp only [h, Except.error.injEq, hshort, hnot, true_and, false_and, or_false]
    exact eq_comm
  · have hlen : 8 < (front.bytes ++ rest).length := by
      rw [List.length_append, front.length_eq]
      omega
    have htake : (front.bytes ++ rest).take 4 = front.bytes := List.take_left' front.length_eq
    simp only [h, Except.error.injEq, hlen, Nat.not_le.mpr hlen, htake, true_and, false_and,
      false_or]
    constructor
    · rintro rfl
      exact ⟨front, rfl, hmagic, rfl⟩
    · rintro ⟨front', hfront, -, rfl⟩
      rw [FixedBytes.ext hfront]
  · rw [h]
    refine ⟨nofun, ?_⟩
    rintro (⟨hshort, -⟩ | ⟨-, front, hfront, hmagic, -⟩)
    · rw [length_parts] at hshort
      have := List.length_pos_of_ne_nil hne
      omega
    · exact absurd hfront hmagic

/-! ## Writing an opening -/

/-- A version is read back from its bytes in front of a payload, unless they
are the sentinel. -/
theorem parse_bytes_append_iff {v : FormatVersion} {payload : Bytes} :
    parse (v.bytes ++ payload) = .ok ⟨v, payload⟩ ↔ v.versionBytes ≠ sentinel ∧ payload ≠ [] := by
  constructor
  · intro h
    have hopens := parse_eq_ok_iff.mp h
    have hne : payload ≠ [] := by
      rintro rfl
      exact absurd hopens.long (Nat.lt_irrefl 8)
    refine ⟨fun hsentinel => ?_, hne⟩
    have hversion := hopens.version
    rw [if_pos (by rw [FormatVersion.bytes_eq, hsentinel]; rfl)] at hversion
    exact FormatVersion.ne_legacy_of_versionBytes hsentinel hversion
  · rintro ⟨hsentinel, hne⟩
    obtain ⟨p, payload, rfl⟩ := List.exists_cons_of_ne_nil hne
    exact parse_bytes_append v p payload hsentinel

/-! ## Newer versions -/

theorem checkMajor_cases (p : Preamble) :
    (p.version.major ≤ 1 ∧ p.checkMajor = .ok ()) ∨
    (1 < p.version.major ∧ p.checkMajor = .error (.unsupportedMajor p.version.major 1)) := by
  rcases Decidable.em (1 < p.version.major) with hnewer | hknown
  · exact Or.inr ⟨hnewer, if_pos hnewer⟩
  · exact Or.inl ⟨UInt16.not_lt.mp hknown, if_neg hknown⟩

theorem validate_eq_ok_iff {buf : Bytes} {p : Preamble} :
    validate buf = .ok p ↔ parse buf = .ok p ∧ p.version.major ≤ 1 := by
  rw [validate, bind_eq_ok]
  constructor
  · rintro ⟨q, hparse, h⟩
    obtain ⟨⟨⟩, hcheck, hpure⟩ := bind_eq_ok.mp h
    obtain rfl := Except.ok.inj hpure
    rcases q.checkMajor_cases with ⟨hknown, -⟩ | ⟨-, hrefused⟩
    · exact ⟨hparse, hknown⟩
    · exact nomatch hcheck.symm.trans hrefused
  · rintro ⟨hparse, hknown⟩
    refine ⟨p, hparse, ?_⟩
    rcases p.checkMajor_cases with ⟨-, haccepted⟩ | ⟨hnewer, -⟩
    · rw [haccepted]
      rfl
    · exact absurd hknown (UInt16.not_le.mpr hnewer)

theorem validate_eq_error_iff {buf : Bytes} {e : DecodeError} :
    validate buf = .error e ↔ parse buf = .error e ∨
      ∃ p, parse buf = .ok p ∧ 1 < p.version.major ∧
        e = .unsupportedMajor p.version.major 1 := by
  rw [validate, bind_eq_error]
  refine or_congr Iff.rfl (exists_congr fun p => and_congr_right fun _ => ?_)
  rcases p.checkMajor_cases with ⟨hknown, haccepted⟩ | ⟨hnewer, hrefused⟩
  · rw [haccepted, ok_bind]
    exact ⟨nofun, fun h => absurd hknown (UInt16.not_le.mpr h.1)⟩
  · rw [hrefused, error_bind, Except.error.injEq, and_iff_right hnewer]
    exact eq_comm

/-- **Openings are read and written alike.**  A buffer is recognised exactly when
it is longer than eight bytes and starts with the magic; its payload is what
follows the eight bytes, and its version in front of that is the buffer again,
unless the version bytes are the sentinel, which stands for version 1.0.  A
version in front of a payload is read back exactly when its bytes are not the
sentinel and the payload is not empty.  Validating a buffer gives what
recognising it gives, but for a major version above 1, which is refused. -/
theorem opening_codec :
    (∀ buf, (∃ p, parse buf = .ok p) ↔ 8 < buf.length ∧ FormatVersion.magic <+: buf) ∧
    (∀ buf p, parse buf = .ok p ↔ Opens buf p) ∧
    (∀ buf e, parse buf = .error e ↔
      buf.length ≤ 8 ∧ e = .tooShort buf.length ∨
      8 < buf.length ∧ ∃ front : FixedBytes 4, front.bytes = buf.take 4 ∧
        front.bytes ≠ FormatVersion.magic ∧ e = .badMagic front) ∧
    (∀ (v : FormatVersion) payload, parse (v.bytes ++ payload) = .ok ⟨v, payload⟩ ↔
      v.versionBytes ≠ sentinel ∧ payload ≠ []) ∧
    (∀ buf p, validate buf = .ok p ↔ parse buf = .ok p ∧ p.version.major ≤ 1) ∧
    ∀ buf e, validate buf = .error e ↔ parse buf = .error e ∨
      ∃ p, parse buf = .ok p ∧ 1 < p.version.major ∧
        e = .unsupportedMajor p.version.major 1 := by
  refine ⟨fun buf => ?_, fun _ _ => parse_eq_ok_iff, fun _ _ => parse_eq_error_iff,
    fun _ _ => parse_bytes_append_iff, fun _ _ => validate_eq_ok_iff,
    fun _ _ => validate_eq_error_iff⟩
  rw [← exists_opens_iff]
  exact exists_congr fun p => parse_eq_ok_iff

/-- The version that shares its bytes with the sentinel is read as 1.0. -/
example : parse ((⟨0x2031, 0x2020⟩ : FormatVersion).bytes ++ [0xc0]) = .ok ⟨.legacy, [0xc0]⟩ := rfl

end Preamble

end MetaRecord

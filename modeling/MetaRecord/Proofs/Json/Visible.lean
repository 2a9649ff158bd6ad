/-
# `MetaRecord.Proofs.Json.Visible` — a compact text is one line

A compact text is made of quoted texts, numbers, names and brackets.  None of
them has a control character in it: quoting escapes those, and the others have
none to begin with.  This goes for every value, one whose numbers are not finite
among them.  In UTF-8 a byte below 128 is a character of its own, so the bytes of
the text have no line break either.

Main statement: `not_mem_utf8_compact`.
-/
import MetaRecord.Json.Printer
import MetaRecord.Proofs.Json.Numbers
import MetaRecord.Text.Utf8

namespace MetaRecord.Text

theorem utf8_eq (s : String) : utf8 s = s.toList.flatMap String.utf8EncodeChar := by
  rw [utf8, ← String.utf8Encode_toList, List.utf8Encode, List.data_toByteArray]

/-- A byte of a character is its number, or stands for more than it. -/
theorem toNat_of_mem_utf8EncodeChar {c : Char} {b : UInt8} (h : b ∈ String.utf8EncodeChar c) :
    b.toNat = c.toNat ∨ 0x80 ≤ b.toNat := by
  have hc : c.val.toNat = c.toNat := rfl
  unfold String.utf8EncodeChar at h
  simp only [hc] at h
  split at h
  · left
    rw [List.mem_singleton.mp h, UInt8.toNat_ofNat']
    omega
  · right
    split at h
    · simp only [List.mem_cons, List.not_mem_nil, or_false] at h
      rcases h with rfl | rfl <;> rw [UInt8.toNat_ofNat'] <;> omega
    · split at h
      · simp only [List.mem_cons, List.not_mem_nil, or_false] at h
        rcases h with rfl | rfl | rfl <;> rw [UInt8.toNat_ofNat'] <;> omega
      · simp only [List.mem_cons, List.not_mem_nil, or_false] at h
        rcases h with rfl | rfl | rfl | rfl <;> rw [UInt8.toNat_ofNat'] <;> omega

theorem exists_mem_toList {s : String} {b : UInt8} (h : b ∈ utf8 s) (hb : b.toNat < 0x80) :
    ∃ c ∈ s.toList, c.toNat = b.toNat := by
  rw [utf8_eq, List.mem_flatMap] at h
  obtain ⟨c, hc, h⟩ := h
  rcases toNat_of_mem_utf8EncodeChar h with heq | hge
  · exact ⟨c, hc, heq.symm⟩
  · omega

end MetaRecord.Text

namespace MetaRecord.Json

open Decimal (Style exponentText)

/-- No character of the text is a control character. -/
def Visible (t : List Char) : Prop := ∀ c ∈ t, 0x20 ≤ c.toNat

instance (t : List Char) : Decidable (Visible t) := List.decidableBAll _ t

/-! ## Putting texts together -/

namespace Visible

variable {s t : List Char} {c : Char}

theorem cons (hc : 0x20 ≤ c.toNat) (h : Visible t) : Visible (c :: t) :=
  List.forall_mem_cons.mpr ⟨hc, h⟩

theorem append (hs : Visible s) (ht : Visible t) : Visible (s ++ t) :=
  List.forall_mem_append.mpr ⟨hs, ht⟩

theorem sublist (ht : Visible t) (h : s.Sublist t) : Visible s :=
  fun c hc => ht c (h.subset hc)

theorem replicate (n : Nat) (hc : 0x20 ≤ c.toNat) : Visible (List.replicate n c) := by
  intro d hd
  rwa [List.eq_of_mem_replicate hd]

end Visible

/-! ## Numbers -/

theorem visible_toDigits (n : Nat) : Visible (Nat.toDigits 10 n) := by
  intro c hc
  have hdigit := Char.isDigit_iff_toNat.mp (Grammar.isDigit_toDigits hc)
  exact le_trans (by decide) hdigit.1

theorem visible_signedDecimal (n : Int) : Visible (Text.signedDecimal n) := by
  rw [Text.signedDecimal]
  split
  · exact .cons (by decide) (visible_toDigits _)
  · exact visible_toDigits _

theorem visible_exponentText (e : Int) : Visible (exponentText e) := by
  rw [exponentText]
  split
  · exact .cons (by decide) (visible_toDigits _)
  · exact .cons (by decide) (visible_toDigits _)

theorem visible_positive (style : Style) (s : Decimal.Scientific) : Visible (style.positive s) := by
  have hdigits := visible_toDigits s.digits
  rw [Style.positive]
  generalize Nat.toDigits 10 s.digits = digits at hdigits ⊢
  have hzeros (n : Nat) : Visible (List.replicate n '0') := .replicate n (by decide)
  have hexponent (e : Int) : Visible ('e' :: exponentText e) :=
    .cons (by decide) (visible_exponentText e)
  split
  · split
    · exact (hdigits.append (hzeros _)).append (by decide)
    · split
      · exact (hdigits.sublist (List.take_sublist ..)).append
          (.cons (by decide) (hdigits.sublist (List.drop_sublist ..)))
      · exact .cons (by decide) (.cons (by decide) ((hzeros _).append hdigits))
  · cases digits with
    | nil => exact hdigits
    | cons d more =>
        obtain ⟨hd, hmore⟩ := List.forall_mem_cons.mp hdigits
        cases more with
        | nil => exact .cons hd (hexponent _)
        | cons e more => exact .cons hd (.cons (by decide) (.append hmore (hexponent _)))

theorem visible_text (style : Style) (x : Decimal.Binary64) : Visible (style.text x) := by
  have hmagnitude : Visible
      (if x.significand = 0 then ['0', '.', '0'] else style.positive (Decimal.shortest x)) := by
    split
    · decide
    · exact visible_positive style _
  rw [Style.text]
  split
  · exact .cons (by decide) hmagnitude
  · exact hmagnitude

/-! ## Quoted texts -/

theorem visible_fixedHex (width n : Nat) : Visible (Text.fixedHex width n) := by
  induction width generalizing n with
  | zero => exact List.forall_mem_nil _
  | succ width ih =>
      have hdigit : ∀ k < 16, Visible [Bytes.hexDigit k] := by decide
      rw [Text.fixedHex]
      exact (ih _).append (hdigit _ (Nat.mod_lt _ (by decide)))

theorem visible_escape (c : Char) : Visible (escape c) := by
  unfold escape
  split
  case h_8 =>
    split
    · exact .cons (by decide) (.cons (by decide) (visible_fixedHex 4 _))
    · next hshown => exact List.forall_mem_singleton.mpr (Nat.le_of_not_lt hshown)
  all_goals decide

theorem visible_quoted (s : String) : Visible (quoted s) := by
  have hinside : Visible (s.toList.flatMap escape) := by
    intro c hc
    obtain ⟨d, -, hc⟩ := List.mem_flatMap.mp hc
    exact visible_escape d c hc
  exact .append (.cons (by decide) hinside) (by decide)

/-! ## Values -/

theorem visible_scalarChars (v : Json) : Visible (scalarChars v) := by
  unfold scalarChars
  split
  · decide
  · decide
  · exact visible_signedDecimal _
  · exact visible_text _ _
  · exact visible_quoted _
  · decide

mutual

theorem visible_compactChars : ∀ v : Json, Visible v.compactChars
  | .arr items => by
      rw [compactChars]
      exact .append (.cons (by decide) (visible_compactItems items)) (by decide)
  | .obj members => by
      rw [compactChars]
      exact .append (.cons (by decide) (visible_compactMembers members)) (by decide)
  | .null => visible_scalarChars .null
  | .bool b => visible_scalarChars (.bool b)
  | .int n => visible_scalarChars (.int n)
  | .float x => visible_scalarChars (.float x)
  | .str s => visible_scalarChars (.str s)

theorem visible_compactItems : ∀ items : List Json, Visible (compactItems items)
  | [] => by decide
  | [item] => by
      rw [compactItems]
      exact visible_compactChars item
  | item :: next :: rest => by
      rw [compactItems]
      · exact .append (visible_compactChars item)
          (.cons (by decide) (visible_compactItems (next :: rest)))
      · exact List.cons_ne_nil _ _

theorem visible_compactMembers : ∀ members : List (String × Json), Visible (compactMembers members)
  | [] => by decide
  | [(name, value)] => by
      rw [compactMembers]
      exact .append (visible_quoted name) (.cons (by decide) (visible_compactChars value))
  | (name, value) :: next :: rest => by
      rw [compactMembers]
      · have hmember : Visible (quoted name ++ ':' :: value.compactChars) :=
          .append (visible_quoted name) (.cons (by decide) (visible_compactChars value))
        exact hmember.append (.cons (by decide) (visible_compactMembers (next :: rest)))
      · exact List.cons_ne_nil _ _

end

/-- **No byte of a compact text is a control character.** -/
theorem not_mem_utf8_compact (v : Json) {b : UInt8} (hb : b.toNat < 0x20) :
    b ∉ Text.utf8 v.compact := by
  intro h
  obtain ⟨c, hc, heq⟩ := Text.exists_mem_toList h (by omega)
  rw [compact, String.toList_ofList] at hc
  have hvisible := visible_compactChars v c hc
  omega

end MetaRecord.Json

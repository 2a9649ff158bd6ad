/-
# `MetaRecord.Proofs.Json.Printing` — values are read as they were printed

Both layouts print the items of an array and the members of an object in one
way: after a lead that is blank, and with commas between them.  So one argument
serves arrays and objects in either layout, and the value of the text is found
by induction on the value that was printed.

A value can be printed if it is `Proper`: its numbers are finite, and the members
of its objects stand in order.

Main statements: `denotes_compact` and `denotes_pretty`.
-/
import MetaRecord.Proofs.Json.Members
import MetaRecord.Proofs.Json.Numbers

namespace MetaRecord.Json

/-- A value that the grammar can spell. -/
inductive Proper : Json → Prop
  | null : Proper .null
  | bool (b : Bool) : Proper (.bool b)
  | int (n : Int) : Proper (.int n)
  | float {x : Decimal.Binary64} (h : x.isFinite) : Proper (.float x)
  | str (s : String) : Proper (.str s)
  | arr {items : List Json} (h : ∀ v ∈ items, Proper v) : Proper (.arr items)
  | obj {members : List (String × Json)} (hsorted : Members.Sorted members)
      (h : ∀ m ∈ members, Proper m.2) : Proper (.obj members)

namespace Grammar

variable {t rest : List Char}

/-! ## Texts -/

theorem hexValue?_hexDigit {n : Nat} (h : n < 16) : hexValue? (Bytes.hexDigit n) = some n := by
  have hall : ∀ n < 16, hexValue? (Bytes.hexDigit n) = some n := by decide
  exact hall n h

theorem code?_fixedHex {n : Nat} (h : n < 65536) (t : List Char) :
    code? (Text.fixedHex 4 n ++ t) = some (n, t) := by
  have hdigit (k : Nat) : hexValue? (Bytes.hexDigit (k % 16)) = some (k % 16) :=
    hexValue?_hexDigit (Nat.mod_lt _ (by decide))
  have hvalue : (n / 16 / 16 / 16 % 16 * 16 + n / 16 / 16 % 16) * 256 +
      (n / 16 % 16 * 16 + n % 16) = n := by omega
  simp [Text.fixedHex, code?, hdigit, hvalue]

theorem char?_control {c : Char} (h : c.toNat < 0x20) (t : List Char) :
    char? ('\\' :: 'u' :: Text.fixedHex 4 c.toNat ++ t) = some (c, t) := by
  have hcode := code?_fixedHex (n := c.toNat) (by omega) t
  have hplane : isLow c.toNat = false ∧ isHigh c.toNat = false := by
    simp only [isLow, isHigh, Bool.and_eq_false_iff, decide_eq_false_iff_not]
    omega
  show numbered? (Text.fixedHex 4 c.toNat ++ t) = _
  simp [numbered?, hcode, hplane, Char.ofNat_toNat]

theorem char?_plain {c : Char} (hquote : c ≠ '"') (hbackslash : c ≠ '\\') (h : ¬ c.toNat < 0x20)
    (t : List Char) : char? (c :: t) = some (c, t) := by
  rw [char?]
  · rw [if_neg]
    rintro (heq | heq | hlt)
    · exact hquote heq
    · exact hbackslash heq
    · exact h hlt
  · rintro _ rfl
    exact absurd rfl hbackslash
  · rintro _ _ rfl
    exact absurd rfl hbackslash

/-- An escape is the character that it was made for. -/
theorem char?_escape (c : Char) (t : List Char) : char? (escape c ++ t) = some (c, t) := by
  unfold escape
  split
  case h_8 hquote hbackslash _ _ _ _ _ =>
    split
    · next h => exact char?_control h t
    · next h => exact char?_plain hquote hbackslash h t
  all_goals simp [char?, named?]

theorem chars_escape (cs : List Char) (rest : List Char) :
    Chars (cs.flatMap escape ++ '"' :: rest) cs rest := by
  induction cs with
  | nil => exact .close rest
  | cons c cs ih =>
      rw [List.flatMap_cons, List.append_assoc]
      exact .char (char?_escape c _) ih

theorem quoted_append (s : String) (rest : List Char) :
    quoted s ++ rest = '"' :: (s.toList.flatMap escape ++ '"' :: rest) := by
  rw [quoted, List.append_assoc, List.cons_append, List.singleton_append]

theorem value_str (s : String) (rest : List Char) : Value (quoted s ++ rest) (.str s) rest := by
  have hvalue := Value.str (chars_escape s.toList rest)
  rwa [String.ofList_toList, ← quoted_append] at hvalue

theorem ends_cons {c : Char} (h : ¬ c.isDigit ∧ c ≠ '.' ∧ c ≠ 'e' ∧ c ≠ 'E') (rest : List Char) :
    Ends (c :: rest) := by
  intro d hd
  obtain rfl := Option.some.inj hd
  exact h

/-! ## Blanks -/

def AllBlank (t : List Char) : Prop := ∀ c ∈ t, isBlank c

theorem allBlank_nil : AllBlank [] := fun _ h => absurd h List.not_mem_nil

theorem allBlank_newLine (level : Nat) : AllBlank (newLine level) := by
  intro c hc
  rcases List.mem_cons.mp hc with rfl | hc
  · rfl
  · rw [List.eq_of_mem_replicate hc]
    rfl

theorem AllBlank.skip_append (h : AllBlank t) (rest : List Char) : skip (t ++ rest) = skip rest :=
  List.dropWhile_append_of_pos h

theorem skip_cons {c : Char} (h : isBlank c = false) (t : List Char) : skip (c :: t) = c :: t :=
  List.dropWhile_cons_of_neg (by simp [h])

theorem AllBlank.ends_append (h : AllBlank t) (hrest : Ends rest) : Ends (t ++ rest) := by
  cases t with
  | nil => exact hrest
  | cons c t =>
      intro d hd
      obtain rfl := Option.some.inj hd
      have hblank := h c List.mem_cons_self
      simp only [isBlank, Bool.or_eq_true, decide_eq_true_eq] at hblank
      rcases hblank with ((rfl | rfl) | rfl) | rfl <;> decide

theorem isBlank_of_isDigit {c : Char} (h : c.isDigit) : isBlank c = false := by
  rw [Bool.eq_false_iff]
  intro hblank
  simp only [isBlank, Bool.or_eq_true, decide_eq_true_eq] at hblank
  rcases hblank with ((rfl | rfl) | rfl) | rfl <;> exact absurd h (by decide)

/-- No value begins with a blank. -/
theorem Value.skip_eq {v : Json} (h : Value t v rest) : skip t = t := by
  cases h with
  | number h =>
      obtain ⟨c, hc, hnumber⟩ := h.head
      obtain ⟨t, rfl⟩ : ∃ tail, t = c :: tail := by
        cases t with
        | nil => exact nomatch hc
        | cons d tail => exact ⟨tail, by rw [Option.some.inj hc]⟩
      refine skip_cons ?_ t
      rcases hnumber with rfl | hdigit
      · rfl
      · exact isBlank_of_isDigit hdigit
  | null | true | false | str | noItems | arr | noMembers | obj => exact skip_cons rfl _

theorem Member.skip_eq {m : String × Json} (h : Member t m rest) : skip t = t := by
  cases h with
  | mk => exact skip_cons rfl _

/-! ## Arrays and objects -/

/-- However the text goes on, what is printed is all that is read. -/
def Printed {α : Type} (Reads : List Char → α → List Char → Prop) (text : List Char) (a : α) :
    Prop := ∀ rest, Ends rest → Reads (text ++ rest) a rest

section Joined

variable {α : Type}

/-- Texts after a lead each, with commas between them. -/
def joined (lead : List Char) (text : α → List Char) : List α → List Char
  | [] => []
  | [a] => lead ++ text a
  | a :: more => lead ++ text a ++ ',' :: joined lead text more

variable {One : List Char → α → List Char → Prop} {Many : List Char → List α → List Char → Prop}
  {close : Char} {lead closing : List Char} {text : α → List Char}

/-- `Many` reads one thing after another, with commas between them, up to a
bracket. -/
structure Listing (One : List Char → α → List Char → Prop)
    (Many : List Char → List α → List Char → Prop) (close : Char) : Prop where
  last {t a t' rest} : One t a t' → skip t' = close :: rest → Many t [a] rest
  more {t a t' t'' items rest} : One t a t' → skip t' = ',' :: t'' →
    Many (skip t'') items rest → Many t (a :: items) rest
  skip_eq {t a rest} : One t a rest → skip t = t
  not_blank : isBlank close = false
  ends (rest : List Char) : Ends (close :: rest)

/-- What is joined is read one by one, up to the bracket that closes it. -/
theorem Listing.reads_joined (hlist : Listing One Many close) (hlead : AllBlank lead)
    (hclosing : AllBlank closing) {items : List α} (hne : items ≠ [])
    (h : ∀ a ∈ items, Printed One (text a) a) (rest : List Char) :
    Many (skip (joined lead text items ++ (closing ++ close :: rest))) items rest := by
  induction items with
  | nil => exact absurd rfl hne
  | cons a items ih =>
      have hone := h a List.mem_cons_self
      cases items with
      | nil =>
          have hread := hone _ (hclosing.ends_append (hlist.ends rest))
          rw [joined, List.append_assoc, hlead.skip_append, hlist.skip_eq hread]
          refine hlist.last hread ?_
          rw [hclosing.skip_append, skip_cons hlist.not_blank]
      | cons b items =>
          have hread := hone (',' :: (joined lead text (b :: items) ++ (closing ++ close :: rest)))
            (ends_cons (by decide) _)
          rw [joined, List.append_assoc, List.append_assoc, List.cons_append, hlead.skip_append,
            hlist.skip_eq hread]
          · refine hlist.more hread (skip_cons rfl _) ?_
            exact ih (List.cons_ne_nil _ _) fun c hc => h c (List.mem_cons_of_mem _ hc)
          · exact List.cons_ne_nil _ _

end Joined

theorem listing_items : Listing Value Items ']' :=
  ⟨Items.last, Items.more, Value.skip_eq, rfl, ends_cons (by decide)⟩

theorem listing_members : Listing Member Members '}' :=
  ⟨Members.last, Members.more, Member.skip_eq, rfl, ends_cons (by decide)⟩

section Layout

variable {lead closing : List Char}

/-- The items of an array between its brackets. -/
theorem printed_arr (hlead : AllBlank lead) (hclosing : AllBlank closing)
    {text : Json → List Char} {items : List Json} (hne : items ≠ [])
    (h : ∀ v ∈ items, Printed Value (text v) v) :
    Printed Value ('[' :: joined lead text items ++ closing ++ [']']) (.arr items) := by
  intro rest _
  have hitems := listing_items.reads_joined hlead hclosing hne h rest
  rw [List.cons_append, List.cons_append, List.cons_append, List.append_assoc, List.append_assoc,
    List.singleton_append]
  exact .arr hitems

/-- The members of an object between its braces. -/
theorem printed_obj (hlead : AllBlank lead) (hclosing : AllBlank closing)
    {text : String × Json → List Char} {members : List (String × Json)} (hne : members ≠ [])
    (hsorted : Members.Sorted members) (h : ∀ m ∈ members, Printed Member (text m) m) :
    Printed Value ('{' :: joined lead text members ++ closing ++ ['}']) (.obj members) := by
  intro rest _
  have hmembers := listing_members.reads_joined hlead hclosing hne h rest
  have hvalue := Value.obj hmembers
  rw [object, Members.ofList_of_sorted hsorted] at hvalue
  rw [List.cons_append, List.cons_append, List.cons_append, List.append_assoc, List.append_assoc,
    List.singleton_append]
  exact hvalue

/-- A name, a colon with a gap after it, and a value. -/
theorem printed_member {gap text : List Char} {m : String × Json} (hgap : AllBlank gap)
    (h : Printed Value text m.2) : Printed Member (quoted m.1 ++ ':' :: (gap ++ text)) m := by
  intro rest hrest
  have hvalue := h rest hrest
  have hmember := Member.mk (chars_escape m.1.toList (':' :: (gap ++ (text ++ rest))))
    (skip_cons rfl _) (by rwa [hgap.skip_append, hvalue.skip_eq])
  rw [String.ofList_toList, ← quoted_append] at hmember
  rwa [List.append_assoc, List.cons_append, List.append_assoc]

end Layout

/-! ## Scalars -/

theorem printed_scalar {v : Json} (h : Proper v) (hscalar : ∀ items, v ≠ .arr items)
    (hscalar' : ∀ members, v ≠ .obj members) : Printed Value (scalarChars v) v := by
  intro rest hrest
  cases h with
  | null => exact .null rest
  | bool b =>
      cases b with
      | false => exact .false rest
      | true => exact .true rest
  | int n => exact value_int n hrest
  | float h => exact value_float h hrest numberStyle
  | str s => exact value_str s rest
  | arr => exact absurd rfl (hscalar _)
  | obj => exact absurd rfl (hscalar' _)

/-! ## Compact texts -/

theorem compactItems_eq (items : List Json) :
    compactItems items = joined [] compactChars items := by
  induction items with
  | nil => rw [compactItems, joined]
  | cons v items ih =>
      cases items with
      | nil => rw [compactItems, joined, List.nil_append]
      | cons w items =>
          rw [compactItems, joined, ih, List.nil_append]
          · exact List.cons_ne_nil _ _
          · exact List.cons_ne_nil _ _

theorem compactMembers_eq (members : List (String × Json)) :
    compactMembers members =
      joined [] (fun m => quoted m.1 ++ ':' :: m.2.compactChars) members := by
  induction members with
  | nil => rw [compactMembers, joined]
  | cons m members ih =>
      obtain ⟨name, v⟩ := m
      cases members with
      | nil => rw [compactMembers, joined, List.nil_append]
      | cons e members =>
          rw [compactMembers, joined, ih, List.nil_append]
          · exact List.cons_ne_nil _ _
          · exact List.cons_ne_nil _ _

theorem printed_compactChars {v : Json} (h : Proper v) : Printed Value v.compactChars v := by
  induction h with
  | null | bool | int | float _ | str =>
      rw [compactChars]
      · exact printed_scalar (by constructor <;> assumption) (fun _ => nofun) fun _ => nofun
      · exact fun _ => nofun
      · exact fun _ => nofun
  | @arr items _ ih =>
      rw [compactChars, compactItems_eq]
      cases items with
      | nil => exact fun rest _ => .noItems (skip_cons rfl rest)
      | cons v items =>
          have h := printed_arr allBlank_nil allBlank_nil (List.cons_ne_nil v items) ih
          rwa [List.append_nil] at h
  | @obj members hsorted _ ih =>
      rw [compactChars, compactMembers_eq]
      cases members with
      | nil => exact fun rest _ => .noMembers (skip_cons rfl rest)
      | cons m members =>
          have h := printed_obj allBlank_nil allBlank_nil (List.cons_ne_nil m members) hsorted
            fun m hm => printed_member allBlank_nil (ih m hm)
          rwa [List.append_nil] at h

/-! ## Indented texts -/

theorem prettyItems_eq (level : Nat) (items : List Json) :
    prettyItems level items = joined (newLine level) (prettyChars level) items := by
  induction items with
  | nil => rw [prettyItems, joined]
  | cons v items ih =>
      cases items with
      | nil => rw [prettyItems, joined]
      | cons w items =>
          rw [prettyItems, joined, ih]
          · exact List.cons_ne_nil _ _
          · exact List.cons_ne_nil _ _

theorem prettyMembers_eq (level : Nat) (members : List (String × Json)) :
    prettyMembers level members =
      joined (newLine level) (fun m => quoted m.1 ++ ':' :: ' ' :: m.2.prettyChars level)
        members := by
  induction members with
  | nil => rw [prettyMembers, joined]
  | cons m members ih =>
      obtain ⟨name, v⟩ := m
      cases members with
      | nil => rw [prettyMembers, joined, List.append_assoc]
      | cons e members =>
          rw [prettyMembers, joined, ih, List.append_assoc (newLine level)]
          · exact List.cons_ne_nil _ _
          · exact List.cons_ne_nil _ _

theorem allBlank_gap : AllBlank [' '] := by
  intro c hc
  rw [List.mem_singleton.mp hc]
  rfl

theorem printed_prettyChars {v : Json} (h : Proper v) (level : Nat) :
    Printed Value (v.prettyChars level) v := by
  induction h generalizing level with
  | null | bool | int | float _ | str =>
      rw [prettyChars]
      · exact printed_scalar (by constructor <;> assumption) (fun _ => nofun) fun _ => nofun
      all_goals exact nofun
  | @arr items _ ih =>
      cases items with
      | nil =>
          rw [prettyChars]
          exact fun rest _ => .noItems (skip_cons rfl rest)
      | cons v items =>
          rw [prettyChars, prettyItems_eq]
          · exact printed_arr (allBlank_newLine _) (allBlank_newLine _) (List.cons_ne_nil v items)
              fun w hw => ih w hw _
          · exact List.cons_ne_nil _ _
  | @obj members hsorted _ ih =>
      cases members with
      | nil =>
          rw [prettyChars]
          exact fun rest _ => .noMembers (skip_cons rfl rest)
      | cons m members =>
          rw [prettyChars, prettyMembers_eq]
          · exact printed_obj (allBlank_newLine _) (allBlank_newLine _) (List.cons_ne_nil m members)
              hsorted fun e he => printed_member allBlank_gap (ih e he _)
          · exact List.cons_ne_nil _ _

/-! ## Whole texts -/

theorem denotes_of_printed {text : List Char} {v : Json} (h : Printed Value text v) :
    Denotes (String.ofList text) v := by
  have hvalue := h [] fun _ hc => nomatch hc
  rw [List.append_nil] at hvalue
  refine ⟨[], ?_, rfl⟩
  rwa [String.toList_ofList, hvalue.skip_eq]

theorem denotes_compact {v : Json} (h : Proper v) : Denotes v.compact v :=
  denotes_of_printed (printed_compactChars h)

theorem denotes_pretty {v : Json} (h : Proper v) : Denotes v.pretty v :=
  denotes_of_printed (printed_prettyChars h 0)

end Grammar

end MetaRecord.Json

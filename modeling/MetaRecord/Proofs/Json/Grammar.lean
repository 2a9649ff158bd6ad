/-
# `MetaRecord.Proofs.Json.Grammar` — which value a JSON text stands for

The grammar of JSON, as a relation between a text, the value at its front and
what is left of the text after the value.  Blanks may stand on either side of
every token.  A number without a fraction or an exponent is a whole number, and
any other is rounded to double precision; an escape is the character it names,
and one beyond the first plane takes two escapes; of members with one name the
last counts.

Each part is read as far as it goes, so a text stands for one value at most.

Main statements: `Value.unique`, and `Denotes.unique` for whole texts.
-/
import MetaRecord.Json.Basic
import MetaRecord.Proofs.Decimal.Nearest

namespace MetaRecord.Json.Grammar

open Decimal (Binary64)

/-! ## Blanks -/

def isBlank (c : Char) : Bool := c = ' ' || c = '\t' || c = '\n' || c = '\r'

/-- A text without the blanks at its front. -/
def skip (t : List Char) : List Char := t.dropWhile isBlank

/-! ## Numbers -/

/-- All the digits at the front of a text; there are some. -/
structure Digits (t digits rest : List Char) : Prop where
  split : t = digits ++ rest
  nonempty : digits ≠ []
  isDigit : ∀ c ∈ digits, c.isDigit
  stop : ∀ c ∈ rest.head?, ¬ c.isDigit

/-- The number that digits stand for. -/
def decimalValue (digits : List Char) : Nat := Nat.ofDigitChars 10 digits 0

/-- A minus sign, if there is one. -/
inductive Minus : List Char → Bool → List Char → Prop
  | minus (rest) : Minus ('-' :: rest) true rest
  | none {t} (h : t.head? ≠ some '-') : Minus t false t

/-- A sign, if there is one. -/
inductive Sign : List Char → Int → List Char → Prop
  | minus (rest) : Sign ('-' :: rest) (-1) rest
  | plus (rest) : Sign ('+' :: rest) 1 rest
  | none {t} (h : t.head? ≠ some '-' ∧ t.head? ≠ some '+') : Sign t 1 t

/-- A fraction's digits, if there is a fraction. -/
inductive Fraction : List Char → List Char → List Char → Prop
  | point {t digits rest} (h : Digits t digits rest) : Fraction ('.' :: t) digits rest
  | none {t} (h : t.head? ≠ some '.') : Fraction t [] t

/-- An exponent, if there is one. -/
inductive Exponent : List Char → Option Int → List Char → Prop
  | mark {c t sign t' digits rest} (hc : c = 'e' ∨ c = 'E') (hsign : Sign t sign t')
      (h : Digits t' digits rest) : Exponent (c :: t) (some (sign * decimalValue digits)) rest
  | none {t} (h : t.head? ≠ some 'e' ∧ t.head? ≠ some 'E') : Exponent t none t

/-- The parts of a number. -/
structure Numeral where
  negative : Bool
  whole : List Char
  /-- The digits after the point; none without a point. -/
  fraction : List Char
  exponent : Option Int

namespace Numeral

/-- A number's parts at the front of a text.  A zero in front stands alone. -/
inductive Reads : List Char → Numeral → List Char → Prop
  | mk {t t₁ t₂ t₃ rest negative whole fraction exponent} (hminus : Minus t negative t₁)
      (hwhole : Digits t₁ whole t₂) (hzero : whole.head? = some '0' → whole = ['0'])
      (hfraction : Fraction t₂ fraction t₃) (hexponent : Exponent t₃ exponent rest) :
      Reads t ⟨negative, whole, fraction, exponent⟩ rest

/-- The number without its sign. -/
def magnitude (n : Numeral) : ℚ :=
  decimalValue (n.whole ++ n.fraction) * 10 ^ (n.exponent.getD 0 - n.fraction.length)

/-- The value of a number. -/
inductive Denotes (n : Numeral) : Json → Prop
  | int (hfraction : n.fraction = []) (hexponent : n.exponent = none) :
      Denotes n (.int (if n.negative then -decimalValue n.whole else decimalValue n.whole))
  | float {x} (h : n.fraction ≠ [] ∨ n.exponent ≠ none) (hnearest : Binary64.Nearest n.magnitude x)
      (hsign : x.isNegative = n.negative) : Denotes n (.float x)

end Numeral

/-! ## Texts -/

def hexValue? (c : Char) : Option Nat :=
  if '0' ≤ c ∧ c ≤ '9' then some (c.toNat - 48)
  else if 'a' ≤ c ∧ c ≤ 'f' then some (c.toNat - 87)
  else if 'A' ≤ c ∧ c ≤ 'F' then some (c.toNat - 55)
  else none

/-- The number of four hexadecimal digits at the front. -/
def code? : List Char → Option (Nat × List Char)
  | a :: b :: c :: d :: rest => do
    let number := ((← hexValue? a) * 16 + (← hexValue? b)) * 256 +
      ((← hexValue? c) * 16 + (← hexValue? d))
    return (number, rest)
  | _ => none

/-- The first and the second half of a character beyond the first plane. -/
def isHigh (n : Nat) : Bool := 0xd800 ≤ n && n < 0xdc00

def isLow (n : Nat) : Bool := 0xdc00 ≤ n && n < 0xe000

/-- The character whose number stands at the front, or of whose two halves the
first does. -/
def numbered? (t : List Char) : Option (Char × List Char) := do
  let (first, rest) ← code? t
  if isLow first then none
  else if isHigh first then
    match rest with
    | '\\' :: 'u' :: t =>
      let (second, rest) ← code? t
      if isLow second then
        return (Char.ofNat (0x10000 + (first - 0xd800) * 0x400 + (second - 0xdc00)), rest)
      else none
    | _ => none
  else return (Char.ofNat first, rest)

/-- The character that a letter after a backslash names. -/
def named? : Char → Option Char
  | '"' => some '"'
  | '\\' => some '\\'
  | '/' => some '/'
  | 'b' => some '\x08'
  | 'f' => some '\x0c'
  | 'n' => some '\n'
  | 'r' => some '\r'
  | 't' => some '\t'
  | _ => none

/-- The character at the front of a text between quotes. -/
def char? : List Char → Option (Char × List Char)
  | '\\' :: 'u' :: t => numbered? t
  | '\\' :: c :: t => (named? c).map (·, t)
  | c :: t => if c = '"' ∨ c = '\\' ∨ c.toNat < 0x20 then none else some (c, t)
  | [] => none

/-- The characters up to the closing quote. -/
inductive Chars : List Char → List Char → List Char → Prop
  | close (rest) : Chars ('"' :: rest) [] rest
  | char {t c t' cs rest} (hc : char? t = some (c, t')) (h : Chars t' cs rest) :
      Chars t (c :: cs) rest

/-! ## Values -/

mutual

/-- The value at the front of a text. -/
inductive Value : List Char → Json → List Char → Prop
  | null (rest) : Value ('n' :: 'u' :: 'l' :: 'l' :: rest) .null rest
  | true (rest) : Value ('t' :: 'r' :: 'u' :: 'e' :: rest) (.bool true) rest
  | false (rest) : Value ('f' :: 'a' :: 'l' :: 's' :: 'e' :: rest) (.bool false) rest
  | number {t n v rest} (h : Numeral.Reads t n rest) (hv : n.Denotes v) : Value t v rest
  | str {t cs rest} (h : Chars t cs rest) : Value ('"' :: t) (.str (String.ofList cs)) rest
  | noItems {t rest} (h : skip t = ']' :: rest) : Value ('[' :: t) (.arr []) rest
  | arr {t items rest} (h : Items (skip t) items rest) : Value ('[' :: t) (.arr items) rest
  | noMembers {t rest} (h : skip t = '}' :: rest) : Value ('{' :: t) (object []) rest
  | obj {t members rest} (h : Members (skip t) members rest) :
      Value ('{' :: t) (object members) rest

/-- The items of an array up to its end. -/
inductive Items : List Char → List Json → List Char → Prop
  | last {t v t' rest} (h : Value t v t') (hend : skip t' = ']' :: rest) : Items t [v] rest
  | more {t v t' t'' items rest} (h : Value t v t') (hcomma : skip t' = ',' :: t'')
      (hitems : Items (skip t'') items rest) : Items t (v :: items) rest

/-- The members of an object up to its end. -/
inductive Members : List Char → List (String × Json) → List Char → Prop
  | last {t m t' rest} (h : Member t m t') (hend : skip t' = '}' :: rest) : Members t [m] rest
  | more {t m t' t'' members rest} (h : Member t m t') (hcomma : skip t' = ',' :: t'')
      (hmembers : Members (skip t'') members rest) : Members t (m :: members) rest

/-- A name and its value. -/
inductive Member : List Char → String × Json → List Char → Prop
  | mk {t cs t' t'' v rest} (hname : Chars t cs t') (hcolon : skip t' = ':' :: t'')
      (hvalue : Value (skip t'') v rest) : Member ('"' :: t) (String.ofList cs, v) rest

end

/-- The text is a JSON text, and this is its value. -/
def Denotes (text : String) (v : Json) : Prop :=
  ∃ rest, Value (skip text.toList) v rest ∧ skip rest = []

/-! ## One value at most -/

variable {t rest rest' : List Char}

theorem Digits.unique {digits digits' : List Char} (h : Digits t digits rest)
    (h' : Digits t digits' rest') : digits = digits' ∧ rest = rest' := by
  have front {digits rest : List Char} (h : Digits t digits rest) :
      t.takeWhile Char.isDigit = digits := by
    rw [h.split, List.takeWhile_append_of_pos h.isDigit]
    cases hrest : rest with
    | nil => simp
    | cons c tail =>
        have hc := h.stop c (by rw [hrest]; rfl)
        rw [List.takeWhile_cons_of_neg hc, List.append_nil]
  have hdigits : digits = digits' := (front h).symm.trans (front h')
  subst hdigits
  exact ⟨rfl, List.append_cancel_left (h.split.symm.trans h'.split)⟩

theorem Minus.unique {negative negative' : Bool} (h : Minus t negative rest)
    (h' : Minus t negative' rest') : negative = negative' ∧ rest = rest' := by
  cases h with
  | minus =>
      cases h' with
      | minus => exact ⟨rfl, rfl⟩
      | none h' => exact absurd rfl h'
  | none h =>
      cases h' with
      | minus => exact absurd rfl h
      | none => exact ⟨rfl, rfl⟩

theorem Sign.unique {sign sign' : Int} (h : Sign t sign rest) (h' : Sign t sign' rest') :
    sign = sign' ∧ rest = rest' := by
  cases h with
  | minus =>
      cases h' with
      | minus => exact ⟨rfl, rfl⟩
      | none h' => exact absurd rfl h'.1
  | plus =>
      cases h' with
      | plus => exact ⟨rfl, rfl⟩
      | none h' => exact absurd rfl h'.2
  | none h =>
      cases h' with
      | minus => exact absurd rfl h.1
      | plus => exact absurd rfl h.2
      | none => exact ⟨rfl, rfl⟩

theorem Fraction.unique {digits digits' : List Char} (h : Fraction t digits rest)
    (h' : Fraction t digits' rest') : digits = digits' ∧ rest = rest' := by
  cases h with
  | point h =>
      cases h' with
      | point h' => exact h.unique h'
      | none h' => exact absurd rfl h'
  | none h =>
      cases h' with
      | point => exact absurd rfl h
      | none => exact ⟨rfl, rfl⟩

theorem Exponent.unique {exponent exponent' : Option Int} (h : Exponent t exponent rest)
    (h' : Exponent t exponent' rest') : exponent = exponent' ∧ rest = rest' := by
  cases h with
  | mark hc hsign h =>
      cases h' with
      | mark _ hsign' h' =>
          obtain ⟨rfl, rfl⟩ := hsign.unique hsign'
          obtain ⟨rfl, rfl⟩ := h.unique h'
          exact ⟨rfl, rfl⟩
      | none h' => rcases hc with rfl | rfl <;> simp at h'
  | none h =>
      cases h' with
      | mark hc => rcases hc with rfl | rfl <;> simp at h
      | none => exact ⟨rfl, rfl⟩

theorem Numeral.Reads.unique {n n' : Numeral} (h : Reads t n rest) (h' : Reads t n' rest') :
    n = n' ∧ rest = rest' := by
  obtain ⟨hminus, hwhole, -, hfraction, hexponent⟩ := h
  obtain ⟨hminus', hwhole', -, hfraction', hexponent'⟩ := h'
  obtain ⟨rfl, rfl⟩ := hminus.unique hminus'
  obtain ⟨rfl, rfl⟩ := hwhole.unique hwhole'
  obtain ⟨rfl, rfl⟩ := hfraction.unique hfraction'
  obtain ⟨rfl, rfl⟩ := hexponent.unique hexponent'
  exact ⟨rfl, rfl⟩

theorem Numeral.Denotes.unique {n : Numeral} {v v' : Json} (h : n.Denotes v) (h' : n.Denotes v') :
    v = v' := by
  cases h with
  | int hfraction hexponent =>
      cases h' with
      | int => rfl
      | float hsome => exact absurd hsome (by simp [hfraction, hexponent])
  | float hsome hnearest hsign =>
      cases h' with
      | int hfraction hexponent => exact absurd hsome (by simp [hfraction, hexponent])
      | float _ hnearest' hsign' =>
          rw [hnearest.unique hnearest' (hsign.trans hsign'.symm)]

/-- A number begins with a digit or a minus sign. -/
theorem Numeral.Reads.head {n : Numeral} (h : Reads t n rest) :
    ∃ c, t.head? = some c ∧ (c = '-' ∨ c.isDigit) := by
  obtain ⟨hminus, hwhole, -, -, -⟩ := h
  cases hminus with
  | minus => exact ⟨'-', rfl, Or.inl rfl⟩
  | none =>
      obtain ⟨c, digits, hdigits⟩ := List.exists_cons_of_ne_nil hwhole.nonempty
      refine ⟨c, ?_, Or.inr (hwhole.isDigit c (by rw [hdigits]; exact List.mem_cons_self))⟩
      rw [hwhole.split, hdigits]
      rfl

theorem Numeral.Reads.false_of_cons {n : Numeral} {c : Char} (h : Reads (c :: t) n rest)
    (hc : c ≠ '-' ∧ ¬ c.isDigit) : False := by
  obtain ⟨d, hd, hnumber⟩ := h.head
  obtain rfl := Option.some.inj hd
  exact hnumber.elim hc.1 hc.2

theorem Chars.unique {cs cs' : List Char} (h : Chars t cs rest) (h' : Chars t cs' rest') :
    cs = cs' ∧ rest = rest' := by
  induction h generalizing cs' with
  | close =>
      cases h' with
      | close => exact ⟨rfl, rfl⟩
      | char hc => simp [char?] at hc
  | char hc _ ih =>
      cases h' with
      | close => simp [char?] at hc
      | char hc' h' =>
          obtain ⟨rfl, rfl⟩ := Prod.mk.inj (Option.some.inj (hc.symm.trans hc'))
          obtain ⟨rfl, rfl⟩ := ih h'
          exact ⟨rfl, rfl⟩

/-- A closing bracket opens no value. -/
theorem Value.false_of_close {v : Json} {c : Char} (hc : c = ']' ∨ c = '}')
    (h : Value (c :: t) v rest) : False := by
  rcases hc with rfl | rfl
  · cases h with
    | number h => exact h.false_of_cons (by decide)
  · cases h with
    | number h => exact h.false_of_cons (by decide)

theorem Items.false_of_close {items : List Json} (h : Items (']' :: t) items rest) : False := by
  cases h with
  | last h => exact h.false_of_close (Or.inl rfl)
  | more h => exact h.false_of_close (Or.inl rfl)

theorem Members.false_of_close {members : List (String × Json)}
    (h : Members ('}' :: t) members rest) : False := by
  cases h with
  | last h => cases h
  | more h => cases h

theorem cons_inj_of_skip {c c' : Char} {s : List Char} (h : skip s = c :: t)
    (h' : skip s = c' :: rest) : c = c' ∧ t = rest := List.cons.inj (h.symm.trans h')

/-- What begins with a bracket is an array. -/
theorem Value.array_inv {v : Json} (h : Value ('[' :: t) v rest) :
    (skip t = ']' :: rest ∧ v = .arr []) ∨ ∃ items, Items (skip t) items rest ∧ v = .arr items := by
  cases h with
  | noItems h => exact Or.inl ⟨h, rfl⟩
  | arr h => exact Or.inr ⟨_, h, rfl⟩
  | number h => exact (h.false_of_cons (by decide)).elim

/-- What begins with a brace is an object. -/
theorem Value.object_inv {v : Json} (h : Value ('{' :: t) v rest) :
    (skip t = '}' :: rest ∧ v = object []) ∨
      ∃ members, Members (skip t) members rest ∧ v = object members := by
  cases h with
  | noMembers h => exact Or.inl ⟨h, rfl⟩
  | obj h => exact Or.inr ⟨_, h, rfl⟩
  | number h => exact (h.false_of_cons (by decide)).elim

/-- Nothing else is read at the front of the text. -/
def Only {α : Type} (Reads : List Char → α → List Char → Prop) (t : List Char) (a : α)
    (rest : List Char) : Prop := ∀ {a' rest'}, Reads t a' rest' → a = a' ∧ rest = rest'

/-- A text has one value at its front at most. -/
theorem Value.unique {v : Json} (h : Value t v rest) : Only Value t v rest := by
  refine @Value.rec (fun t v rest _ => Only Value t v rest)
    (fun t items rest _ => Only Items t items rest)
    (fun t members rest _ => Only Members t members rest) (fun t m rest _ => Only Member t m rest)
    ?null ?true ?false ?number ?str ?noItems ?arr ?noMembers ?obj ?lastItem ?moreItems
    ?lastMember ?moreMembers ?member t v rest h
  case null =>
    intro rest v' rest' h'
    cases h' with
    | null => exact ⟨rfl, rfl⟩
    | number h' => exact (h'.false_of_cons (by decide)).elim
  case true =>
    intro rest v' rest' h'
    cases h' with
    | true => exact ⟨rfl, rfl⟩
    | number h' => exact (h'.false_of_cons (by decide)).elim
  case false =>
    intro rest v' rest' h'
    cases h' with
    | false => exact ⟨rfl, rfl⟩
    | number h' => exact (h'.false_of_cons (by decide)).elim
  case number =>
    intro t n v rest h hv v' rest' h'
    cases h' with
    | number h' hv' =>
        obtain ⟨rfl, rfl⟩ := h.unique h'
        exact ⟨hv.unique hv', rfl⟩
    | null | true | false | str | noItems | arr | noMembers | obj =>
        exact (h.false_of_cons (by decide)).elim
  case str =>
    intro t cs rest h v' rest' h'
    cases h' with
    | str h' =>
        obtain ⟨rfl, rfl⟩ := h.unique h'
        exact ⟨rfl, rfl⟩
    | number h' => exact (h'.false_of_cons (by decide)).elim
  case noItems =>
    intro t rest h v' rest' h'
    rcases h'.array_inv with ⟨hend, rfl⟩ | ⟨items, hitems, -⟩
    · exact ⟨rfl, (cons_inj_of_skip h hend).2⟩
    · exact (Items.false_of_close (h ▸ hitems)).elim
  case arr =>
    intro t items rest h ih v' rest' h'
    rcases h'.array_inv with ⟨hend, -⟩ | ⟨items', hitems, rfl⟩
    · exact (Items.false_of_close (hend ▸ h)).elim
    · obtain ⟨rfl, rfl⟩ := ih hitems
      exact ⟨rfl, rfl⟩
  case noMembers =>
    intro t rest h v' rest' h'
    rcases h'.object_inv with ⟨hend, rfl⟩ | ⟨members, hmembers, -⟩
    · exact ⟨rfl, (cons_inj_of_skip h hend).2⟩
    · exact (Members.false_of_close (h ▸ hmembers)).elim
  case obj =>
    intro t members rest h ih v' rest' h'
    rcases h'.object_inv with ⟨hend, -⟩ | ⟨members', hmembers, rfl⟩
    · exact (Members.false_of_close (hend ▸ h)).elim
    · obtain ⟨rfl, rfl⟩ := ih hmembers
      exact ⟨rfl, rfl⟩
  case lastItem =>
    intro t v t' rest _ hend ih items' rest' h'
    cases h' with
    | last h' hend' =>
        obtain ⟨rfl, rfl⟩ := ih h'
        exact ⟨rfl, (cons_inj_of_skip hend hend').2⟩
    | more h' hcomma' =>
        obtain ⟨rfl, rfl⟩ := ih h'
        exact absurd (cons_inj_of_skip hend hcomma').1 (by decide)
  case moreItems =>
    intro t v t' t'' items rest _ hcomma _ ih ihitems items' rest' h'
    cases h' with
    | last h' hend' =>
        obtain ⟨rfl, rfl⟩ := ih h'
        exact absurd (cons_inj_of_skip hcomma hend').1 (by decide)
    | more h' hcomma' hitems' =>
        obtain ⟨rfl, rfl⟩ := ih h'
        obtain ⟨-, rfl⟩ := cons_inj_of_skip hcomma hcomma'
        obtain ⟨rfl, rfl⟩ := ihitems hitems'
        exact ⟨rfl, rfl⟩
  case lastMember =>
    intro t m t' rest _ hend ih members' rest' h'
    cases h' with
    | last h' hend' =>
        obtain ⟨rfl, rfl⟩ := ih h'
        exact ⟨rfl, (cons_inj_of_skip hend hend').2⟩
    | more h' hcomma' =>
        obtain ⟨rfl, rfl⟩ := ih h'
        exact absurd (cons_inj_of_skip hend hcomma').1 (by decide)
  case moreMembers =>
    intro t m t' t'' members rest _ hcomma _ ih ihmembers members' rest' h'
    cases h' with
    | last h' hend' =>
        obtain ⟨rfl, rfl⟩ := ih h'
        exact absurd (cons_inj_of_skip hcomma hend').1 (by decide)
    | more h' hcomma' hmembers' =>
        obtain ⟨rfl, rfl⟩ := ih h'
        obtain ⟨-, rfl⟩ := cons_inj_of_skip hcomma hcomma'
        obtain ⟨rfl, rfl⟩ := ihmembers hmembers'
        exact ⟨rfl, rfl⟩
  case member =>
    intro t cs t' t'' v rest hname hcolon _ ih m' rest' h'
    cases h' with
    | mk hname' hcolon' hvalue' =>
        obtain ⟨rfl, rfl⟩ := hname.unique hname'
        obtain ⟨-, rfl⟩ := cons_inj_of_skip hcolon hcolon'
        obtain ⟨rfl, rfl⟩ := ih hvalue'
        exact ⟨rfl, rfl⟩

/-- A text is the text of one value at most. -/
theorem Denotes.unique {text : String} {v v' : Json} (h : Denotes text v) (h' : Denotes text v') :
    v = v' := by
  obtain ⟨_, h, -⟩ := h
  obtain ⟨_, h', -⟩ := h'
  exact (Value.unique h h').1

end MetaRecord.Json.Grammar

/-
# `MetaRecord.Proofs.Text.Base64` — printable text gives back its bytes

Four characters of six bits have as many bits as three bytes, and each of the
three bytes is cut in two and put together again: `group?` does this for the four
characters of a group.  A group that is filled up holds fewer bytes, and only the
last one may be.

The characters are those of the standard alphabet in its order, which `symbol`
computes and `alphabet` spells out.  So reading does not rest on the computation
that it has to undo.

Main statements: `decode?_encode` and `length_encode`.
-/
import MetaRecord.Text.Base64

namespace MetaRecord.Text.Base64

/-! ## The alphabet -/

/-- The characters for 0 to 63. -/
def alphabet : List Char :=
  ['A', 'B', 'C', 'D', 'E', 'F', 'G', 'H', 'I', 'J', 'K', 'L', 'M', 'N', 'O', 'P',
    'Q', 'R', 'S', 'T', 'U', 'V', 'W', 'X', 'Y', 'Z', 'a', 'b', 'c', 'd', 'e', 'f',
    'g', 'h', 'i', 'j', 'k', 'l', 'm', 'n', 'o', 'p', 'q', 'r', 's', 't', 'u', 'v',
    'w', 'x', 'y', 'z', '0', '1', '2', '3', '4', '5', '6', '7', '8', '9', '+', '/']

/-- The value of a character of the alphabet. -/
def value? (c : Char) : Option Nat := alphabet.findIdx? (· = c)

theorem value?_symbol {n : Nat} (h : n < 64) : value? (symbol n) = some n := by
  have hall : ∀ n < 64, value? (symbol n) = some n := by decide +kernel
  exact hall n h

/-- No character of the alphabet is mistaken for filling. -/
theorem symbol_ne {n : Nat} (h : n < 64) : symbol n ≠ '=' := by
  have hall : ∀ n < 64, symbol n ≠ '=' := by decide +kernel
  exact hall n h

/-! ## Groups -/

/-- The bytes of four characters, of which the last ones may be filling. -/
def group? (a b c d : Char) : Option Bytes := do
  let first ← value? a
  let second ← value? b
  let high := UInt8.ofNat (first * 4 + second / 16)
  if c = '=' ∧ d = '=' then return [high]
  let third ← value? c
  let middle := UInt8.ofNat (second % 16 * 16 + third / 4)
  if d = '=' then return [high, middle]
  let fourth ← value? d
  return [high, middle, UInt8.ofNat (third % 4 * 64 + fourth)]

section Groups

variable (a b c : UInt8) {m n : Nat}

/-- A byte that begins one character and ends in the next. -/
theorem high_eq (hn : n < 16) :
    UInt8.ofNat (a.toNat / 4 * 4 + (a.toNat % 4 * 16 + n) / 16) = a := by
  have hsame : a.toNat / 4 * 4 + (a.toNat % 4 * 16 + n) / 16 = a.toNat := by omega
  rw [hsame, UInt8.ofNat_toNat]

/-- A byte whose halves stand in two characters. -/
theorem middle_eq (hn : n < 4) :
    UInt8.ofNat ((m * 16 + b.toNat / 16) % 16 * 16 + (b.toNat % 16 * 4 + n) / 4) = b := by
  have hb := b.toNat_lt
  have hsame : (m * 16 + b.toNat / 16) % 16 * 16 + (b.toNat % 16 * 4 + n) / 4 = b.toNat := by omega
  rw [hsame, UInt8.ofNat_toNat]

/-- A byte that begins in one character and is all of the next. -/
theorem low_eq : UInt8.ofNat ((m * 4 + c.toNat / 64) % 4 * 64 + c.toNat % 64) = c := by
  have hc := c.toNat_lt
  have hsame : (m * 4 + c.toNat / 64) % 4 * 64 + c.toNat % 64 = c.toNat := by omega
  rw [hsame, UInt8.ofNat_toNat]

theorem group?_one :
    group? (symbol (a.toNat / 4)) (symbol (a.toNat % 4 * 16)) '=' '=' = some [a] := by
  have ha := a.toNat_lt
  simp only [group?, value?_symbol (show a.toNat / 4 < 64 by omega),
    value?_symbol (show a.toNat % 4 * 16 < 64 by omega), Option.bind_eq_bind, Option.bind_some,
    and_self, if_true]
  exact congrArg (fun x => some [x]) (high_eq a (Nat.zero_lt_succ 15))

theorem group?_two :
    group? (symbol (a.toNat / 4)) (symbol (a.toNat % 4 * 16 + b.toNat / 16))
      (symbol (b.toNat % 16 * 4)) '=' = some [a, b] := by
  have ha := a.toNat_lt
  have hb := b.toNat_lt
  have hthird : symbol (b.toNat % 16 * 4) ≠ '=' := symbol_ne (by omega)
  simp only [group?, value?_symbol (show a.toNat / 4 < 64 by omega),
    value?_symbol (show a.toNat % 4 * 16 + b.toNat / 16 < 64 by omega),
    value?_symbol (show b.toNat % 16 * 4 < 64 by omega), Option.bind_eq_bind, Option.bind_some,
    hthird, false_and, if_false, if_true]
  rw [high_eq a (by omega)]
  exact congrArg (fun x => some [a, x]) (middle_eq b (Nat.zero_lt_succ 3))

theorem group?_three :
    group? (symbol (a.toNat / 4)) (symbol (a.toNat % 4 * 16 + b.toNat / 16))
      (symbol (b.toNat % 16 * 4 + c.toNat / 64)) (symbol (c.toNat % 64)) = some [a, b, c] := by
  have ha := a.toNat_lt
  have hb := b.toNat_lt
  have hc := c.toNat_lt
  have hfourth : symbol (c.toNat % 64) ≠ '=' := symbol_ne (by omega)
  simp only [group?, value?_symbol (show a.toNat / 4 < 64 by omega),
    value?_symbol (show a.toNat % 4 * 16 + b.toNat / 16 < 64 by omega),
    value?_symbol (show b.toNat % 16 * 4 + c.toNat / 64 < 64 by omega),
    value?_symbol (show c.toNat % 64 < 64 by omega), Option.bind_eq_bind, Option.bind_some]
  rw [if_neg fun h => hfourth h.2, if_neg hfourth, high_eq a (by omega), middle_eq b (by omega),
    low_eq]
  rfl

end Groups

/-! ## Texts -/

/-- The bytes that a text stands for. -/
def decode? : List Char → Option Bytes
  | [] => some []
  | a :: b :: c :: d :: rest => do
    let front ← group? a b c d
    -- a group that is filled up is the last one
    if front.length < 3 ∧ rest ≠ [] then none
    else return front ++ (← decode? rest)
  | _ => none

theorem decode?_encodeChars : ∀ bytes : Bytes, decode? (encodeChars bytes) = some bytes
  | [] => rfl
  | [a] => by
      rw [encodeChars, decode?, group?_one]
      rfl
  | [a, b] => by
      rw [encodeChars, decode?, group?_two]
      rfl
  | a :: b :: c :: rest => by
      rw [encodeChars, decode?, group?_three, Option.bind_eq_bind, Option.bind_some,
        if_neg fun h => absurd h.1 (Nat.lt_irrefl 3), decode?_encodeChars rest]
      rfl

/-- Three bytes or a part of them take four characters. -/
theorem length_encodeChars : ∀ bytes : Bytes,
    (encodeChars bytes).length = (bytes.length + 2) / 3 * 4
  | [] => rfl
  | [a] => by simp [encodeChars]
  | [a, b] => by simp [encodeChars]
  | a :: b :: c :: rest => by
      simp only [encodeChars, List.length_cons, length_encodeChars rest]
      omega

theorem decode?_encode (bytes : Bytes) : decode? (encode bytes).toList = some bytes := by
  rw [encode, String.toList_ofList, decode?_encodeChars]

theorem length_encode (bytes : Bytes) : (encode bytes).length = (bytes.length + 2) / 3 * 4 := by
  rw [encode, String.length_ofList, length_encodeChars]

end MetaRecord.Text.Base64

/-
# `MetaRecord.Toml.Parse` — reading from the front of a text

A grammar rule takes what it can from the front of a text, or refuses.  A rule
that refuses has read nothing, so that another one can be tried in its place.
Here are the rules that the rest is built from: single characters, runs of
them, and what separates one part of a TOML text from the next.
-/
namespace MetaRecord.Toml

/-- A grammar rule: what it reads and the text after it, or nothing. -/
abbrev Parse := StateT (List Char) Option

namespace Parse

/-! ## Characters -/

def one (isMember : Char → Bool) : Parse Char
  | c :: rest => if isMember c then some (c, rest) else none
  | [] => none

def char (c : Char) : Parse Unit := do
  let _ ← one (· = c)

def word (w : String) : Parse Unit := w.toList.forM char

/-- As many characters of a class as there are. -/
def run (isMember : Char → Bool) : Parse (List Char) := fun s =>
  some (s.takeWhile isMember, s.dropWhile isMember)

/-- What a rule reads, or nothing where it refuses. -/
def maybe {α : Type} (p : Parse α) : Parse (Option α) := fun s =>
  match p s with
  | some (a, rest) => some (some a, rest)
  | none => some (none, s)

/-- The given character is next, and is read. -/
def found (c : Char) : Parse Bool := return (← maybe (char c)).isSome

def finish : Parse Unit
  | [] => some ((), [])
  | _ :: _ => none

/-- A rule that may go as many rounds as the text has characters, and one
more; the text itself counts them.  A rule that reads something in every round
never lacks one. -/
def rounds {α : Type} (p : List Char → Parse α) : Parse α := fun s => p (' ' :: s) s

/-! ## Separation -/

/-- A blank, which is a space or a tab. -/
def isBlank (c : Char) : Bool := c = ' ' || c = '\t'

/-- A character that stands for itself in texts and comments: any but the
control characters, and the tab. -/
def isPlain (c : Char) : Bool := c = '\t' || ' ' ≤ c && c ≠ '\x7f'

def blanks : Parse Unit := do
  let _ ← run isBlank

def lineBreak : Parse Unit
  | '\n' :: rest => some ((), rest)
  | '\r' :: '\n' :: rest => some ((), rest)
  | _ => none

def comment : Parse Unit := do
  char '#'
  let _ ← run isPlain

/-- What may follow on a line after its last part, and the end of the line. -/
def lineEnd : Parse Unit := do
  blanks
  let _ ← maybe comment
  lineBreak <|> finish

/-- The text after blanks, line breaks and comments; `commented` says whether
the text begins inside a comment. -/
def skipGap (commented : Bool) : List Char → Option (List Char)
  | [] => some []
  | '\n' :: rest => skipGap false rest
  | '\r' :: '\n' :: rest => skipGap false rest
  | c :: rest =>
    if commented then
      if isPlain c then skipGap true rest else none
    else if isBlank c then skipGap false rest
    else if c = '#' then skipGap true rest
    else some (c :: rest)

/-- Blanks, line breaks and comments between the parts of an array. -/
def gap : Parse Unit := fun s => (skipGap false s).map ((), ·)

/-! ## Digits -/

/-- The value of a digit in a radix of at most sixteen. -/
def digitValue? (radix : Nat) (c : Char) : Option Nat :=
  let value :=
    if '0' ≤ c ∧ c ≤ '9' then c.toNat - '0'.toNat
    else if 'a' ≤ c ∧ c ≤ 'f' then c.toNat - 'a'.toNat + 10
    else if 'A' ≤ c ∧ c ≤ 'F' then c.toNat - 'A'.toNat + 10
    else radix
  if value < radix then some value else none

def digit (radix : Nat) : Parse Nat
  | c :: rest => (digitValue? radix c).map (·, rest)
  | [] => none

/-- The number that digits stand for, the first being the highest. -/
def numberOf (radix : Nat) (digits : List Nat) : Nat :=
  digits.foldl (fun n d => n * radix + d) 0

def fixedNumber (radix width : Nat) : Parse Nat := do
  return numberOf radix (← (List.replicate width ()).mapM fun _ => digit radix)

end Parse

end MetaRecord.Toml

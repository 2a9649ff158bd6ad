/-
# `MetaRecord.Toml.Quoted` — texts between quotes

A text stands between double quotes, where a backslash begins an escape, or
between single quotes, where every character is itself.  Between three quotes
instead of one it may run over several lines; then a line break right after
the opening is left out, every other one counts as a single character, and a
backslash at the end of a line joins it to the next text.
-/
import MetaRecord.Toml.Parse

namespace MetaRecord.Toml

open Parse

/-- How a text is quoted. -/
structure Quotes where
  mark : Char
  /-- There are three marks on either side, and line breaks between them. -/
  multiline : Bool
deriving DecidableEq, Repr

namespace Quotes

/-- A backslash begins an escape. -/
def hasEscapes (q : Quotes) : Bool := q.mark = '"'

/-- The character with the given number, if there is one. -/
def charOf? (n : Nat) : Option Char :=
  if n.isValidChar then some (Char.ofNat n) else none

/-- A character given by `width` hexadecimal digits. -/
def numbered (width : Nat) : Parse Char := do
  charOf? (← fixedNumber 16 width)

def escape : Parse Char := do
  match ← one fun _ => true with
  | 'b' => return '\x08'
  | 't' => return '\t'
  | 'n' => return '\n'
  | 'f' => return '\x0c'
  | 'r' => return '\r'
  | '"' => return '"'
  | '\\' => return '\\'
  | 'u' => numbered 4
  | 'U' => numbered 8
  | _ => failure

/-- The text after blanks and line breaks. -/
def skipBreaks : List Char → List Char
  | '\r' :: '\n' :: rest => skipBreaks rest
  | c :: rest => if isBlank c || c = '\n' then skipBreaks rest else c :: rest
  | [] => []

/-- The end of a line after a backslash, and all the blanks and line breaks
that follow it. -/
def joinLines : Parse Unit := do
  blanks
  lineBreak
  modify skipBreaks

/-- The end of a text of several lines: three marks.  Up to two more before
them belong to the text. -/
def closing (mark : Char) : Parse (List Char) := fun s =>
  let count := (s.takeWhile (· = mark)).length
  if count < 3 then none
  else
    let kept := min (count - 3) 2
    some (List.replicate kept mark, s.drop (kept + 3))

/-- One step through a text. -/
inductive Piece where
  /-- Characters of the text; none where lines are joined. -/
  | more (chars : List Char)
  /-- The end of the text, with its last characters. -/
  | last (chars : List Char)

/-- A line break, or the end of a line joined to the next one. -/
def breakPiece (q : Quotes) : Parse Piece := do
  if (← maybe lineBreak).isSome then return .more ['\n']
  if q.hasEscapes then
    char '\\'
    joinLines
    return .more []
  else failure

/-- An escape, or a character that stands for itself. -/
def charPiece (q : Quotes) : Parse Piece := do
  if q.hasEscapes then
    if ← found '\\' then return .more [← escape]
  return .more [← one isPlain]

/-- The piece at the front of a text. -/
def piece (q : Quotes) : Parse Piece :=
  if q.multiline then .last <$> closing q.mark <|> q.breakPiece <|> q.charPiece
  else char q.mark *> pure (.last []) <|> q.charPiece

/-- The rest of a text whose characters so far are `done`, latest first. -/
def body (q : Quotes) (done : List Char) : (left : List Char) → Parse String
  | [] => failure
  | _ :: left => do
    match ← q.piece with
    | .more chars => q.body (chars.reverse ++ done) left
    | .last chars => return String.ofList (done.reverse ++ chars)

def text (q : Quotes) : Parse String := do
  if q.multiline then
    (List.replicate 3 q.mark).forM char
    let _ ← maybe lineBreak
  else char q.mark
  rounds (q.body [])

end Quotes

/-- A text on one line, in either kind of quotes. -/
def quotedLine : Parse String :=
  Quotes.text ⟨'"', false⟩ <|> Quotes.text ⟨'\'', false⟩

def quoted : Parse String :=
  Quotes.text ⟨'"', true⟩ <|> Quotes.text ⟨'\'', true⟩ <|> quotedLine

/-! ## Keys -/

/-- A character of a key without quotes. -/
def isKeyChar (c : Char) : Bool := c.isAlphanum || c = '-' || c = '_'

/-- One part of a key, with the blanks around it. -/
def keyPart : Parse String := do
  blanks
  let part ← quotedLine <|> bare
  blanks
  return part
where
  bare : Parse String := do
    let chars ← run isKeyChar
    if chars.isEmpty then failure else return String.ofList chars

/-- The most parts that a key may have. -/
def maxKeyParts : Nat := 79

/-- The parts of a key, in at most `n` parts. -/
def keyParts : Nat → Parse (List String)
  | 0 => failure
  | n + 1 => do
    let part ← keyPart
    if ← found '.' then return part :: (← keyParts n) else return [part]

/-- A key, as the names that its dots part. -/
def key : Parse (List String) := keyParts maxKeyParts

end MetaRecord.Toml

/-
# `MetaRecord.Json.Printer` — JSON values as text

Two layouts of one grammar: compact, without any blank, and indented, with two
blanks a level and one item or member a line.  Texts escape the quote, the
backslash and the control characters below the blank, and nothing else, so a
line break never stands in a compact text.
-/
import MetaRecord.Json.Basic
import MetaRecord.Decimal.Shortest
import MetaRecord.Text.Numeral

namespace MetaRecord.Json

/-- Numbers are positional from 0.00001 up to below 10¹⁶. -/
def numberStyle : Decimal.Style := ⟨-4, 16⟩

/-- How a character stands in a quoted text. -/
def escape (c : Char) : List Char :=
  match c with
  | '"' => ['\\', '"']
  | '\\' => ['\\', '\\']
  | '\x08' => ['\\', 'b']
  | '\x0c' => ['\\', 'f']
  | '\n' => ['\\', 'n']
  | '\r' => ['\\', 'r']
  | '\t' => ['\\', 't']
  | c => if c.toNat < 0x20 then '\\' :: 'u' :: Text.fixedHex 4 c.toNat else [c]

def quoted (s : String) : List Char := '"' :: s.toList.flatMap escape ++ ['"']

/-- The text of a value that holds no others. -/
def scalarChars : Json → List Char
  | .bool true => "true".toList
  | .bool false => "false".toList
  | .int n => Text.signedDecimal n
  | .float x => numberStyle.text x
  | .str s => quoted s
  | _ => "null".toList

/-! ## Compact -/

mutual

def compactChars : Json → List Char
  | .arr items => '[' :: compactItems items ++ [']']
  | .obj members => '{' :: compactMembers members ++ ['}']
  | scalar => scalarChars scalar

/-- The compact text of an array's items. -/
def compactItems : List Json → List Char
  | [] => []
  | [item] => compactChars item
  | item :: rest => compactChars item ++ ',' :: compactItems rest

/-- The compact text of an object's members. -/
def compactMembers : List (String × Json) → List Char
  | [] => []
  | [(name, value)] => quoted name ++ ':' :: compactChars value
  | (name, value) :: rest => quoted name ++ ':' :: compactChars value ++ ',' :: compactMembers rest

end

def compact (v : Json) : String := String.ofList v.compactChars

/-! ## Indented -/

/-- A line break and the blanks that open a line at a level. -/
def newLine (level : Nat) : List Char := '\n' :: List.replicate (2 * level) ' '

mutual

/-- The indented text of a value that stands at a level. -/
def prettyChars (level : Nat) : Json → List Char
  | .arr [] => ['[', ']']
  | .obj [] => ['{', '}']
  | .arr items => '[' :: prettyItems (level + 1) items ++ newLine level ++ [']']
  | .obj members => '{' :: prettyMembers (level + 1) members ++ newLine level ++ ['}']
  | scalar => scalarChars scalar

/-- The indented text of an array's items, each on its own line. -/
def prettyItems (level : Nat) : List Json → List Char
  | [] => []
  | [item] => newLine level ++ prettyChars level item
  | item :: rest => newLine level ++ prettyChars level item ++ ',' :: prettyItems level rest

/-- The indented text of an object's members, each on its own line. -/
def prettyMembers (level : Nat) : List (String × Json) → List Char
  | [] => []
  | [(name, value)] => newLine level ++ quoted name ++ ':' :: ' ' :: prettyChars level value
  | (name, value) :: rest =>
    newLine level ++ quoted name ++ ':' :: ' ' :: prettyChars level value ++
      ',' :: prettyMembers level rest

end

def pretty (v : Json) : String := String.ofList (v.prettyChars 0)

end MetaRecord.Json

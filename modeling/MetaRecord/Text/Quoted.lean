/-
# `MetaRecord.Text.Quoted` — texts quoted for a reader

A quoted text shows exactly which text it is: quotes and backslashes are
escaped, the common control characters have short forms, and every other
character that does not show by itself is written as its number.
-/
import MetaRecord.Text.Hidden

namespace MetaRecord.Text.Quoted

/-- How a character stands between quotes. -/
def escape (c : Char) : List Char :=
  match c with
  | '"' => ['\\', '"']
  | '\\' => ['\\', '\\']
  | '\x00' => ['\\', '0']
  | '\t' => ['\\', 't']
  | '\n' => ['\\', 'n']
  | '\r' => ['\\', 'r']
  | c => if isHidden c then '\\' :: 'u' :: '{' :: Nat.toDigits 16 c.toNat ++ ['}'] else [c]

def encode (s : String) : String :=
  String.ofList ('"' :: s.toList.flatMap escape ++ ['"'])

def encodeList (texts : List String) : String :=
  "[" ++ ", ".intercalate (texts.map encode) ++ "]"

end MetaRecord.Text.Quoted

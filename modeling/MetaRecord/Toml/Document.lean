/-
# `MetaRecord.Toml.Document` — whole TOML texts

A text is read line by line.  A line is a header, which says where the lines
after it belong, or a key with its value, or says nothing.
-/
import MetaRecord.Toml.Moment
import MetaRecord.Toml.Number
import MetaRecord.Toml.Quoted
import MetaRecord.Toml.Value

namespace MetaRecord.Toml

open Parse

/-! ## Values -/

/-- A value that holds no others. -/
def scalar : Parse Value :=
  .text <$> quoted
  <|> word "true" *> pure (.boolean true)
  <|> word "false" *> pure (.boolean false)
  <|> Moment.moment *> pure .moment
  <|> Number.float *> pure .float
  <|> .integer <$> Number.integer

/-- The rest of an array after the items `done`, latest first. -/
def items (item : Parse Value) (done : List Value) : (left : List Char) → Parse Value
  | [] => failure
  | _ :: left => do
    gap
    if ← found ']' then return .array done.reverse
    let done := (← item) :: done
    gap
    if ← found ',' then items item done left
    else
      char ']'
      return .array done.reverse

def assignment (item : Parse Value) : Parse (List String × Value) := do
  let name ← key
  char '='
  blanks
  return (name, ← item)

/-- The rest of a table in braces after the members `done`. -/
def members (item : Parse Value) (done : Members) : (left : List Char) → Parse Value
  | [] => failure
  | _ :: left => do
    let (name, v) ← assignment item
    let done ← done.assign v name
    blanks
    if ← found ',' then members item done left
    else
      char '\x7d'
      return .table .braces done

/-- A table in braces, after the first one. -/
def braces (item : Parse Value) : Parse Value := do
  blanks
  if ← found '\x7d' then return .table .braces [] else rounds (members item [])

/-- The most arrays and tables in braces that may stand one in another. -/
def maxNesting : Nat := 79

/-- A value in which at most `depth` arrays and tables in braces stand one in
another. -/
def value : (depth : Nat) → Parse Value
  | 0 => scalar
  | depth + 1 => do
    if ← found '[' then rounds (items (value depth) [])
    else if ← found '\x7b' then braces (value depth)
    else scalar

/-! ## Lines -/

/-- A document under way: what is known so far, and the path of the table that
the next lines belong to. -/
structure Draft where
  root : Members
  path : List String

namespace Draft

/-- The draft after a header; `element` says whether it adds to an array of
tables. -/
def openHeader (element : Bool) (d : Draft) (path : List String) : Option Draft := do
  let name ← path.getLast?
  let change := if element then Members.openElement name else Members.openTable name
  return ⟨← d.root.within change path.dropLast, path⟩

/-- The draft with a value under a key of the current table. -/
def assign (d : Draft) (name : List String) (v : Value) : Option Draft := do
  return { d with root := ← d.root.within (Members.assign v name) d.path }

end Draft

def header (d : Draft) : Parse Draft := do
  let element ← found '['
  let path ← key
  char ']'
  if element then char ']'
  d.openHeader element path

/-- A line, and the draft after it. -/
def line (d : Draft) : Parse Draft := do
  blanks
  if (← maybe lineEnd).isSome then return d
  let next ←
    if ← found '[' then header d
    else
      let (name, v) ← assignment (value maxNesting)
      d.assign name v
  lineEnd
  return next

def lines (d : Draft) : (left : List Char) → Parse Members
  | [] => failure
  | _ :: left => do
    if (← maybe finish).isSome then return d.root
    lines (← line d) left

/-- The members of the table that a text describes, if the text is TOML.  A
byte order mark in front is left out. -/
def parse? (text : String) : Option Members := do
  let whole := do
    let _ ← found '\ufeff'
    rounds (lines ⟨[], []⟩)
  return (← whole text.toList).1

end MetaRecord.Toml

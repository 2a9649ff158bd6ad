/-
# `MetaRecord.MessagePack.Error` — why a value could not be read

Every failed read names one cause.  The wording of each is in `message`, and
nowhere else.
-/
import MetaRecord.Text.Numeral

namespace MetaRecord.MessagePack

/-- The kind of value a read asks for. -/
inductive Kind where
  | bin | str | uint | int | array | map | nil | bool | float | ext | object
deriving DecidableEq, Repr

/-- The name of a kind in messages. -/
def Kind.name : Kind → String
  | .bin => "bin"
  | .str => "str"
  | .uint => "uint"
  | .int => "int"
  | .array => "array"
  | .map => "map"
  | .nil => "nil"
  | .bool => "bool"
  | .float => "float"
  | .ext => "ext"
  | .object => "object"

/-- The range of integers a read asks for. -/
inductive Range where
  | unsigned64 | signed64 | unsigned32 | unsigned8
deriving DecidableEq, Repr

/-- The name of a range in messages. -/
def Range.name : Range → String
  | .unsigned64 => "u64"
  | .signed64 => "i64"
  | .unsigned32 => "u32"
  | .unsigned8 => "u8"

/-- Why a read failed. -/
inductive ReadError where
  /-- The bytes end before the value does: `need` more are wanted, `left` remain. -/
  | short (need left : Nat)
  /-- The first byte announces another kind of value. -/
  | wrongKind (expected : Kind) (found : UInt8)
  /-- The integer is outside the range asked for. -/
  | outOfRange (range : Range)
  /-- A text is not UTF-8. -/
  | invalidText
  /-- A byte string of `got` bytes stands where one of `want` belongs. -/
  | wrongLength (want got : Nat)
  /-- The value nests deeper than `limit` levels. -/
  | tooDeep (limit : Nat)
deriving DecidableEq, Repr

def ReadError.message : ReadError → String
  | .short need left => s!"short read: need {need} bytes, {left} remaining"
  | .wrongKind expected found =>
    "expected " ++ expected.name ++ ", found marker " ++ Text.code8 found
  | .outOfRange range => "integer out of range for " ++ range.name
  | .invalidText => "string is not valid UTF-8"
  | .wrongLength want got => s!"expected {want} bytes, found {got}"
  | .tooDeep limit => s!"nesting deeper than {limit} levels"

end MetaRecord.MessagePack

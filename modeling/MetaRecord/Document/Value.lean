/-
# `MetaRecord.Document.Value` — MessagePack values as JSON

A value is rendered with everything nested in it: byte strings as Base64,
map keys as texts, extensions that hold a time as that time and others with
their tag.  Nesting is followed for a hundred levels below the root; levels
are counted down, so the rendering is a plain recursion.
-/
import MetaRecord.Calendar.Instant
import MetaRecord.Json.Printer
import MetaRecord.MessagePack.Reader
import MetaRecord.Text.Base64

namespace MetaRecord.Document

open MessagePack (Lead Read ReadError)
open MessagePack.Read (Extension)

/-- The deepest level below the root that is rendered. -/
def maxDepth : Nat := 100

/-! ## Times -/

/-- The tag of the time extension in stored metadata. -/
def storedTimeTag : Int8 := 5

/-- The tag of MessagePack's own time extension. -/
def timestampTag : Int8 := -1

/-- The seconds and nanoseconds that an extension holds, if it is a time. -/
def timeFields (e : Extension) : Option (Int × Nat) :=
  let number (bytes : Bytes) := bytes.toNatBE
  let seconds (bytes : Bytes) := Read.signed 8 bytes.toNatBE
  if e.tag = storedTimeTag then
    if e.data.length = 12 then some (seconds (e.data.take 8), number (e.data.drop 8)) else none
  else if e.tag = timestampTag then
    match e.data.length with
    | 4 => some (number e.data, 0)
    -- Thirty bits of nanoseconds stand above thirty-four bits of seconds.
    | 8 => some (number e.data % 0x400000000, number e.data / 0x400000000)
    | 12 => some (seconds (e.data.drop 4), number (e.data.take 4))
    | _ => none
  else none

def extension (e : Extension) : Json :=
  match (timeFields e).bind fun (seconds, nanos) => Calendar.Instant.ofUnix? seconds nanos with
  | some instant => .str instant.text
  | none => Json.object [("data", .str (Text.Base64.encode e.data)), ("type", .int e.tag.toInt)]

/-! ## Values -/

/-- A map key as text.  A key that is neither a text nor a byte string is
rendered like any value, and its compact text is the name. -/
def key (value : Read Json) : Read String := fun buf =>
  match Read.mapKey buf with
  | .ok (name, rest) => .ok (Text.ofUtf8Lossy name, rest)
  | .error (.wrongKind ..) => do
    let (v, rest) ← value buf
    return (v.compact, rest)
  | .error e => .error e

def pair (value : Read Json) : Read (String × Json) := do
  let name ← key value
  return (name, ← value)

/-- The value at the front, with at most `levels` levels, its own among them. -/
def value : (levels : Nat) → Read Json
  | 0 => throw (.tooDeep maxDepth)
  | levels + 1 => do
    let b ← Read.upcoming
    match Lead.ofByte b with
    | .nil =>
      Read.nil
      return .null
    | .bool _ => return .bool (← Read.bool)
    | .positive _ | .uint _ => return .int (← Read.uint).toNat
    | .negative _ | .int _ => return .int (← Read.int).toInt
    | .float _ =>
      let x ← Read.float
      return if x.isFinite then .float x else .null
    | .str _ | .strSized _ => return .str (← Read.str)
    | .binSized _ => return .str (Text.Base64.encode (← Read.bin))
    | .array _ | .arraySized _ =>
      let n ← Read.arrayLength
      return .arr (← Read.times (value levels) n.toNat [])
    | .map _ | .mapSized _ =>
      let n ← Read.mapLength
      return Json.object (← Read.times (pair (value levels)) n.toNat [])
    | .ext _ | .extSized _ => return extension (← Read.extension)
    | .unused => throw (.wrongKind .object b)

/-- The value at the front of a byte string, and the bytes after it. -/
def render (buf : Bytes) : Except ReadError (Json × Bytes) := value (maxDepth + 1) buf

end MetaRecord.Document

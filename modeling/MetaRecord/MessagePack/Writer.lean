/-
# `MetaRecord.MessagePack.Writer` — writing one value

Each writer gives the smallest encoding of its value within its own family:
unsigned integers and lengths take unsigned markers, signed integers take
signed ones, and the two never mix.  Lengths above 2³² - 1 have no encoding;
callers keep byte strings and counts within it.
-/
import MetaRecord.MessagePack.Lead
import MetaRecord.Text.Utf8

namespace MetaRecord.MessagePack.Write

/-- A first byte followed by `n` in `width` bytes. -/
def sized (code : UInt8) (width n : Nat) : Bytes := code :: Bytes.ofNatBE width n

/-- A length after one of three first bytes, for one, two and four bytes. -/
def length (code₁ code₂ code₄ : UInt8) (n : Nat) : Bytes :=
  if n < 0x100 then sized code₁ 1 n
  else if n < 0x10000 then sized code₂ 2 n
  else sized code₄ 4 n

def bin (data : Bytes) : Bytes := length 0xc4 0xc5 0xc6 data.length ++ data

def str (s : String) : Bytes :=
  let data := Text.utf8 s
  (if data.length < 32 then [UInt8.ofNat (0xa0 + data.length)]
    else length 0xd9 0xda 0xdb data.length) ++ data

def uint (v : UInt64) : Bytes :=
  let n := v.toNat
  if n < 0x80 then [UInt8.ofNat n]
  else if n < 0x100 then sized 0xcc 1 n
  else if n < 0x10000 then sized 0xcd 2 n
  else if n < 0x100000000 then sized 0xce 4 n
  else sized 0xcf 8 n

/-- The number that two's complement of `width` bytes writes for `v`. -/
def complement (width : Nat) (v : Int) : Nat := (v % (Nat.pow 256 width : Nat)).toNat

/-- A signed integer.  From 128 on it takes two bytes, although one unsigned
byte would hold it: the signed markers are kept throughout. -/
def int (w : Int64) : Bytes :=
  let v := w.toInt
  if 0 ≤ v ∧ v < 0x80 then [UInt8.ofNat v.toNat]
  else if -0x20 ≤ v ∧ v < 0 then [UInt8.ofNat (complement 1 v)]
  else if -0x80 ≤ v ∧ v < 0 then sized 0xd0 1 (complement 1 v)
  else if -0x8000 ≤ v ∧ v < 0x8000 then sized 0xd1 2 (complement 2 v)
  else if -0x80000000 ≤ v ∧ v < 0x80000000 then sized 0xd2 4 (complement 4 v)
  else sized 0xd3 8 (complement 8 v)

/-- The header of an array of `n` elements. -/
def arrayLength (n : UInt32) : Bytes :=
  if n.toNat < 16 then [UInt8.ofNat (0x90 + n.toNat)]
  else if n.toNat < 0x10000 then sized 0xdc 2 n.toNat
  else sized 0xdd 4 n.toNat

/-- The header of a map of `n` pairs. -/
def mapLength (n : UInt32) : Bytes :=
  if n.toNat < 16 then [UInt8.ofNat (0x80 + n.toNat)]
  else if n.toNat < 0x10000 then sized 0xde 2 n.toNat
  else sized 0xdf 4 n.toNat

def nil : Bytes := [0xc0]

def bool (b : Bool) : Bytes := [if b then 0xc3 else 0xc2]

end MetaRecord.MessagePack.Write

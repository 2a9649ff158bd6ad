/-
# `MetaRecord.Record.Preamble` — the first eight bytes of a record

A record opens with four magic bytes and its format version, two little-endian
numbers of two bytes each.  Records from before versions were numbered carry
four fixed bytes in the version's place, and those always mean version 1.0.
A record that holds nothing after these eight bytes is no record.

Main statement: `parse_bytes_append`, a version written by
`FormatVersion.bytes` before a payload is read back with the payload.
-/
import MetaRecord.DecodeError

namespace MetaRecord

/-- The major and minor version of a record's format. -/
structure FormatVersion where
  major : UInt16
  minor : UInt16
deriving DecidableEq, Repr

namespace FormatVersion

/-- The bytes every record opens with. -/
def magic : Bytes := [0x58, 0x4c, 0x32, 0x20]

/-- The version bytes of records from before versions were numbered. -/
def sentinel : Bytes := [0x31, 0x20, 0x20, 0x20]

/-- The version that records are written in. -/
def current : FormatVersion := ⟨1, 3⟩

/-- The version that the sentinel stands for. -/
def legacy : FormatVersion := ⟨1, 0⟩

def highestMajor : UInt16 := 1

/-- The version's own four bytes. -/
def versionBytes (v : FormatVersion) : Bytes :=
  Bytes.ofUInt16LE v.major ++ Bytes.ofUInt16LE v.minor

/-- The eight bytes that open a record of this version. -/
def bytes (v : FormatVersion) : Bytes := magic ++ v.versionBytes

/-- The version that four version bytes stand for. -/
def ofVersionBytes (a b c d : UInt8) : FormatVersion :=
  if [a, b, c, d] = sentinel then legacy
  else ⟨Bytes.toUInt16LE a b, Bytes.toUInt16LE c d⟩

/-- Order of versions: by the major version, then by the minor one. -/
def compare (v w : FormatVersion) : Ordering :=
  (Ord.compare v.major w.major).then (Ord.compare v.minor w.minor)

def text (v : FormatVersion) : String := s!"{v.major}.{v.minor}"

end FormatVersion

/-- A recognised opening and the payload after it. -/
structure Preamble where
  version : FormatVersion
  payload : Bytes
deriving DecidableEq

namespace Preamble

/-- Recognise the opening of a record, of whatever major version. -/
def parse (buf : Bytes) : Except DecodeError Preamble :=
  match buf with
  | m₁ :: m₂ :: m₃ :: m₄ :: a :: b :: c :: d :: p :: payload =>
    if [m₁, m₂, m₃, m₄] = FormatVersion.magic then
      .ok ⟨FormatVersion.ofVersionBytes a b c d, p :: payload⟩
    else .error (.badMagic ⟨[m₁, m₂, m₃, m₄], rfl⟩)
  | short => .error (.tooShort short.length)

/-- A version that does not spell the sentinel is read back from its bytes. -/
theorem ofVersionBytes_versionBytes (v : FormatVersion)
    (h : v.versionBytes ≠ FormatVersion.sentinel) :
    FormatVersion.ofVersionBytes (UInt8.ofNat v.major.toNat) (UInt8.ofNat (v.major.toNat / 256))
      (UInt8.ofNat v.minor.toNat) (UInt8.ofNat (v.minor.toNat / 256)) = v := by
  have hne : ¬ [UInt8.ofNat v.major.toNat, UInt8.ofNat (v.major.toNat / 256),
      UInt8.ofNat v.minor.toNat, UInt8.ofNat (v.minor.toNat / 256)] = FormatVersion.sentinel := h
  unfold FormatVersion.ofVersionBytes
  rw [if_neg hne, Bytes.toUInt16LE_ofUInt16LE, Bytes.toUInt16LE_ofUInt16LE]

/-- A version written before a payload is read back with the payload. -/
theorem parse_bytes_append (v : FormatVersion) (p : UInt8) (payload : Bytes)
    (h : v.versionBytes ≠ FormatVersion.sentinel) :
    parse (v.bytes ++ p :: payload) = .ok ⟨v, p :: payload⟩ := by
  have hv := ofVersionBytes_versionBytes v h
  simp only [FormatVersion.bytes, FormatVersion.magic, FormatVersion.versionBytes,
    Bytes.ofUInt16LE, List.cons_append, List.nil_append, parse, if_true]
  rw [hv]

/-- Refuse a major version above the highest one known. -/
def checkMajor (p : Preamble) : Except DecodeError Unit :=
  if FormatVersion.highestMajor < p.version.major then
    .error (.unsupportedMajor p.version.major FormatVersion.highestMajor)
  else .ok ()

/-- Recognise the opening of a record whose major version is known. -/
def validate (buf : Bytes) : Except DecodeError Preamble := do
  let p ← parse buf
  p.checkMajor
  return p

end Preamble

end MetaRecord

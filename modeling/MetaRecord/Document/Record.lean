/-
# `MetaRecord.Document.Record` — a record as one JSON document

The document names the format version and the checksum's standing, and renders
the metadata or, version by version, the index.  On request it lists the
inline store as keys and sizes.  It is complete or there is none: metadata that
cannot be rendered fail the whole document.
-/
import MetaRecord.Document.Value
import MetaRecord.Record.Draft

namespace MetaRecord.Document

def summary (h : Version.Header) : Json :=
  Json.object
    [("VersionID", .str (Bytes.hex h.id.bytes)),
      ("ModTime", .str h.instant.text),
      ("Signature", .str (Bytes.hex h.signature.bytes)),
      ("Type", .int h.type.toNat),
      ("TypeName", .str h.typeName),
      ("Flags", .int h.flags.bits.toNat)]

def standing : Checksum.Status → Json
  | .absent => Json.object [("status", .str "absent")]
  | .valid => Json.object [("status", .str "valid")]
  | .mismatch stored computed =>
    Json.object
      [("status", .str "mismatch"), ("stored", .int stored.toNat),
        ("computed", .int computed.toNat)]

/-- Metadata that must be one value and nothing after it. -/
def metadata (buf : Bytes) : Except DecodeError Json :=
  match render buf with
  | .error e => .error (.malformedMetadata e)
  | .ok (v, []) => .ok v
  | .ok (_, rest) =>
    .error (.malformedMetadata (.wrongLength (buf.length - rest.length) buf.length))

/-- The document of the version at a position of the index. -/
def version (position : Nat) (e : Version.Entry) : Except DecodeError Json := do
  let v ← metadata e.metadata
  return Json.object
    [("Idx", .int position), ("Header", summary e.header), ("Metadata", v)]

/-- The documents of versions from a position on, after those already `done`,
which are kept latest first. -/
def versions : (position : Nat) → (done : List Json) → List Version.Entry →
    Except DecodeError (List Json)
  | _, done, [] => .ok done.reverse
  | position, done, e :: rest =>
    match version position e with
    | .ok v => versions (position + 1) (v :: done) rest
    | .error e => .error e

/-- The member that holds a payload's metadata or versions.  Legacy metadata
may have bytes after them. -/
def content : Record.Payload → Except DecodeError (String × Json)
  | .legacy buf => do
    let (v, _) ← (render buf).mapError .malformedMetadata
    return ("Metadata", v)
  | .single buf .. => do
    return ("Metadata", ← metadata buf)
  | .multi index .. => do
    return ("Versions", .arr (← versions 0 [] index.entries))

/-- The keys of an inline store with the sizes of their values. -/
def sizes (store : Inline.Store) : Json :=
  Json.object (store.sizes.map fun (key, size) => (key, .int size))

def record (r : Record) (includeInline : Bool) : Except DecodeError Json := do
  let body ← content r.payload
  let inline? := if includeInline then r.store? else none
  return Json.object
    ([("Major", .int r.version.major.toNat), ("Minor", .int r.version.minor.toNat),
        ("Checksum", standing r.status), body] ++
      (inline?.map fun store => ("Inline", sizes store)).toList)

end MetaRecord.Document

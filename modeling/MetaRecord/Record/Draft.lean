/-
# `MetaRecord.Record.Draft` — records being written

A draft is an index and an inline store.  Only the layout with an index of
versions is ever written, at the current version, and always with a checksum.
A record of an older layout is never written back, so it yields no draft.
-/
import MetaRecord.Record.Basic

namespace MetaRecord.Record

/-- A record being written. -/
structure Draft where
  index : Version.Index
  store : Inline.Store
deriving DecidableEq

namespace Draft

/-- The draft without versions or inline values. -/
def empty : Draft := ⟨.empty, .empty⟩

/-- Put a version at its place in the order, in place of the one with its
identifier. -/
def addVersion (d : Draft) (header : Version.Header) (metadata : Bytes) : Draft :=
  { d with index := d.index.insert (.new header metadata) }

/-- Take out the version with the given identifier. -/
def removeVersion (d : Draft) (id : Version.Id) : Option Version.Entry × Draft :=
  let (removed, index) := d.index.remove id
  (removed, { d with index })

def setStore (d : Draft) (store : Inline.Store) : Draft := { d with store }

def bytes (d : Draft) : Bytes :=
  let blob := d.index.encode
  FormatVersion.current.bytes ++
    MessagePack.Write.bin blob ++
    MessagePack.Write.uint (Checksum.ofBlob blob).toUInt64 ++
    d.store.bytes

end Draft

/-- Start rewriting a record. -/
def toDraft? (r : Record) : Option Draft :=
  match r.payload with
  | .multi index _ _ store => some ⟨index, store⟩
  | _ => none

end MetaRecord.Record

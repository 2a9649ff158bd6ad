/-
# `MetaRecord.Version.Index` — the retained versions of an object

An index keeps every version of an object, delete markers included, newest
first.  Its blob opens with the revisions of its headers and of its metadata
and a count; each version then is two byte strings, its header and its
metadata, and the metadata are not looked into.

A blob is walked by `walk`, which hands each pair of byte strings to a visitor
in stored order; `Index.decode` is the walk whose visitor decodes the header
and keeps the entry.
-/
import MetaRecord.Version.Header

namespace MetaRecord.Version

open MessagePack (Read ReadError)

/-! ## Revisions -/

/-- The revisions that open an index blob. -/
structure Revisions where
  header : UInt64
  metadata : UInt64
deriving DecidableEq, Repr

/-- The revisions that are written, which are the highest ones known. -/
def Revisions.current : Revisions := ⟨2, 2⟩

/-! ## Walking a blob -/

/-- What a visitor does with the pair at one position: a new state, or an
error that ends the walk. -/
abbrev Visitor (σ : Type) := (index : Nat) → (header metadata : Bytes) → σ → Except DecodeError σ

/-- A read whose failure makes the index malformed. -/
def indexed {α : Type} (r : Read α) (buf : Bytes) : Except DecodeError (α × Bytes) :=
  (r buf).mapError .malformedIndex

/-- Visit `n` pairs from the position `index` on.  The state as it was when
the walk ended is given also when it ended in an error: pairs visited before
the error stay visited. -/
def visitPairs {σ : Type} (visit : Visitor σ) : (n index : Nat) → σ → Bytes →
    Except DecodeError Unit × σ
  | 0, _, state, _ => (.ok (), state)
  | n + 1, index, state, buf =>
    match indexed Read.bin buf with
    | .error e => (.error e, state)
    | .ok (header, buf) =>
      match indexed Read.bin buf with
      | .error e => (.error e, state)
      | .ok (metadata, buf) =>
        match visit index header metadata state with
        | .error e => (.error e, state)
        | .ok state => visitPairs visit n (index + 1) state buf

/-- The revisions and the number of pairs that a blob declares, and the bytes
after them. -/
def opening (blob : Bytes) : Except DecodeError ((Revisions × Nat) × Bytes) := do
  let known := Revisions.current
  let (header, rest) ← indexed Read.uint blob
  if known.header < header then throw (.unknownHeaderRevision header known.header)
  let (metadata, rest) ← indexed Read.uint rest
  if known.metadata < metadata then throw (.unknownMetadataRevision metadata known.metadata)
  let (count, rest) ← indexed Read.int rest
  if count < 0 then throw (.negativeVersionCount count)
  return ((⟨header, metadata⟩, count.toInt.toNat), rest)

/-- Walk an index blob: the revisions it declares or the error that ended the
walk, and the visitor's last state in either case. -/
def walk {σ : Type} (blob : Bytes) (visit : Visitor σ) (start : σ) :
    Except DecodeError Revisions × σ :=
  match opening blob with
  | .error e => (.error e, start)
  | .ok ((revisions, count), rest) =>
    let (outcome, state) := visitPairs visit count 0 start rest
    (outcome.map fun _ => revisions, state)

/-! ## Searching by halves -/

/-- The end of a run of `before` positions, for a run that starts at `base`
and ends within the `size` positions from there on.  Half of the positions
that are left are given up at each step. -/
def bisect (before : Nat → Bool) (base size : Nat) : Nat :=
  if size ≤ 1 then
    if size = 1 ∧ before base then base + 1 else base
  else
    let middle := base + size / 2
    bisect before (if before middle then middle else base) (size - size / 2)
termination_by size

/-- The number of elements with the property `p`, in a list that has all of
them at its front. -/
def partitionPoint {α : Type} (p : α → Bool) (xs : List α) : Nat :=
  bisect (fun i => xs[i]?.any p) 0 xs.length

/-! ## Entries and the index -/

/-- One retained version: its header, the header's bytes as they are stored,
and its metadata. -/
structure Entry where
  header : Header
  headerBytes : Bytes
  metadata : Bytes
deriving DecidableEq

/-- A new version, whose header is stored the way headers are written. -/
def Entry.new (header : Header) (metadata : Bytes) : Entry := ⟨header, header.bytes, metadata⟩

/-- The retained versions of an object. -/
structure Index where
  revisions : Revisions
  entries : List Entry
deriving DecidableEq

namespace Index

def empty : Index := ⟨.current, []⟩

/-- The visitor that decodes each header and keeps the entry, latest first. -/
def collect : Visitor (List Entry) := fun _ headerBytes metadata entries => do
  let header ← Header.decode headerBytes
  return ⟨header, headerBytes, metadata⟩ :: entries

def decode (blob : Bytes) : Except DecodeError Index :=
  let (outcome, entries) := walk blob collect []
  outcome.map fun revisions => ⟨revisions, entries.reverse⟩

def entryBytes (e : Entry) : Bytes :=
  MessagePack.Write.bin e.headerBytes ++ MessagePack.Write.bin e.metadata

/-- The index blob, at the current revisions whatever revisions were read. -/
def encode (index : Index) : Bytes :=
  MessagePack.Write.uint Revisions.current.header ++
    MessagePack.Write.uint Revisions.current.metadata ++
    MessagePack.Write.int (Int64.ofNat index.entries.length) ++
    index.entries.flatMap entryBytes

/-- The first version, which is the newest when the index is sorted. -/
def latest? (index : Index) : Option Entry := index.entries.head?

/-- The first version with the given identifier. -/
def find? (index : Index) (id : Id) : Option Entry :=
  index.entries.find? fun e => e.header.id = id

/-- No version stands right before one that sorts before it. -/
def isSorted (index : Index) : Bool :=
  go index.entries
where
  /-- The same for a list of entries. -/
  go : List Entry → Bool
    | a :: b :: rest => !decide (b.header.sortsBefore a.header) && go (b :: rest)
    | _ => true

/-- The first version with the given identifier, and the index without it. -/
def remove (index : Index) (id : Id) : Option Entry × Index :=
  (index.find? id,
    { index with entries := index.entries.eraseP fun e => e.header.id = id })

/-- Put a version after all that sort strictly before it, in place of the one
with its identifier. -/
def insert (index : Index) (entry : Entry) : Index :=
  let others := (index.remove entry.header.id).2.entries
  let place := partitionPoint (fun e => e.header.sortsBefore entry.header) others
  { index with entries := others.take place ++ entry :: others.drop place }

/-- Bring the versions into order; equals keep the order they have. -/
def sort (index : Index) : Index :=
  { index with
    entries := index.entries.mergeSort fun a b => !decide (b.header.sortsBefore a.header) }

end Index

end MetaRecord.Version

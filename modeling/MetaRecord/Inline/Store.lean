/-
# `MetaRecord.Inline.Store` — small values kept inside a record

An inline store maps keys to values and keeps the order in which keys were
added.  Its bytes are a version and a MessagePack map from texts to byte
strings.  No bytes at all are an empty store, and so is whatever follows the
version 0.

A store keeps its bytes exactly as they were read or written; its entries are
what a forward scan over those bytes yields.
-/
import MetaRecord.DecodeError
import MetaRecord.MessagePack.Reader
import MetaRecord.MessagePack.Writer

namespace MetaRecord.Inline

open MessagePack (Read ReadError)

abbrev Entry := String × Bytes

/-- The highest version known, which is also the one written. -/
def currentVersion : UInt8 := 1

/-! ## The forward scan -/

/-- A read whose failure makes the store malformed. -/
def inlined {α : Type} (r : Read α) (buf : Bytes) : Except DecodeError (α × Bytes) :=
  (r buf).mapError .malformedInline

/-- The entry at the front, which is the one at position `index`. -/
def readEntry (index : Nat) (buf : Bytes) : Except DecodeError (Entry × Bytes) := do
  let (key, buf) ← inlined Read.mapKey buf
  if key.isEmpty then throw (.emptyInlineKey index)
  let some key := Text.ofUtf8? key | throw (.malformedInline .invalidText)
  let (value, buf) ← inlined Read.bin buf
  return ((key, value), buf)

/-- A scan under way: the bytes not read yet, the number of entries read, the
number the map still declares, and whether an entry could not be read. -/
structure Scan where
  rest : Bytes
  index : Nat
  remaining : Nat
  failed : Bool
deriving DecidableEq

namespace Scan

def nothing : Scan := ⟨[], 0, 0, false⟩

/-- A scan at the first entry of a store's bytes. -/
def start (buf : Bytes) : Except DecodeError Scan :=
  match buf with
  | [] => .ok nothing
  | version :: body =>
    if version = 0 then .ok nothing
    else if version ≤ currentVersion then do
      let (count, rest) ← inlined Read.mapLength body
      return ⟨rest, 0, count.toNat, false⟩
    else .error (.unknownInlineVersion version)

/-- The next entry, or the cause that ends the scan; nothing once it ended. -/
def next (s : Scan) : Option (Except DecodeError Entry) × Scan :=
  if s.failed then (none, s)
  else
    match s.remaining with
    | 0 => (none, s)
    | remaining + 1 =>
      match readEntry s.index s.rest with
      | .ok (entry, rest) => (some (.ok entry), ⟨rest, s.index + 1, remaining, false⟩)
      | .error e => (some (.error e), { s with failed := true })

end Scan

/-- What a whole scan found: the entries in front of its end, and the cause if
it did not end well. -/
structure Found where
  entries : List Entry
  failure : Option DecodeError
deriving DecidableEq

/-- Read `n` entries, numbered from `index`, after those already `read`, which
are kept latest first. -/
def readEntries : (n index : Nat) → (read : List Entry) → Bytes → Found
  | 0, _, read, _ => ⟨read.reverse, none⟩
  | n + 1, index, read, buf =>
    match readEntry index buf with
    | .ok (entry, rest) => readEntries n (index + 1) (entry :: read) rest
    | .error e => ⟨read.reverse, some e⟩

/-- Everything a scan over a store's bytes finds. -/
def scanAll (buf : Bytes) : Found :=
  match Scan.start buf with
  | .ok s => readEntries s.remaining s.index [] s.rest
  | .error e => ⟨[], some e⟩

/-! ## Stores -/

/-- An inline store: its bytes, and the number of its entries. -/
structure Store where
  bytes : Bytes
  count : Nat
deriving DecidableEq

namespace Store

def empty : Store := ⟨[], 0⟩

/-- The store with the given bytes, if a scan over them ends well. -/
def parse (buf : Bytes) : Except DecodeError Store :=
  let found := scanAll buf
  match found.failure with
  | none => .ok ⟨buf, found.entries.length⟩
  | some e => .error e

/-- The version byte, or 0 where there is none. -/
def version (s : Store) : UInt8 := s.bytes.head?.getD 0

/-- The keys and their values, in stored order. -/
def entries (s : Store) : List Entry := (scanAll s.bytes).entries

def keys (s : Store) : List String := s.entries.map (·.1)

/-- The keys with the lengths of their values, in stored order. -/
def sizes (s : Store) : List (String × Nat) := s.entries.map fun (k, v) => (k, v.length)

/-- The value of the first entry with the given key. -/
def find? (s : Store) (key : String) : Option Bytes :=
  (s.entries.find? fun e => e.1 = key).map (·.2)

/-! ## Writing -/

def entryBytes (e : Entry) : Bytes :=
  MessagePack.Write.str e.1 ++ MessagePack.Write.bin e.2

/-- The store with the given entries; without any it has no bytes either. -/
def ofEntries (entries : List Entry) : Store :=
  if entries.isEmpty then empty
  else
    ⟨currentVersion :: MessagePack.Write.mapLength (UInt32.ofNat entries.length) ++
      entries.flatMap entryBytes, entries.length⟩

/-- Entries with the value of `key` set: in its place if the key is there, and
at the end if it is not. -/
def set (key : String) (value : Bytes) : List Entry → List Entry
  | [] => [(key, value)]
  | (k, v) :: rest => if k = key then (k, value) :: rest else (k, v) :: set key value rest

/-- The same, for a key that must not be empty. -/
def put (entries : List Entry) (e : Entry) : Except DecodeError (List Entry) :=
  if e.1.isEmpty then .error (.emptyInlineKey entries.length)
  else .ok (set e.1 e.2 entries)

/-- The store with the given entries, in which a later value of a key takes
the place of an earlier one. -/
def build (entries : List Entry) : Except DecodeError Store := do
  return ofEntries (← entries.foldlM put [])

/-- The store with the value of `key` set. -/
def insert (s : Store) (key : String) (value : Bytes) : Except DecodeError Store :=
  let replaced := s.entries.map fun (k, v) => if k = key then (k, value) else (k, v)
  build (if key ∈ s.keys then replaced else replaced ++ [(key, value)])

def erase (s : Store) (keys : List String) : Store :=
  ofEntries (s.entries.filter fun e => e.1 ∉ keys)

end Store

end MetaRecord.Inline

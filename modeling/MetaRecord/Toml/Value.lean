/-
# `MetaRecord.Toml.Value` — what a TOML text says

A document is a table: members with distinct names, each with a value.  A
table remembers how it came to be, because that decides which later lines may
still add to it.
-/
namespace MetaRecord.Toml

/-- How a table came to be. -/
inductive Origin where
  /-- A header of its own opened it. -/
  | header
  /-- It is on the way to a table that a header opened. -/
  | implied
  /-- A dotted key leads through it. -/
  | dotted
  /-- It was written between braces, and is complete. -/
  | braces
deriving DecidableEq, Repr

/-- A value.  No more is kept of floating-point numbers and of moments than
that they are such. -/
inductive Value where
  | text (s : String)
  | integer (n : Int)
  | float
  | boolean (b : Bool)
  | moment
  | array (items : List Value)
  | table (origin : Origin) (members : List (String × Value))
  /-- An array of tables, each opened by a header; the latest comes first. -/
  | tables (elements : List (List (String × Value)))

abbrev Members := List (String × Value)

namespace Members

/-- The value of the member with a name. -/
def find? (name : String) : Members → Option Value
  | [] => none
  | (n, v) :: rest => if n = name then some v else find? name rest

/-- The members with the value of one set; a new name comes last. -/
def set (name : String) (value : Value) : Members → Members
  | [] => [(name, value)]
  | (n, v) :: rest => if n = name then (n, value) :: rest else (n, v) :: set name value rest

/-! ## Dotted keys -/

/-- The members with a value added under a dotted key.  The name at the end of
the key has to be new.  The tables before it are made where they are missing;
of those that a header opened or implied, none may take the value itself, and
only an implied one or an array of tables may be passed through. -/
def assign (value : Value) : (key : List String) → Members → Option Members
  | [], _ => none
  | [name], ms => if (ms.find? name).isSome then none else some (ms.set name value)
  | name :: next :: rest, ms =>
    let inner (into : Members) (wrap : Members → Value) : Option Members :=
      (assign value (next :: rest) into).map fun changed => ms.set name (wrap changed)
    match ms.find? name with
    | none => inner [] (.table .dotted)
    | some (.table .dotted into) => inner into (.table .dotted)
    | some (.table .implied into) =>
      if rest.isEmpty then none else inner into (.table .implied)
    | some (.tables (into :: earlier)) =>
      if rest.isEmpty then none else inner into fun changed => .tables (changed :: earlier)
    | some _ => none

/-! ## Headers -/

/-- The members with a change made to the table at the end of a path.  Tables
missing on the way are implied; an array of tables stands for its latest. -/
def within (change : Members → Option Members) : (path : List String) → Members → Option Members
  | [], ms => change ms
  | name :: rest, ms =>
    let inner (into : Members) (wrap : Members → Value) : Option Members :=
      (within change rest into).map fun changed => ms.set name (wrap changed)
    match ms.find? name with
    | none => inner [] (.table .implied)
    | some (.table .braces _) => none
    | some (.table origin into) => inner into (.table origin)
    | some (.tables (into :: earlier)) => inner into fun changed => .tables (changed :: earlier)
    | some _ => none

/-- The members with a table opened under a name.  A table that is there
already may only be an implied one. -/
def openTable (name : String) (ms : Members) : Option Members :=
  match ms.find? name with
  | none => some (ms.set name (.table .header []))
  | some (.table .implied into) => some (ms.set name (.table .header into))
  | some _ => none

/-- The members with another table opened in the array of tables under a
name. -/
def openElement (name : String) (ms : Members) : Option Members :=
  match ms.find? name with
  | none => some (ms.set name (.tables [[]]))
  | some (.tables elements) => some (ms.set name (.tables ([] :: elements)))
  | some _ => none

end Members

end MetaRecord.Toml

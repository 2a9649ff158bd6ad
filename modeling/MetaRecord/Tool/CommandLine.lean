/-
# `MetaRecord.Tool.CommandLine` — what the arguments ask for

Options have a long name after two dashes, and some a letter after one.  A
value follows its option as the next argument, or in the same one: after an
equals sign, or right after the letter.  Two dashes alone make plain words of
all arguments after them.

The general options come first, then the name of a command, then the words and
options of the command in any order.  No option may be given twice.
-/
import MetaRecord.Files.Path

namespace MetaRecord.Tool

open Files (Path)

/-! ## Options -/

/-- An option. -/
inductive Opt where
  | config
  | logLevel
  | maxRecordSize
  | version
  | ndjson
  | noData
  | out
  | overwrite
deriving DecidableEq, Repr

namespace Opt

def name : Opt → String
  | config => "config"
  | logLevel => "log-level"
  | maxRecordSize => "max-record-size"
  | version => "version"
  | ndjson => "ndjson"
  | noData => "no-data"
  | out => "out"
  | overwrite => "overwrite"

def letter? : Opt → Option Char
  | config => some 'c'
  | version => some 'V'
  | out => some 'o'
  | _ => none

/-- A value belongs to the option. -/
def takesValue : Opt → Bool
  | config | logLevel | maxRecordSize | out => true
  | version | ndjson | noData | overwrite => false

end Opt

/-- How one argument reads where the options `known` may be given. -/
inductive Argument where
  | word
  /-- The sign that no options follow. -/
  | endOfOptions
  | flag (o : Opt)
  | valued (o : Opt) (value : String)
  /-- An option whose value is the next argument. -/
  | wanting (o : Opt)
  /-- Something that looks like an option and is none. -/
  | unknown
deriving DecidableEq, Repr

namespace Argument

/-- An option given by its long name, perhaps with a value. -/
def ofLong (known : List Opt) (body : List Char) : Argument :=
  let name := String.ofList (body.takeWhile (· ≠ '='))
  match known.find? (·.name = name), body.dropWhile (· ≠ '=') with
  | none, _ => unknown
  | some o, [] => if o.takesValue then wanting o else flag o
  | some o, _ :: value => if o.takesValue then valued o (String.ofList value) else unknown

/-- An option given by its letter, perhaps with a value. -/
def ofLetter (known : List Opt) (letter : Char) (value : List Char) : Argument :=
  match known.find? (·.letter? = some letter), value with
  | none, _ => unknown
  | some o, [] => if o.takesValue then wanting o else flag o
  | some o, '=' :: value => if o.takesValue then valued o (String.ofList value) else unknown
  | some o, value => if o.takesValue then valued o (String.ofList value) else flag o

/-- How an argument reads.  One dash alone is a word. -/
def ofString (known : List Opt) (argument : String) : Argument :=
  match argument.toList with
  | ['-', '-'] => endOfOptions
  | '-' :: '-' :: body => ofLong known body
  | '-' :: letter :: value => ofLetter known letter value
  | _ => word

end Argument

/-! ## Sorting arguments -/

/-- Arguments sorted into options, a flag having an empty value, and words. -/
structure Arguments where
  options : List (Opt × String) := []
  words : List String := []
deriving DecidableEq, Repr

namespace Arguments

def value? (a : Arguments) (o : Opt) : Option String := a.options.lookup o

def has (a : Arguments) (o : Opt) : Bool := (a.value? o).isSome

/-- The arguments with one more option, which may not be there yet. -/
def give (a : Arguments) (o : Opt) (value : String) : Option Arguments :=
  if a.has o then none else some { a with options := a.options ++ [(o, value)] }

def addWords (a : Arguments) (words : List String) : Arguments :=
  { a with words := a.words ++ words }

/-- The arguments after those sorted into `a`.  With `toCommand`, everything
from the first word on is left as it stands. -/
def sort (known : List Opt) (toCommand : Bool) (a : Arguments) : List String → Option Arguments
  | [] => some a
  | argument :: rest =>
    match Argument.ofString known argument with
    | .word =>
      if toCommand then some (a.addWords (argument :: rest))
      else sort known toCommand (a.addWords [argument]) rest
    | .endOfOptions => if toCommand then none else some (a.addWords rest)
    | .flag o =>
      if o = .version then a.give o "" else do sort known toCommand (← a.give o "") rest
    | .valued o value => do sort known toCommand (← a.give o value) rest
    | .wanting o =>
      match rest with
      | [] => none
      | value :: rest =>
        if Argument.ofString known value = .word then do
          sort known toCommand (← a.give o value) rest
        else none
    | .unknown => none

end Arguments

/-! ## Commands -/

/-- What to do with which files. -/
inductive Command where
  | inspect (files : List Path) (ndjson noData : Bool)
  | versions (file : Path)
  /-- Write the inline values of a record to files. -/
  | extract (file : Path) (out : Option Path) (overwrite : Bool)
  | verify (files : List Path)
deriving DecidableEq, Repr

/-- A command with the general options in front of it. -/
structure Invocation where
  config : Path
  logLevel : Option String
  maxRecordSize : Option Nat
  command : Command
deriving DecidableEq, Repr

/-- What the arguments ask for. -/
inductive Request where
  | version
  | run (invocation : Invocation)
deriving DecidableEq, Repr

namespace Request

/-- The configuration file where none is given. -/
def usualConfig : String := "/etc/xlmeta/xlmeta.toml"

/-- A path may not be empty. -/
def path? (s : String) : Option Path := if s = "" then none else some ⟨s⟩

/-- A number of bytes that fits in 64 bits; it may have a plus sign. -/
def size? (s : String) : Option Nat :=
  let digits := match s.toList with
    | '+' :: digits => digits
    | digits => digits
  if digits.isEmpty || digits.any (!·.isDigit) then none
  else
    let n := digits.foldl (fun n c => n * 10 + (c.toNat - '0'.toNat)) 0
    if n < 0x10000000000000000 then some n else none

/-- What is given for an option, as `read` understands it. -/
def option {α : Type} (read : String → Option α) (a : Arguments) (o : Opt) :
    Option (Option α) :=
  match a.value? o with
  | none => some none
  | some value => some <$> read value

/-- The only word of a command. -/
def onlyFile (words : List String) : Option Path :=
  match words with
  | [file] => path? file
  | _ => none

/-- The words of a command, of which there is one at least. -/
def someFiles (words : List String) : Option (List Path) :=
  if words.isEmpty then none else words.mapM path?

def command (name : String) (arguments : List String) : Option Command :=
  match name with
  | "inspect" => do
    let a ← Arguments.sort [.ndjson, .noData] false {} arguments
    return .inspect (← someFiles a.words) (a.has .ndjson) (a.has .noData)
  | "versions" => do
    let a ← Arguments.sort [] false {} arguments
    return .versions (← onlyFile a.words)
  | "export" => do
    let a ← Arguments.sort [.out, .overwrite] false {} arguments
    return .extract (← onlyFile a.words) (← option path? a .out) (a.has .overwrite)
  | "verify" => do
    let a ← Arguments.sort [] false {} arguments
    return .verify (← someFiles a.words)
  | _ => none

/-- What the arguments ask for, if they make sense.  `environment` is the
configuration file that the environment names; an argument goes before it. -/
def ofArguments (environment : Option String) (arguments : List String) : Option Request := do
  let a ← Arguments.sort [.config, .logLevel, .maxRecordSize, .version] true {} arguments
  if a.has .version then return .version
  let config := (a.value? .config <|> environment).getD usualConfig
  let maxRecordSize ← option size? a .maxRecordSize
  match a.words with
  | [] => none
  | name :: rest =>
    return .run ⟨← path? config, a.value? .logLevel, maxRecordSize, ← command name rest⟩

end Request

end MetaRecord.Tool

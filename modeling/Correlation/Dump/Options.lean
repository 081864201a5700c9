import Correlation.Address
import Correlation.SlotTable
/-!
# Command line options

Reading the arguments of the dump program. An option takes its value after `=` or as the next argument,
which must not begin with a hyphen unless it is the hyphen alone; `--` ends the options. A value is only
looked at when the next option or operand begins, so an unknown option is reported before a bad value
that stands directly in front of it.
-/

namespace Correlation

namespace Dump

/-- Why arguments are refused. -/
inductive UsageError where
  | helpWanted
  | unknownArgument
  | missingInput
  | missingValue
  | unwantedValue
  | invalidValue
  | conflict
  deriving Repr, DecidableEq

/-- What the arguments ask for. -/
structure Options where
  input : String
  base : Nat := 0
  table : Option Nat := none
  buffer : Option Nat := none
  slot : Option Int := none
  count : Int := 1
  address : Option Nat := none
  depthLimit : Option Nat := none
  config : Option String := none
  /-- How many times more talk was asked for, 255 at most. -/
  verbosity : Nat := 0
  deriving Repr, DecidableEq

/-- The arguments that take a value. -/
inductive Argument where
  | input
  | base
  | table
  | buffer
  | slot
  | count
  | address
  | depthLimit
  | config
  deriving Repr, DecidableEq

/-- The option with a long name. -/
def Argument.ofName? : String → Option Argument
  | "base" => some base
  | "table" => some table
  | "buffer" => some buffer
  | "slot" => some slot
  | "count" => some count
  | "at" => some address
  | "max-depth" => some depthLimit
  | "config" => some config
  | _ => none

/-- What is known part way through the arguments. The argument read last may still wait for its value, or have
one that nobody has looked at. -/
structure Draft where
  input : Option String := none
  base : Option Nat := none
  table : Option Nat := none
  buffer : Option Nat := none
  slot : Option Int := none
  count : Option Int := none
  address : Option Nat := none
  depthLimit : Option Nat := none
  config : Option String := none
  verbosity : Nat := 0
  pending : Option (Argument × Option String) := none

namespace Draft

/-- A value for an argument that has none yet. -/
def once {α : Type} (old new : Option α) (fault : UsageError) : Except UsageError (Option α) :=
  match old, new with
  | some _, _ => .error .conflict
  | none, none => .error fault
  | none, some a => .ok (some a)

def addressValue (text : String) : Option Nat :=
  (Address.ofText text).toOption

def indexValue (text : String) : Option Int :=
  Numeral.integer? (Numeral.greatestSigned + 1) Numeral.greatestSigned text.toList

def depthValue (text : String) : Option Nat :=
  (Numeral.natural 10 Numeral.greatestWord text.toList).toOption

def pathValue (text : String) : Option String :=
  if text = "" then none else some text

/-- Give an argument its value. -/
def store (d : Draft) (a : Argument) (text : String) : Except UsageError Draft :=
  match a with
  | .input => return { d with input := ← once d.input (pathValue text) .missingValue }
  | .base => return { d with base := ← once d.base (addressValue text) .invalidValue }
  | .table => return { d with table := ← once d.table (addressValue text) .invalidValue }
  | .buffer => return { d with buffer := ← once d.buffer (addressValue text) .invalidValue }
  | .slot => return { d with slot := ← once d.slot (indexValue text) .invalidValue }
  | .count => return { d with count := ← once d.count (indexValue text) .invalidValue }
  | .address => return { d with address := ← once d.address (addressValue text) .invalidValue }
  | .depthLimit => return { d with depthLimit := ← once d.depthLimit (depthValue text) .invalidValue }
  | .config => return { d with config := ← once d.config (pathValue text) .missingValue }

/-- Deal with the argument that is still open. -/
def settle (d : Draft) : Except UsageError Draft :=
  match d.pending with
  | none => .ok d
  | some (_, none) => .error .missingValue
  | some (a, some text) => { d with pending := none }.store a text

/-- Ask for more talk. -/
def louder (d : Draft) : Except UsageError Draft := do
  let d ← d.settle
  return { d with verbosity := min 255 (d.verbosity + 1) }

def help (d : Draft) : Except UsageError Draft := do
  let _ ← d.settle
  throw .helpWanted

/-- Letters after a single hyphen. -/
def letters (d : Draft) : List Char → Except UsageError Draft
  | [] => .ok d
  | 'v' :: rest => do letters (← d.louder) rest
  | 'h' :: _ => d.help
  | _ :: _ => .error .unknownArgument

/-- A name after two hyphens, and the value after its equals sign if there is one. -/
def long (d : Draft) (name : String) (value : Option String) : Except UsageError Draft :=
  match Argument.ofName? name, value with
  | some a, some text => do (← d.settle).store a text
  | some a, none => do
    let d ← d.settle
    return { d with pending := some (a, none) }
  | none, value =>
    if name = "verbose" ∨ name = "help" then
      if value.isSome then .error .unwantedValue
      else if name = "help" then d.help
      else d.louder
    else .error .unknownArgument

/-- An argument that is no option. There is room for one. -/
def operand (d : Draft) (text : String) : Except UsageError Draft :=
  let taken := d.input.isSome || (d.pending.map (·.1)) = some .input
  if taken then .error .unknownArgument
  else do
    let d ← d.settle
    return { d with pending := some (.input, some text) }

/-- What an argument with hyphens in front says. -/
def hyphenated? (d : Draft) : List Char → Option (Except UsageError Draft)
  | '-' :: '-' :: rest =>
    let (name, value) := rest.span (· ≠ '=')
    some (d.long (String.ofList name) (value.tail?.map String.ofList))
  | '-' :: c :: rest => some (d.letters (c :: rest))
  | _ => none

/-- Read the arguments; `ended` says that `--` has been seen. -/
def read (ended : Bool) (d : Draft) : List String → Except UsageError Draft
  | [] => d.settle
  | text :: rest =>
    if ended then do read true (← d.operand text) rest
    else if text = "--" then read true d rest
    else
      match d.hyphenated? text.toList with
      | some next => do read false (← next) rest
      | none =>
        match d.pending with
        | some (a, none) => read false { d with pending := some (a, some text) } rest
        | _ => do read false (← d.operand text) rest

/-- All options together: which exclude each other, what must be there, and the defaults. -/
def finish (d : Draft) : Except UsageError Options :=
  if d.slot.isSome ∧ d.count.isSome ∨ d.address.isSome ∧ (d.table.isSome ∨ d.slot.isSome) then .error .conflict
  else
    match d.input with
    | none => .error .missingInput
    | some input =>
      .ok
        { input
          base := d.base.getD 0
          table := d.table
          buffer := d.buffer
          slot := d.slot
          count := d.count.getD 1
          address := d.address
          depthLimit := d.depthLimit
          config := d.config
          verbosity := d.verbosity }

end Draft

/-- How the program is called. -/
def usage : String :=
  String.join <| List.map (· ++ "\n")
    ["Decode the correlation expressions of a raw format-string image",
      "",
      "Usage: ndrexpr-dump [OPTIONS] <INPUT>",
      "",
      "Arguments:",
      "  <INPUT>  Path to the raw image",
      "",
      "Options:",
      "      --base <BASE>            Address at which the first byte of the image is mapped [default: 0]",
      "      --table <TABLE>          Address of the expression offset table",
      "      --buffer <BUFFER>        Address of the shared expression buffer",
      "      --slot <SLOT>            Resolve a single slot of the offset table",
      "      --count <COUNT>          Resolve slots `0..count` of the offset table [default: 1]",
      "      --at <AT>                Decode one expression at this address instead of going through the " ++
        "offset table",
      "      --max-depth <MAX_DEPTH>  Override the maximum nesting depth",
      "      --config <CONFIG>        Path to a TOML configuration file",
      "  -v, --verbose...             Increase logging verbosity (repeatable)",
      "  -h, --help                   Print help"]

def UsageError.message : UsageError → String
  | helpWanted => "help wanted"
  | unknownArgument => "unexpected argument"
  | missingInput => "the image is missing"
  | missingValue => "an argument lacks its value"
  | unwantedValue => "an option without a value was given one"
  | invalidValue => "a value is invalid"
  | conflict => "arguments exclude each other"

/-- What the arguments after the program's name ask for. -/
def Options.ofArguments (arguments : List String) : Except UsageError Options := do
  (← Draft.read false {} arguments).finish

end Dump

end Correlation

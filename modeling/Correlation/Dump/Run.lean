import Correlation.Dump.Options
import Correlation.Listing
import Correlation.Settings
import Correlation.World
/-!
# The dump program

Decoding one expression, or slots of a table, of an image file and printing the listings. A run is a
function of its options and its surroundings: it prints, it keeps a log, and it may end in a failure after
some output.
-/

namespace Correlation

namespace Dump

/-- Why a run fails. -/
inductive Fault where
  | unreadable (path : String) (fault : ReadFault)
  /-- A settings file that is no TOML, or whose entries are of the wrong kind. -/
  | badSettings (path : String)
  | undecodable (failure : Failure)
  | nothingSelected
  deriving Repr, DecidableEq

def Fault.message : Fault → String
  | unreadable path fault => s!"I/O error on '{path}': {fault.message}"
  | badSettings path => s!"Failed to parse configuration file '{path}'"
  | undecodable failure => s!"Failed to decode expression: {failure.message}"
  | nothingSelected => "Invalid arguments: either --at or --table must be given"

/-- What a run reports while it works. -/
inductive Notice where
  | readingSettings (path : String)
  | noSettings (path : String)
  | loaded (size : Nat) (path : String) (base : Nat)
  | noBuffer
  | decoding (event : Event)
  | failed (fault : Fault)

def Notice.record : Notice → Record
  | readingSettings path => ⟨.debug, "ndrexpr_dump::config", "Loading configuration from " ++ path⟩
  | noSettings path => ⟨.debug, "ndrexpr_dump::config", s!"No configuration at {path}, using defaults"⟩
  | loaded size path base =>
    ⟨.info, "ndrexpr_dump",
      s!"Loaded {Numeral.decimal size} bytes from {path}, mapped at {Numeral.hex base}"⟩
  | noBuffer =>
    ⟨.info, "ndrexpr_dump", "No expression buffer given, every slot resolves to an absent expression"⟩
  | decoding event => event.record
  | failed fault => ⟨.error, "ndrexpr_dump", fault.message⟩

/-- What has been printed and what has been reported so far. -/
structure Transcript where
  output : String := ""
  notices : Array Notice := #[]

/-- A part of a run. -/
abbrev Task (α : Type) : Type :=
  Attempt Transcript Fault α

namespace Task

variable {α : Type}

def print (text : String) : Task Unit :=
  fun t => (.ok (), { t with output := t.output ++ text })

def note (n : Notice) : Task Unit :=
  fun t => (.ok (), { t with notices := t.notices.push n })

/-- Decode with a cursor at an address; its events become notices. -/
def decode (address : Nat) (d : Decoder α) : Task α :=
  fun t =>
    match d ⟨address, #[], #[]⟩ with
    | (result, c) => (result.mapError .undecodable, { t with notices := t.notices ++ c.events.map .decoding })

def read (path : String) (contents : Except ReadFault α) : Task α :=
  .ofExcept (contents.mapError (.unreadable path))

end Task

/-! ## Settings -/

/-- Where the settings are unless the options say it: where a variable points, else in the directory for
settings of the user, else in the working directory. A variable that is set to no text counts as unset. -/
def defaultSettingsPath (env : Environment) : String :=
  match env.text? "NDREXPR_CONFIG_PATH" with
  | some path => path
  | none =>
    let directory := match env.text? "XDG_CONFIG_HOME", env.text? "HOME" with
      | some directory, _ => directory
      | none, some home => Path.join home ".config"
      | none, none => ""
    Path.join (Path.join directory "ndrexpr") "config.toml"

def parseSettings (path text : String) : Except Fault Settings :=
  match Settings.ofText? text with
  | some settings => .ok settings
  | none => .error (.badSettings path)

def loadSettings (world : World) (path : String) : Task Settings := do
  let text ← Task.read path (world.find path).text
  .ofExcept (parseSettings path text)

/-- Settings that the options name have to be there; others only count if they are there. -/
def settings (world : World) (named : Option String) : Task Settings :=
  match named with
  | some path => loadSettings world path
  | none => do
    let path := defaultSettingsPath world.env
    if (world.find path).isFile then
      Task.note (.readingSettings path)
      loadSettings world path
    else
      Task.note (.noSettings path)
      return {}

/-! ## Listings -/

/-- Print so many slots from `index` on, until the first failure. -/
def printSlots (image : Image) (table : SlotTable) (limit : Nat) (index : Int) : Nat → Task Unit
  | 0 => pure ()
  | count + 1 => do
    let e ← Task.decode 0 (table.resolve image limit index)
    Task.print (s!"slot {Numeral.signed index}:\n" ++ e.render)
    printSlots image table limit (index + 1) count

/-- The slots that the options ask for, as the first one and the one after the last. The one after the greatest
index is no index, so that one is never among them. -/
def selectedSlots (o : Options) : Int × Int :=
  match o.slot with
  | some slot => (slot, min (slot + 1) greatestIndex)
  | none => (0, o.count)

/-- Print what the options ask for of an image. -/
def printImage (o : Options) (image : Image) (limit : Nat) : Task Unit :=
  match o.address, o.table with
  | some address, _ => do
    let e ← Task.decode address (Wire.decode image limit)
    Task.print (Numeral.hex address ++ ":\n" ++ e.render)
  | none, none => .fail .nothingSelected
  | none, some table => do
    if o.buffer.isNone then Task.note .noBuffer
    let (first, stop) := selectedSlots o
    printSlots image ⟨some table, o.buffer⟩ limit first (stop - first).toNat

/-- The whole run. -/
def program (world : World) (o : Options) : Task Unit := do
  let settings ← settings world o.config
  let limit := o.depthLimit.getD settings.depthLimit
  let bytes ← Task.read o.input (world.find o.input).bytes
  Task.note (.loaded bytes.size o.input o.base)
  printImage o ⟨o.base, bytes⟩ limit

/-- What a run leaves: its output, its log, and its failure if it failed. -/
structure Report where
  output : String
  notices : Array Notice
  fault : Option Fault

def run (world : World) (o : Options) : Report :=
  match program world o {} with
  | (.ok (), t) => ⟨t.output, t.notices, none⟩
  | (.error e, t) => ⟨t.output, t.notices, some e⟩

end Dump

end Correlation

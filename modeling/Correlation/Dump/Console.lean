import Correlation.Dump.Run
/-!
# The log on the console

Which records a log shows, and how its lines look with and without colours.
-/

namespace Correlation

namespace Dump

/-- The most talkative level that a number of requests for more talk gives. -/
def levelOfVerbosity : Nat → Level
  | 0 => .warn
  | 1 => .info
  | 2 => .debug
  | _ => .trace

/-- The records that a log of a verbosity shows. -/
def shown (verbosity : Nat) (notices : Array Notice) : Array Record :=
  (notices.map (·.record)).filter (·.level.shownBy (levelOfVerbosity verbosity))

namespace Console

/-- Terminals get colours unless they are dumb or colours are unwanted; no terminal gets none. -/
def isColoured (env : Environment) : Bool :=
  match env "TERM" with
  | none => false
  | some terminal => terminal != "dumb".toUTF8.data && (env "NO_COLOR").isNone

def control (code : String) : String :=
  "\x1b[" ++ code ++ "m"

def style : Level → String
  | .error => control "1" ++ control "31"
  | .warn => control "1" ++ control "33"
  | .info => control "32"
  | .debug => control "36"
  | .trace => control "2"

/-- The level's name, five wide. -/
def label (level : Level) : String :=
  String.ofList (List.replicate (5 - level.name.length) ' ') ++ level.name

/-- The line of a record, without its end. -/
def line (coloured : Bool) (r : Record) : String :=
  let label :=
    if coloured then control "0" ++ style r.level ++ label r.level ++ control "0" else label r.level
  s!"{label} [{r.component}] {r.text}"

end Console

/-- What the program shows: its exit code, its output, and the lines of its log. -/
structure Display where
  code : Nat
  output : String
  log : String

/-- A run as seen from outside. The last record of a failed run says why it failed; what is wrong in a settings
file is said after the file's name, where the line of that record stays open. -/
def display (world : World) (o : Options) : Display :=
  let report := run world o
  let coloured := Console.isColoured world.env
  let lines := (shown o.verbosity report.notices).map fun r => Console.line coloured r ++ "\n"
  let log := String.join lines.toList
  match report.fault with
  | none => ⟨0, report.output, log⟩
  | some fault =>
    let last := Console.line coloured (Notice.failed fault).record
    let ending := match fault with
      | .badSettings _ => ""
      | _ => "\n"
    ⟨1, report.output, log ++ last ++ ending⟩

end Dump

end Correlation

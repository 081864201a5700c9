import Correlation.Dump.Console
/-!
# The program on a real system

Looks up what a run can ask for, runs, and shows what came of it. All decisions are `Dump.display`'s.
-/

namespace Correlation

namespace Dump

/-- The variables in a block of bytes, in which each is a name, an equals sign, a value and a zero. -/
def environmentOf (block : ByteArray) : Environment :=
  let binding (entry : List UInt8) : Option (String × Array UInt8) := do
    let (name, rest) := entry.span (· ≠ '='.toUInt8)
    return (← String.fromUTF8? ⟨name.toArray⟩, (← rest.tail?).dropLast.toArray)
  let bindings := (block.data.toList.splitBy fun byte _ => byte ≠ 0).filterMap binding
  fun name => bindings.lookup name

/-- What a read that failed says of the path. The codes of looking for it have a minus; once it is found, it is taken
for a file unless the failure says that it is a directory. -/
def foundOf (e : IO.Error) : Found :=
  match e with
  | .noFileOrDirectory .. => .nothing
  | .inappropriateType _ 21 _ => .directory
  | .inappropriateType _ 0xffffffec _ => .notDirectory
  | .invalidArgument _ 0xffffffdc _ => .tooLong
  | .otherError code text | .resourceBusy code text | .resourceVanished code text | .unsupportedOperation code text
  | .hardwareFault code text | .unsatisfiedConstraints code text | .illegalOperation code text
  | .protocolError code text | .timeExpired code text | .interrupted _ code text | .alreadyExists _ code text
  | .invalidArgument _ code text | .permissionDenied _ code text | .resourceExhausted _ code text
  | .inappropriateType _ code text | .noSuchThing _ code text =>
    ⟨0 ≤ code.toInt32, .error ⟨s!"{text} (os error {code.toInt32.toInt.natAbs})"⟩⟩
  | .unexpectedEof | .userError _ => ⟨true, .error ⟨e.toString⟩⟩

/-- What there is at a path. What can be read is taken for a file. -/
def lookUp (path : String) : IO Found := do
  try
    return .file (← IO.FS.readBinFile path).data
  catch e =>
    return foundOf e

/-- The surroundings as far as a run with these options looks at them. -/
def surroundings (o : Options) : IO World := do
  let env := environmentOf (← IO.FS.readBinFile "/proc/self/environ")
  let settingsPath := o.config.getD (defaultSettingsPath env)
  let settings ← lookUp settingsPath
  let image ← lookUp o.input
  return ⟨env, fun path => if path = settingsPath then settings else if path = o.input then image else .nothing⟩

end Dump

end Correlation

open Correlation Correlation.Dump in
def main (arguments : List String) : IO UInt32 := do
  match Options.ofArguments arguments with
  | .error .helpWanted =>
    IO.print usage
    return 0
  | .error e =>
    IO.eprintln s!"error: {e.message}"
    return 2
  | .ok o =>
    let shown := display (← surroundings o) o
    IO.print shown.output
    IO.eprint shown.log
    return UInt32.ofNat shown.code

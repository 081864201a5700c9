import Correlation.Toml.Document
import Correlation.Wire.Reader
/-!
# Settings

What a configuration document decides: the depth limit of the decoder, at `decoder.max_depth`. Entries
of other names are passed over, and what is missing keeps its default.
-/

namespace Correlation

structure Settings where
  depthLimit : Nat := Wire.defaultDepthLimit
  deriving Repr, DecidableEq

namespace Settings

/-- A depth limit is an integer of 64 bits. -/
def depthLimit? : Toml.Value → Option Nat
  | .integer i => if 0 ≤ i ∧ i ≤ Numeral.greatestWord then some i.toNat else none
  | _ => none

/-- The value of a wanted entry, or the default if there is none; entries of other names only have to hold
numbers that a machine can hold. -/
def entry {α : Type} (name : String) (default : α) (read : Toml.Value → Option α)
    (entries : List (String × Toml.Value)) : Option α :=
  if entries.all fun (key, v) => key = name || v.isHeld then
    match entries.lookup name with
    | none => some default
    | some v => read v
  else none

/-- The decoder's settings: a table, or an array that gives them in order. A date or time counts as a table
without entries of a wanted name. -/
def decoder? : Toml.Value → Option Settings
  | .table entries => (entry "max_depth" Wire.defaultDepthLimit depthLimit? entries).map (⟨·⟩)
  | .array [] => some {}
  | .array (first :: _) => (depthLimit? first).map (⟨·⟩)
  | .moment _ => some {}
  | _ => none

/-- The settings in a document, if it is one. -/
def ofText? (text : String) : Option Settings := do
  entry "decoder" {} decoder? (← Toml.parse text)

end Settings

end Correlation

import Correlation.Numeral
import Correlation.Operator
/-!
# Failures

The structural failures of decoding and of building trees. Surprises in the format (unknown tags,
operators without an arity, empty slots) are not failures: they decode to invalid nodes.
-/

namespace Correlation

/-- Why an expression could not be decoded or built. -/
inductive Failure where
  /-- Some of the `size` bytes at `address` are missing from an image of `available` bytes. -/
  | outOfBounds (address size available : Nat)
  /-- A base and an offset add up to no address. -/
  | addressOverflow (base : Nat) (offset : Int)
  /-- The expression nests past the depth `limit`. -/
  | tooDeep (limit : Nat)
  /-- An operator was given `found` arguments in place of `expected`. -/
  | arityMismatch (op : Operator) (expected found : Nat)
  /-- An operator needs more operands than the stack holds. -/
  | stackUnderflow (op : Operator) (needed available : Nat)
  /-- The stack did not fold down to a single expression. -/
  | unbalancedStack (remaining : Nat)
  deriving Repr, DecidableEq

/-- The text shown for a failure. -/
def Failure.message : Failure → String
  | outOfBounds address size available =>
    s!"Read of {Numeral.decimal size} byte(s) at address {Numeral.hex address} is outside of the byte source " ++
      s!"({Numeral.hex available} bytes available)."
  | addressOverflow base offset =>
    s!"Address computation overflowed: base {Numeral.hex base} with offset {Numeral.signed offset}."
  | tooDeep limit =>
    "Expression is nested too deeply: the decoder refuses to descend past depth " ++ Numeral.decimal limit ++ "."
  | arityMismatch op expected found =>
    s!"Operator `{op.name}` takes exactly {Numeral.decimal expected} argument(s), " ++
      s!"but {Numeral.decimal found} were supplied."
  | stackUnderflow op needed available =>
    s!"Operator `{op.name}` needs {Numeral.decimal needed} operand(s) on the stack, " ++
      s!"but only {Numeral.decimal available} are available."
  | unbalancedStack remaining =>
    "Expected exactly one expression left on the stack, found " ++ Numeral.decimal remaining ++ "."

end Correlation

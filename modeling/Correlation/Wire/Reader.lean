import Correlation.Cursor
import Correlation.Wire.Format
/-!
# Reading expressions

Decoding an expression from a source. Each node is read once, forwards, and what it is depends on the
bytes read so far alone. Unknown tags and operators without an arity become invalid nodes; missing bytes
and nesting past the limit are failures.
-/

namespace Correlation

namespace Wire

open Attempt Decoder

/-- The depth limit where none is set; the root is at depth zero. -/
def defaultDepthLimit : Nat := 128

/-- A node without its arguments: complete, or an operator that still awaits a number of them. -/
inductive Head where
  | leaf (node : Expr)
  | operator (op : Operator) (field : Int16) (arity : Nat)

/-- The rest of an operator header. Without an arity, nothing after the header belongs to the node. -/
def operatorHead (source : Source) (start : Nat) : Decoder Head := do
  let code ← uint8 source
  let field ← int16 source
  match (Operator.ofCode? code).bind fun op => op.arity.count.map (op, ·) with
  | some (op, arity) => return .operator op field arity
  | none =>
    note (.unsupportedOperator code start)
    return .leaf (.invalid (.unsupportedOperator code field))

/-- A node's own bytes. -/
def head (source : Source) : Decoder Head := do
  let start ← position
  let tag ← uint8 source
  match Tag.ofByte? tag with
  | some .const32 =>
    let format ← uint8 source
    let offset ← int16 source
    let value ← int32 source
    return .leaf (.const32 format offset value)
  | some .const64 =>
    let format ← uint8 source
    let offset ← int16 source
    let value ← int64 source
    return .leaf (.const .bits64 format offset value)
  | some .variableRef =>
    let format ← uint8 source
    let offset ← int16 source
    return .leaf (.var format offset)
  | some .operator => operatorHead source start
  | some .pad | none =>
    note (.untypedTag tag start)
    return .leaf (.invalid (.unknownTag tag))

/-- An expression of at most the given number of levels; `limit` less the levels still allowed below a node is
its depth. -/
def descend (source : Source) (limit : Nat) : Nat → Decoder Expr
  | 0 => fail (.tooDeep limit)
  | levels + 1 => do
    let start ← position
    let node ← match ← head source with
      | .leaf node => pure node
      | .operator op field arity => do
        let args ← times (descend source limit levels) arity
        ofExcept (Expr.combine op field args)
    note (.decoded node start (limit - levels))
    return node

/-- The expression at the cursor, no part of which lies deeper than `limit`. -/
def decode (source : Source) (limit : Nat) : Decoder Expr :=
  descend source limit (limit + 1)

end Wire

end Correlation

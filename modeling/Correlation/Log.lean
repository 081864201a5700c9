import Correlation.Expr
/-!
# Log records

What decoding reports while it works. An `Event` says what happened, in values; its record gives the
level, the component and the wording.
-/

namespace Correlation

/-- Severity of a record. -/
inductive Level where
  | error
  | warn
  | info
  | debug
  | trace
  deriving Repr, DecidableEq

namespace Level

def name : Level → String
  | error => "ERROR"
  | warn => "WARN"
  | info => "INFO"
  | debug => "DEBUG"
  | trace => "TRACE"

/-- How talkative a log must be to show the level. -/
def rank : Level → Nat
  | error => 1
  | warn => 2
  | info => 3
  | debug => 4
  | trace => 5

/-- A log that shows `most` shows every level up to it. -/
def shownBy (level most : Level) : Bool :=
  level.rank ≤ most.rank

end Level

/-- One line of a log. -/
structure Record where
  level : Level
  component : String
  text : String
  deriving Repr, DecidableEq

/-! ## Events of decoding -/

/-- What happened, at which address. -/
inductive Event where
  /-- A tag that begins no node. -/
  | untypedTag (tag : UInt8) (start : Nat)
  /-- An operator header without an arity. -/
  | unsupportedOperator (code : UInt8) (start : Nat)
  /-- A node is complete; its first byte is at `start` and its root `depth` levels down. -/
  | decoded (node : Expr) (start depth : Nat)
  | slotEmpty (index : Int)
  | slotFound (index : Int) (offset address : Nat)
  /-- An operator without an arity was bound on the operand stack. -/
  | boundWithoutArity (op : Operator)
  /-- Binding would have built a tree past the depth limit. -/
  | refusedHeight (op : Operator) (height : Nat)

/-- A defect with all its fields. -/
def Defect.describe : Defect → String
  | .absent => "Absent"
  | .unknownTag tag => "UnknownTag(" ++ Numeral.decimal tag.toNat ++ ")"
  | .unsupportedOperator code field =>
    "UnsupportedOperator \x7b code: " ++ Numeral.decimal code.toNat ++ ", raw_field: " ++
      Numeral.signed field.toInt ++ " \x7d"

/-- One line about a node itself, its arguments left out. -/
def Expr.summary : Expr → String
  | .invalid defect => "invalid node (" ++ defect.describe ++ ")"
  | .const .bits32 _ _ value => "32-bit constant " ++ Numeral.signed value.toInt
  | .const .bits64 _ _ value => "64-bit constant " ++ Numeral.signed value.toInt
  | .var _ offset => "variable at offset " ++ Numeral.signed offset.toInt
  | .operator op _ args => s!"operator `{op.name}` with {Numeral.decimal args.length} arguments"

/-- The record that reports an event. -/
def Event.record : Event → Record
  | untypedTag tag start =>
    ⟨.debug, "ndrexpr::parser",
      s!"Untyped expression tag {Numeral.hexPadded 2 tag.toNat} at {Numeral.hex start}, decoding as invalid"⟩
  | unsupportedOperator code start =>
    ⟨.debug, "ndrexpr::parser",
      s!"Unsupported expression operator {Numeral.hexPadded 2 code.toNat} at {Numeral.hex start}, " ++
        "decoding as invalid"⟩
  | decoded node start depth =>
    ⟨.trace, "ndrexpr::parser",
      s!"Decoded {node.summary} at {Numeral.hex start} (depth {Numeral.decimal depth})"⟩
  | slotEmpty index =>
    ⟨.trace, "ndrexpr::table", s!"Expression slot {Numeral.signed index} is empty"⟩
  | slotFound index offset address =>
    ⟨.trace, "ndrexpr::table",
      s!"Expression slot {Numeral.signed index} -> offset {Numeral.hex offset} (address {Numeral.hex address})"⟩
  | boundWithoutArity op =>
    ⟨.debug, "ndrexpr::stack", s!"Operator `{op.name}` has no arity, binding as invalid"⟩
  | refusedHeight op height =>
    ⟨.debug, "ndrexpr::stack",
      s!"Operator `{op.name}` would build a tree of height {Numeral.decimal height}, refusing"⟩

end Correlation

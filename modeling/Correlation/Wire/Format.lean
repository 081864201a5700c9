import Correlation.Expr
/-!
# Wire format

The tag bytes that begin a node, the sizes of a node's own bytes, and which trees have a wire form.
-/

namespace Correlation

namespace Wire

/-- The tags with a meaning. -/
inductive Tag where
  | const32
  | const64
  | variableRef
  | operator
  | pad
  deriving Repr, DecidableEq

namespace Tag

def byte : Tag → UInt8
  | const32 => 1
  | const64 => 2
  | variableRef => 3
  | operator => 4
  | pad => 5

def ofByte? (b : UInt8) : Option Tag :=
  [const32, const64, variableRef, operator, pad].find? (·.byte == b)

def name : Tag → String
  | const32 => "Const32"
  | const64 => "Const64"
  | variableRef => "Variable"
  | operator => "Operator"
  | pad => "Pad"

/-- Whether a node with typed contents begins with the byte; padding is no such node. -/
def opensNode (b : UInt8) : Bool :=
  match ofByte? b with
  | some pad | none => false
  | some _ => true

theorem ofByte?_byte (t : Tag) : ofByte? t.byte = some t := by
  cases t <;> rfl

theorem ofByte?_eq_some_iff {b : UInt8} {t : Tag} : ofByte? b = some t ↔ t.byte = b := by
  constructor
  · intro h
    simpa using List.find?_some h
  · rintro rfl
    exact ofByte?_byte t

theorem opensNode_eq_false_iff {b : UInt8} : opensNode b = false ↔ ofByte? b = some pad ∨ ofByte? b = none := by
  unfold opensNode
  split <;> simp_all

end Tag

/-! ## Sizes -/

/-- Tag, code and field. -/
def operatorHeaderSize : Nat := 4

/-- Tag, format and offset. -/
def variableSize : Nat := 4

/-- Tag, format, offset and a 32-bit value. -/
def const32Size : Nat := 8

/-- Tag, format, offset and a 64-bit value. -/
def const64Size : Nat := 12

/-- One entry of an offset table. -/
def slotSize : Nat := 2

/-- How many bytes a node takes by itself; the absent node takes none. -/
def ownSize : Expr → Nat
  | .invalid .absent => 0
  | .invalid (.unknownTag _) => 1
  | .invalid (.unsupportedOperator _ _) => operatorHeaderSize
  | .const .bits32 _ _ _ => const32Size
  | .const .bits64 _ _ _ => const64Size
  | .var _ _ => variableSize
  | .operator _ _ _ => operatorHeaderSize

/-! ## Trees with a wire form -/

/-- A tree that bytes can spell: nothing absent, no unknown tag that has a meaning, no unsupported code that
has an arity, 32-bit values within 32 bits, and operators with exactly their arity of arguments. -/
inductive Representable : Expr → Prop where
  | unknownTag (tag) : Tag.opensNode tag = false → Representable (.invalid (.unknownTag tag))
  | unsupportedOperator (code field) : Operator.arityOf code = .unsupported →
    Representable (.invalid (.unsupportedOperator code field))
  | const32 (format offset) (value : Int32) : Representable (.const32 format offset value)
  | const64 (format offset value) : Representable (.const .bits64 format offset value)
  | var (format offset) : Representable (.var format offset)
  | operator (op field args) : op.arity.count = some args.length → (∀ a ∈ args, Representable a) →
    Representable (.operator op field args)

end Wire

end Correlation

import Correlation.Wire.Format
/-!
# Writing expressions

The bytes of a tree: each node's own bytes, then those of its arguments from left to right.
-/

namespace Correlation

namespace Wire

/-- The `count` low bytes of a number, least significant first. -/
def littleEndianBytes : Nat → Nat → List UInt8
  | 0, _ => []
  | count + 1, n => UInt8.ofNat n :: littleEndianBytes count (n / 256)

def bytes16 (v : Int16) : List UInt8 :=
  littleEndianBytes 2 v.toUInt16.toNat

def bytes32 (v : Int32) : List UInt8 :=
  littleEndianBytes 4 v.toUInt32.toNat

def bytes64 (v : Int64) : List UInt8 :=
  littleEndianBytes 8 v.toUInt64.toNat

/-- A node's own bytes. -/
def ownBytes : Expr → List UInt8
  | .invalid .absent => []
  | .invalid (.unknownTag tag) => [tag]
  | .invalid (.unsupportedOperator code field) => Tag.operator.byte :: code :: bytes16 field
  | .const .bits32 format offset value =>
    Tag.const32.byte :: format :: (bytes16 offset ++ bytes32 value.toInt32)
  | .const .bits64 format offset value => Tag.const64.byte :: format :: (bytes16 offset ++ bytes64 value)
  | .var format offset => Tag.variableRef.byte :: format :: bytes16 offset
  | .operator op field _ => Tag.operator.byte :: op.code :: bytes16 field

mutual

/-- The bytes of a tree. -/
def encode : Expr → List UInt8
  | .operator op field args => ownBytes (.operator op field args) ++ encodeAll args
  | e => ownBytes e

def encodeAll : List Expr → List UInt8
  | [] => []
  | e :: rest => encode e ++ encodeAll rest

end

theorem length_littleEndianBytes (count n : Nat) : (littleEndianBytes count n).length = count := by
  induction count generalizing n with
  | zero => rfl
  | succ count ih => simp [littleEndianBytes, ih]

theorem length_ownBytes (e : Expr) : (ownBytes e).length = ownSize e := by
  unfold ownBytes ownSize
  split <;> simp [bytes16, bytes32, bytes64, length_littleEndianBytes, operatorHeaderSize, variableSize,
    const32Size, const64Size]

end Wire

end Correlation

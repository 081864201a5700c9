/-!
# Operators

The operator codes of correlation expressions, as the interface compiler numbers them, and how many
arguments follow each. Codes outside the table, and operators that never occur in a format string,
have no arity: the bytes after such a header cannot be attributed to it.
-/

namespace Correlation

/-- How many argument expressions follow an operator. -/
inductive Arity where
  | unary
  | binary
  | ternary
  | unsupported
  deriving Repr, DecidableEq

namespace Arity

/-- The number of arguments, if the operator has one. -/
def count : Arity → Option Nat
  | unary => some 1
  | binary => some 2
  | ternary => some 3
  | unsupported => none

/-- Whether the arity is known. -/
def isSupported (a : Arity) : Bool :=
  a.count.isSome

def name : Arity → String
  | unary => "Unary"
  | binary => "Binary"
  | ternary => "Ternary"
  | unsupported => "Unsupported"

theorem count_eq_none_iff {a : Arity} : a.count = none ↔ a = unsupported := by
  cases a <;> simp [count]

/-- An operator with an arity has arguments. -/
theorem count_ne_zero (a : Arity) : a.count ≠ some 0 := by
  cases a <;> simp [count]

theorem count_le_three {a : Arity} {n : Nat} (h : a.count = some n) : n ≤ 3 := by
  cases a <;> simp [count] at h <;> omega

end Arity

/-- Coarse grouping of operators, printed in listings. -/
inductive OperatorGroup where
  | unary
  | arithmetic
  | shift
  | relational
  | bitwise
  | logical
  | conditional
  | internal
  deriving Repr, DecidableEq

def OperatorGroup.name : OperatorGroup → String
  | unary => "unary"
  | arithmetic => "arithmetic"
  | shift => "shift"
  | relational => "relational"
  | bitwise => "bitwise"
  | logical => "logical"
  | conditional => "conditional"
  | internal => "internal"

/-- The operators that have a code. -/
inductive Operator where
  | unaryPlus
  | unaryMinus
  | unaryNot
  | unaryComplement
  | unaryIndirection
  | unaryCast
  | unaryAnd
  | unarySizeof
  | unaryAlignof
  | preIncr
  | preDecr
  | postIncr
  | postDecr
  | plus
  | minus
  | star
  | slash
  | mod
  | leftShift
  | rightShift
  | less
  | lessEqual
  | greaterEqual
  | greater
  | equal
  | notEqual
  | and
  | or
  | xor
  | logicalAnd
  | logicalOr
  | function
  | param
  | pointsTo
  | dot
  | index
  | comma
  | stmt
  | assign
  | asyncSplit
  | corrPointer
  | corrTopLevel
  | conditional
  | colon
  deriving Repr, DecidableEq

namespace Operator

/-- The byte that stands for the operator in a header. -/
def code : Operator → UInt8
  | unaryPlus => 0x01
  | unaryMinus => 0x02
  | unaryNot => 0x03
  | unaryComplement => 0x04
  | unaryIndirection => 0x05
  | unaryCast => 0x06
  | unaryAnd => 0x07
  | unarySizeof => 0x08
  | unaryAlignof => 0x09
  | preIncr => 0x0a
  | preDecr => 0x0b
  | postIncr => 0x0c
  | postDecr => 0x0d
  | plus => 0x0e
  | minus => 0x0f
  | star => 0x10
  | slash => 0x11
  | mod => 0x12
  | leftShift => 0x13
  | rightShift => 0x14
  | less => 0x15
  | lessEqual => 0x16
  | greaterEqual => 0x17
  | greater => 0x18
  | equal => 0x19
  | notEqual => 0x1a
  | and => 0x1b
  | or => 0x1c
  | xor => 0x1d
  | logicalAnd => 0x1e
  | logicalOr => 0x1f
  | function => 0x20
  | param => 0x21
  | pointsTo => 0x22
  | dot => 0x23
  | index => 0x24
  | comma => 0x25
  | stmt => 0x26
  | assign => 0x27
  | asyncSplit => 0x28
  | corrPointer => 0x29
  | corrTopLevel => 0x2a
  | conditional => 0x2b
  | colon => 0x2c

/-- All operators, by code. -/
def all : List Operator :=
  [unaryPlus, unaryMinus, unaryNot, unaryComplement, unaryIndirection, unaryCast, unaryAnd, unarySizeof,
    unaryAlignof, preIncr, preDecr, postIncr, postDecr, plus, minus, star, slash, mod, leftShift, rightShift,
    less, lessEqual, greaterEqual, greater, equal, notEqual, and, or, xor, logicalAnd, logicalOr, function,
    param, pointsTo, dot, index, comma, stmt, assign, asyncSplit, corrPointer, corrTopLevel, conditional, colon]

/-- The operator a code stands for. -/
def ofCode? (code : UInt8) : Option Operator :=
  all.find? (·.code == code)

/-- The operator's name in listings and messages. -/
def name : Operator → String
  | unaryPlus => "unary_plus"
  | unaryMinus => "unary_minus"
  | unaryNot => "unary_not"
  | unaryComplement => "unary_complement"
  | unaryIndirection => "unary_indirection"
  | unaryCast => "unary_cast"
  | unaryAnd => "unary_and"
  | unarySizeof => "unary_sizeof"
  | unaryAlignof => "unary_alignof"
  | preIncr => "pre_incr"
  | preDecr => "pre_decr"
  | postIncr => "post_incr"
  | postDecr => "post_decr"
  | plus => "plus"
  | minus => "minus"
  | star => "star"
  | slash => "slash"
  | mod => "mod"
  | leftShift => "left_shift"
  | rightShift => "right_shift"
  | less => "less"
  | lessEqual => "less_equal"
  | greaterEqual => "greater_equal"
  | greater => "greater"
  | equal => "equal"
  | notEqual => "not_equal"
  | and => "and"
  | or => "or"
  | xor => "xor"
  | logicalAnd => "logical_and"
  | logicalOr => "logical_or"
  | function => "function"
  | param => "param"
  | pointsTo => "points_to"
  | dot => "dot"
  | index => "index"
  | comma => "comma"
  | stmt => "stmt"
  | assign => "assign"
  | asyncSplit => "async_split"
  | corrPointer => "corr_pointer"
  | corrTopLevel => "corr_top_level"
  | conditional => "conditional"
  | colon => "colon"

/-- Increments, compiler-internal operators and the lone colon have no arity. -/
def arity : Operator → Arity
  | unaryPlus | unaryMinus | unaryNot | unaryComplement | unaryIndirection | unaryCast | unaryAnd
  | unarySizeof | unaryAlignof => .unary
  | plus | minus | star | slash | mod | leftShift | rightShift | less | lessEqual | greaterEqual | greater
  | equal | notEqual | and | or | xor | logicalAnd | logicalOr => .binary
  | conditional => .ternary
  | preIncr | preDecr | postIncr | postDecr | function | param | pointsTo | dot | index | comma | stmt | assign
  | asyncSplit | corrPointer | corrTopLevel | colon => .unsupported

def group : Operator → OperatorGroup
  | unaryPlus | unaryMinus | unaryNot | unaryComplement | unaryIndirection | unaryCast | unaryAnd
  | unarySizeof | unaryAlignof | preIncr | preDecr | postIncr | postDecr => .unary
  | plus | minus | star | slash | mod => .arithmetic
  | leftShift | rightShift => .shift
  | less | lessEqual | greaterEqual | greater | equal | notEqual => .relational
  | and | or | xor => .bitwise
  | logicalAnd | logicalOr => .logical
  | conditional => .conditional
  | function | param | pointsTo | dot | index | comma | stmt | assign | asyncSplit | corrPointer
  | corrTopLevel | colon => .internal

/-- Operators are ordered by code. -/
instance : Ord Operator where
  compare a b := compare a.code b.code

/-- The arity of a raw code; a code of no operator has none. -/
def arityOf (code : UInt8) : Arity :=
  ((ofCode? code).map arity).getD .unsupported

/-! ## Codes name operators -/

theorem ofCode?_code (op : Operator) : ofCode? op.code = some op := by
  cases op <;> rfl

theorem ofCode?_eq_some_iff {c : UInt8} {op : Operator} : ofCode? c = some op ↔ op.code = c := by
  constructor
  · intro h
    simpa using List.find?_some h
  · rintro rfl
    exact ofCode?_code op

/-- No two operators share a code. -/
theorem code_inj {a b : Operator} (h : a.code = b.code) : a = b := by
  have hb := ofCode?_code b
  rw [← h, ofCode?_code] at hb
  exact Option.some.inj hb

theorem arityOf_code (op : Operator) : arityOf op.code = op.arity := by
  simp [arityOf, ofCode?_code]

end Operator

end Correlation

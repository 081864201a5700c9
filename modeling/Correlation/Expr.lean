import Correlation.Failure
/-!
# Expression trees

A decoded correlation expression: constants, variables of the call frame, operators over argument
expressions, and invalid nodes that stand for what could not be decoded. `Expr.combine` is the only
builder of operator nodes, and every tree it makes from lawful arguments is lawful
(`lawful_of_combine`): each operator node has exactly the arguments that its arity asks for.
-/

namespace Correlation

/-- Width of a constant. -/
inductive Width where
  | bits32
  | bits64
  deriving Repr, DecidableEq

/-- Why a node is invalid. -/
inductive Defect where
  /-- The slot is empty, or there is no table. -/
  | absent
  /-- No node begins with this tag. -/
  | unknownTag (tag : UInt8)
  /-- An operator header whose code has no arity; only the header belongs to the node. -/
  | unsupportedOperator (code : UInt8) (field : Int16)
  deriving Repr, DecidableEq

/-- An expression tree. -/
inductive Expr where
  | invalid (defect : Defect)
  /-- A literal with its format character, recorded offset and sign-extended value. -/
  | const (width : Width) (format : UInt8) (offset : Int16) (value : Int64)
  /-- A value at an offset of the call frame. -/
  | var (format : UInt8) (offset : Int16)
  /-- An operator, the 16-bit field of its header, and its arguments from left to right. -/
  | operator (op : Operator) (field : Int16) (args : List Expr)
  deriving Inhabited

namespace Expr

/-- The node for "no expression". -/
def absent : Expr :=
  invalid .absent

/-- A 32-bit literal, sign-extended. -/
def const32 (format : UInt8) (offset : Int16) (value : Int32) : Expr :=
  const .bits32 format offset value.toInt64

/-- The arguments of an operator; every other node has none. -/
def args : Expr → List Expr
  | operator _ _ args => args
  | _ => []

/-- False for the invalid nodes alone. -/
def isValid : Expr → Bool
  | invalid _ => false
  | _ => true

/-- The format character: for an operator, the low byte of its field. -/
def format? : Expr → Option UInt8
  | invalid _ => none
  | const _ format _ _ => some format
  | var format _ => some format
  | operator _ field _ => some field.toUInt16.toUInt8

/-- Put `args` under an operator, if they are as many as its arity asks for. -/
def combine (op : Operator) (field : Int16) (args : List Expr) : Except Failure Expr :=
  if op.arity.count = some args.length then .ok (operator op field args)
  else .error (.arityMismatch op (op.arity.count.getD 0) args.length)

/-! ## Equality -/

mutual

/-- Trees are compared node by node. -/
def decEq : (a b : Expr) → Decidable (a = b)
  | invalid d, invalid d' => decidable_of_iff (d = d') (by simp)
  | const w f o v, const w' f' o' v' => decidable_of_iff (w = w' ∧ f = f' ∧ o = o' ∧ v = v') (by simp)
  | var f o, var f' o' => decidable_of_iff (f = f' ∧ o = o') (by simp)
  | operator p f as, operator p' f' as' =>
    if h : p = p' ∧ f = f' then
      match decEqAll as as' with
      | isTrue h' => isTrue (by simp [h, h'])
      | isFalse h' => isFalse (by simp [h'])
    else isFalse (by simp; intro hp hf; exact absurd ⟨hp, hf⟩ h)
  | invalid _, const .. | invalid _, var .. | invalid _, operator .. => isFalse nofun
  | const .., invalid _ | const .., var .. | const .., operator .. => isFalse nofun
  | var .., invalid _ | var .., const .. | var .., operator .. => isFalse nofun
  | operator .., invalid _ | operator .., const .. | operator .., var .. => isFalse nofun

/-- The same for argument lists. -/
def decEqAll : (as bs : List Expr) → Decidable (as = bs)
  | [], [] => isTrue rfl
  | [], _ :: _ | _ :: _, [] => isFalse nofun
  | a :: as, b :: bs =>
    match decEq a b with
    | isTrue h =>
      match decEqAll as bs with
      | isTrue h' => isTrue (by simp [h, h'])
      | isFalse h' => isFalse (by simp [h'])
    | isFalse h => isFalse (by simp [h])

end

instance : DecidableEq Expr := decEq

/-! ## The arity rule -/

/-- Every operator node has a supported operator and exactly its arity of arguments. -/
inductive Lawful : Expr → Prop where
  | invalid (d) : Lawful (invalid d)
  | const (w f o v) : Lawful (const w f o v)
  | var (f o) : Lawful (var f o)
  | operator (op field args) : op.arity.count = some args.length → (∀ a ∈ args, Lawful a) →
    Lawful (operator op field args)

theorem combine_eq_ok_iff {op : Operator} {field : Int16} {args : List Expr} {e : Expr} :
    combine op field args = .ok e ↔ op.arity.count = some args.length ∧ e = operator op field args := by
  unfold combine
  split <;> simp_all [eq_comm]

/-- Building keeps the arity rule. -/
theorem lawful_of_combine {op : Operator} {field : Int16} {args : List Expr} {e : Expr}
    (h : combine op field args = .ok e) (hargs : ∀ a ∈ args, Lawful a) : Lawful e := by
  obtain ⟨hcount, rfl⟩ := combine_eq_ok_iff.1 h
  exact .operator op field args hcount hargs

end Expr

end Correlation

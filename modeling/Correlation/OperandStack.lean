import Correlation.Expr.Traversal
import Correlation.Log
import Correlation.Wire.Reader
/-!
# Operand stacks

Building trees from postfix sequences: operands are pushed as they come, and an operator takes the topmost
ones as its arguments, in the order in which they were pushed. Every entry keeps the height of its tree,
so that nothing is built that the decoder would refuse under the same depth limit.
-/

namespace Correlation

/-- A tree and its height. -/
structure Operand where
  expr : Expr
  height : Nat
  deriving DecidableEq

/-- Operands, topmost first, and the depth limit for what is built from them. -/
structure OperandStack where
  operands : List Operand := []
  limit : Nat := Wire.defaultDepthLimit
  deriving DecidableEq

namespace OperandStack

def push (s : OperandStack) (e : Expr) : OperandStack :=
  { s with operands := ⟨e, e.depth⟩ :: s.operands }

/-- The stack that results from pushing `es` in order, with the default limit. -/
def ofList (es : List Expr) : OperandStack :=
  es.foldl push {}

/-- The top and what is below it. -/
def pop? (s : OperandStack) : Option (Expr × OperandStack) :=
  match s.operands with
  | [] => none
  | top :: rest => some (top.expr, { s with operands := rest })

def peek? (s : OperandStack) : Option Expr :=
  s.operands.head?.map (·.expr)

def size (s : OperandStack) : Nat :=
  s.operands.length

/-- The trees, bottom first. -/
def toList (s : OperandStack) : List Expr :=
  s.operands.reverse.map (·.expr)

/-- The only tree on the stack. -/
def single (s : OperandStack) : Except Failure Expr :=
  match s.operands with
  | [top] => .ok top.expr
  | operands => .error (.unbalancedStack operands.length)

/-- What an operation returns, leaves and reports. -/
structure Outcome (α : Type) where
  result : Except Failure α
  stack : OperandStack
  events : List Event := []

/-- Take the arguments of `op` off the stack and put them under it. An operator without an arity takes none
and becomes an invalid node. A refused operator leaves the stack as it was. -/
def take (s : OperandStack) (op : Operator) (field : Int16) : Outcome Operand :=
  match op.arity.count with
  | none => ⟨.ok ⟨.invalid (.unsupportedOperator op.code field), 1⟩, s, [.boundWithoutArity op]⟩
  | some arity =>
    let top := s.operands.take arity
    -- The sums are exact: a tree has fewer levels than the greatest word counts.
    let height := 1 + (top.map (·.height)).foldl max 0
    if top.length < arity then ⟨.error (.stackUnderflow op arity s.size), s, []⟩
    else if height > s.limit + 1 then ⟨.error (.tooDeep s.limit), s, [.refusedHeight op height]⟩
    else
      ⟨(Expr.combine op field (top.reverse.map (·.expr))).map (⟨·, height⟩),
        { s with operands := s.operands.drop arity }, []⟩

/-- The node that `op` makes of the topmost operands, which are gone from the stack. -/
def bind (s : OperandStack) (op : Operator) (field : Int16) : Outcome Expr :=
  let o := s.take op field
  ⟨o.result.map (·.expr), o.stack, o.events⟩

/-- The same, with the node put on the stack. -/
def apply (s : OperandStack) (op : Operator) (field : Int16) : Outcome Expr :=
  let o := s.take op field
  match o.result with
  | .ok top => ⟨.ok top.expr, { o.stack with operands := top :: o.stack.operands }, o.events⟩
  | .error e => ⟨.error e, o.stack, o.events⟩

end OperandStack

end Correlation

import Correlation.Expr
/-!
# Traversal

The pre-order, post-order, node count and height of a tree, each by recursion on the tree, and the
loops that compute pre-order and height with a list of pending nodes, so that deep trees take no
deep recursion. `size_eq` opens the count that both loops end by.
-/

namespace Correlation

namespace Expr

/-! ## By recursion on the tree -/

mutual

/-- The number of nodes. -/
def size : Expr → Nat
  | operator _ _ args => sizeAll args + 1
  | _ => 1

def sizeAll : List Expr → Nat
  | [] => 0
  | e :: rest => size e + sizeAll rest

end

mutual

/-- The number of levels; a leaf has one. -/
def height : Expr → Nat
  | operator _ _ args => heightAll args + 1
  | _ => 1

/-- The greatest height in a list, zero if it is empty. -/
def heightAll : List Expr → Nat
  | [] => 0
  | e :: rest => max (height e) (heightAll rest)

end

mutual

/-- A node before its arguments, and those from left to right. -/
def preorder : Expr → List Expr
  | operator op field args => operator op field args :: preorderAll args
  | e => [e]

def preorderAll : List Expr → List Expr
  | [] => []
  | e :: rest => preorder e ++ preorderAll rest

end

mutual

/-- A node after its arguments, and those from left to right. -/
def postorder : Expr → List Expr
  | operator op field args => postorderAll args ++ [operator op field args]
  | e => [e]

def postorderAll : List Expr → List Expr
  | [] => []
  | e :: rest => postorder e ++ postorderAll rest

end

theorem size_eq (e : Expr) : e.size = sizeAll e.args + 1 := by
  cases e <;> simp [size, sizeAll, args]

theorem sizeAll_append (es fs : List Expr) : sizeAll (es ++ fs) = sizeAll es + sizeAll fs := by
  induction es with
  | nil => simp [sizeAll]
  | cons e es ih => simp [sizeAll, ih, Nat.add_assoc]

/-! ## With a list of pending nodes -/

/-- Visit the first pending node and put its arguments before the others. -/
def visit (seen : Array Expr) : List Expr → Array Expr
  | [] => seen
  | e :: pending => visit (seen.push e) (e.args ++ pending)
termination_by pending => sizeAll pending
decreasing_by
  rw [sizeAll_append, sizeAll, size_eq e]
  omega

/-- All nodes in pre-order. -/
def nodes (e : Expr) : List Expr :=
  (visit #[] [e]).toList

/-- The number of nodes. -/
def count (e : Expr) : Nat :=
  (visit #[] [e]).size

/-- The deepest level among `best` and the subtrees of the pending nodes, each of which stands at a level. -/
def deepest (best : Nat) : List (Expr × Nat) → Nat
  | [] => best
  | (e, level) :: pending => deepest (max best level) (e.args.map (·, level + 1) ++ pending)
termination_by pending => sizeAll (pending.map Prod.fst)
decreasing_by
  simp [sizeAll_append, sizeAll, size_eq e, Function.comp_def]

/-- The number of levels, by the loop. -/
def depth (e : Expr) : Nat :=
  deepest 0 [(e, 1)]

end Expr

end Correlation

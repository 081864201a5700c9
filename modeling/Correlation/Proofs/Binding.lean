import Correlation.OperandStack
import Correlation.Proofs.Traversal
/-!
# Binding operators

What taking the arguments of an operator off a stack comes to, when the stack holds them with their heights.
-/

namespace Correlation

/-- A tree as `push` puts it on a stack. -/
def Operand.of (e : Expr) : Operand :=
  ⟨e, e.depth⟩

namespace OperandStack

theorem push_eq (s : OperandStack) (e : Expr) : s.push e = { s with operands := .of e :: s.operands } :=
  rfl

theorem foldl_max_le_iff {ns : List Nat} {m n : Nat} : ns.foldl max m ≤ n ↔ m ≤ n ∧ ∀ k ∈ ns, k ≤ n := by
  induction ns generalizing m with
  | nil => simp
  | cons k ns ih => rw [List.foldl_cons, ih, Nat.max_le, List.forall_mem_cons, and_assoc]

/-- The stack holds arguments in reverse; the highest is the same. -/
theorem foldl_max_heights (args : List Expr) :
    (((args.map Operand.of).reverse).map (·.height)).foldl max 0 = Expr.heightAll args := by
  have h : ∀ n, (((args.map Operand.of).reverse).map (·.height)).foldl max 0 ≤ n ↔ Expr.heightAll args ≤ n := by
    intro n
    rw [foldl_max_le_iff, Expr.heightAll_le_iff]
    simp [Operand.of, Expr.depth_eq_height]
  exact Nat.le_antisymm ((h _).2 (Nat.le_refl _)) ((h _).1 (Nat.le_refl _))

/-- An operator takes its arguments from the top of the stack, unless they are too high for the limit. -/
theorem take_eq {s : OperandStack} {op : Operator} {field : Int16} {args : List Expr} {rest : List Operand}
    (hstack : s.operands = (args.map Operand.of).reverse ++ rest) (harity : op.arity.count = some args.length) :
    s.take op field =
      if Expr.heightAll args ≤ s.limit then
        ⟨.ok (.of (.operator op field args)), { s with operands := rest }, []⟩
      else ⟨.error (.tooDeep s.limit), s, [.refusedHeight op (1 + Expr.heightAll args)]⟩ := by
  have hlength : ((args.map Operand.of).reverse).length = args.length := by simp
  have htop : s.operands.take args.length = (args.map Operand.of).reverse := by
    rw [hstack, List.take_left' hlength]
  have hrest : s.operands.drop args.length = rest := by
    rw [hstack, List.drop_left' hlength]
  have hcombine : Expr.combine op field args = .ok (.operator op field args) :=
    Expr.combine_eq_ok_iff.2 ⟨harity, rfl⟩
  unfold take
  simp only [harity, htop, hrest, hlength, foldl_max_heights, Nat.lt_irrefl, if_false]
  have hargs : ((args.map Operand.of).reverse.reverse).map (·.expr) = args := by
    simp [Operand.of, Function.comp_def]
  have hheight : (Expr.operator op field args).depth = 1 + Expr.heightAll args := by
    rw [Expr.depth_eq_height, Expr.height_eq, Nat.add_comm]
    rfl
  rw [hargs, hcombine]
  by_cases h : Expr.heightAll args ≤ s.limit
  · rw [if_pos h, if_neg (by omega), Operand.of, hheight]
    rfl
  · rw [if_neg h, if_pos (by omega)]

end OperandStack

end Correlation

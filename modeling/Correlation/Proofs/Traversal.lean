import Correlation.Expr.Traversal
/-!
# The pending-node loops

What the loops over pending nodes compute: `nodes` are the nodes in pre-order and `depth` is the height of the
tree, each by an invariant on arbitrary lists of pending nodes.
-/

namespace Correlation

namespace Expr

/-! ## Pre-order -/

theorem preorder_eq (e : Expr) : e.preorder = e :: preorderAll e.args := by
  cases e <;> simp [preorder, preorderAll, args]

theorem preorderAll_append (es fs : List Expr) : preorderAll (es ++ fs) = preorderAll es ++ preorderAll fs := by
  induction es with
  | nil => rfl
  | cons e es ih => rw [List.cons_append, preorderAll, preorderAll, ih, List.append_assoc]

theorem mem_preorderAll {node : Expr} {es : List Expr} : node ∈ preorderAll es ↔ ∃ e ∈ es, node ∈ e.preorder := by
  induction es with
  | nil => simp [preorderAll]
  | cons e rest ih => simp [preorderAll, ih]

/-- The invariant of the loop: what is seen so far, and the nodes of the pending trees, one tree after the other. -/
theorem toList_visit (seen : Array Expr) (pending : List Expr) :
    (visit seen pending).toList = seen.toList ++ preorderAll pending := by
  fun_induction visit seen pending with
  | case1 seen => simp [preorderAll]
  | case2 seen e pending ih => simp [ih, preorderAll, preorderAll_append, preorder_eq e]

theorem nodes_eq_preorder (e : Expr) : e.nodes = e.preorder := by
  simp [nodes, toList_visit, preorderAll]

/-! ## Height -/

theorem height_pos (e : Expr) : 0 < e.height := by
  cases e <;> simp [height]

theorem height_eq (e : Expr) : e.height = heightAll e.args + 1 := by
  cases e <;> simp [height, heightAll, args]

/-- A list is as high as its highest member. -/
theorem heightAll_le_iff {es : List Expr} {n : Nat} : heightAll es ≤ n ↔ ∀ e ∈ es, e.height ≤ n := by
  induction es with
  | nil => simp [heightAll]
  | cons e es ih => rw [heightAll, Nat.max_le, ih, List.forall_mem_cons]

theorem lt_heightAll_iff {es : List Expr} {n : Nat} : n < heightAll es ↔ ∃ e ∈ es, n < e.height := by
  rw [← Nat.not_le, heightAll_le_iff]
  simp

/-- One past the deepest level that the subtrees of the pending nodes reach. -/
def reach : List (Expr × Nat) → Nat
  | [] => 0
  | (e, level) :: pending => max (level + e.height) (reach pending)

theorem reach_append (ps qs : List (Expr × Nat)) : reach (ps ++ qs) = max (reach ps) (reach qs) := by
  induction ps with
  | nil => simp [reach]
  | cons p ps ih => simp [reach, ih, Nat.max_assoc]

/-- The arguments of a node at a level reach as far as the node itself. -/
theorem max_reach_args (es : List Expr) (level : Nat) :
    max (level + 1) (reach (es.map (·, level + 1))) = level + 1 + heightAll es := by
  induction es with
  | nil => simp [reach, heightAll]
  | cons e es ih =>
    simp only [List.map_cons, reach, heightAll]
    omega

/-- The invariant of the loop: what is best so far and what the pending nodes still reach. -/
theorem deepest_add_one (best : Nat) (pending : List (Expr × Nat)) :
    deepest best pending + 1 = max (best + 1) (reach pending) := by
  fun_induction deepest best pending with
  | case1 best => simp [reach]
  | case2 best e level pending ih =>
    have hargs := max_reach_args e.args level
    have hheight := height_eq e
    rw [ih, reach_append, reach]
    omega

/-- The loop finds the height. -/
theorem depth_eq_height (e : Expr) : e.depth = e.height := by
  have h := deepest_add_one 0 [(e, 1)]
  have hpos := height_pos e
  simp only [reach] at h
  unfold depth
  omega

end Expr

end Correlation

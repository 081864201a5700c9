import Correlation.Expr.Traversal
import Correlation.Listing
/-!
# Lines of listings

A listing has one line for each node, in pre-order, and a node's line is indented by its depth (`render_eq_lines`).
-/

namespace Correlation

namespace Expr

mutual

/-- The nodes in pre-order, each with the depth at which it stands when the root stands at `depth`. -/
def placed (depth : Nat) : Expr → List (Nat × Expr)
  | operator op field args => (depth, operator op field args) :: placedAll (depth + 1) args
  | e => [(depth, e)]

def placedAll (depth : Nat) : List Expr → List (Nat × Expr)
  | [] => []
  | e :: rest => placed depth e ++ placedAll depth rest

end

theorem placed_eq (depth : Nat) (e : Expr) : e.placed depth = (depth, e) :: placedAll (depth + 1) e.args := by
  cases e <;> simp [placed, placedAll, args]

end Expr

namespace Listing

open Correlation.Expr (placed placedAll)

/-- Lines in a row, each with its line end. -/
def unlines (ls : List String) : String :=
  String.join (ls.map (· ++ "\n"))

/-- Lines without line ends within them are what stands between the line ends, and nothing is left behind the last. -/
theorem splitOn_unlines {ls : List String} (h : ∀ l ∈ ls, '\n' ∉ l.toList) :
    (unlines ls).toList.splitOn '\n' = ls.map String.toList ++ [[]] := by
  induction ls with
  | nil => rfl
  | cons l rest ih =>
    obtain ⟨hl, hrest⟩ := List.forall_mem_cons.1 h
    have htext : (unlines (l :: rest)).toList = l.toList ++ '\n' :: (unlines rest).toList := by simp [unlines]
    rw [htext, List.splitOn_append_cons_self_of_not_mem hl, ih hrest, List.map_cons, List.cons_append]

/-- The lines of nodes at their depths. -/
def lines (nodes : List (Nat × Expr)) : String :=
  String.join (nodes.map fun node => indented node.1 (line node.2))

theorem lines_cons (depth : Nat) (e : Expr) (rest : List (Nat × Expr)) :
    lines ((depth, e) :: rest) = indented depth (line e) ++ lines rest := by
  simp [lines]

theorem lines_append (ps qs : List (Nat × Expr)) : lines (ps ++ qs) = lines ps ++ lines qs := by
  simp [lines]

/-- A node's line, as far in as the node is deep. -/
def placedLine (node : Nat × Expr) : String :=
  String.ofList (List.replicate (2 * node.1) ' ') ++ line node.2

theorem lines_eq_unlines (nodes : List (Nat × Expr)) : lines nodes = unlines (nodes.map placedLine) := by
  simp [lines, unlines, placedLine, indented, Function.comp_def]

theorem write_eq (out : String) (level : Nat) (e : Expr) :
    write out level e = writeAll (out ++ indented level (line e)) (level + 1) e.args := by
  cases e <;> simp [write, writeAll, Expr.args]

mutual

/-- What is written are the lines of the nodes. -/
theorem write_eq_lines (out : String) (level : Nat) (e : Expr) : write out level e = out ++ lines (e.placed level) := by
  cases e with
  | operator op field args =>
    rw [write_eq, Expr.args, writeAll_eq_lines, Expr.placed_eq, Expr.args, lines_cons, String.append_assoc]
  | _ => simp [write, placed, lines]

theorem writeAll_eq_lines (out : String) (level : Nat) (es : List Expr) :
    writeAll out level es = out ++ lines (placedAll level es) := by
  cases es with
  | nil => simp [writeAll, placedAll, lines]
  | cons e rest =>
    rw [writeAll, writeAll_eq_lines, write_eq_lines, placedAll, lines_append, String.append_assoc]

end

theorem render_eq_lines (e : Expr) : e.render = lines (e.placed 0) := by
  rw [Expr.render, write_eq_lines, String.empty_append]

end Listing

end Correlation

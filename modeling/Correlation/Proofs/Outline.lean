import Correlation.Proofs.Legibility
import Correlation.Proofs.Traversal
/-!
# Listings as outlines

A listing has as many lines as the tree has nodes. They come in the order in which the nodes are listed, each as far in
as its node is deep, so the listing of an operator is its own line and the listings of its arguments, moved in by one
step (`render_outlines`).
-/

namespace Correlation

namespace Listing

open Correlation.Expr (placed placedAll)

/-! ## Texts and their lines -/

/-- The text is made of these lines: each ends in a line end and has none within. -/
structure Consists (text : String) (ls : List String) : Prop where
  text_eq : text = unlines ls
  whole : ∀ l ∈ ls, '\n' ∉ l.toList

/-- The lines of a text, of which the last one has to end in a line end as well. -/
def linesOf (text : String) : List String :=
  (text.toList.splitOn '\n').dropLast.map String.ofList

/-- A text with every line two blanks further in. -/
def movedIn (text : String) : String :=
  unlines ((linesOf text).map ("  " ++ ·))

/-- A text is made of its lines alone. -/
theorem Consists.linesOf_eq {text : String} {ls : List String} (h : Consists text ls) : linesOf text = ls := by
  rw [linesOf, h.text_eq, splitOn_unlines h.whole, List.dropLast_concat, List.map_map]
  simp [Function.comp_def]

/-! ## Nodes and their depths -/

theorem consists_lines (nodes : List (Nat × Expr)) : Consists (lines nodes) (nodes.map placedLine) :=
  ⟨lines_eq_unlines nodes, List.forall_mem_map.2 fun node _ => newline_not_mem_placedLine node⟩

mutual

/-- The nodes that have a depth are those in pre-order. -/
theorem map_snd_placed (depth : Nat) (e : Expr) : (placed depth e).map Prod.snd = e.preorder := by
  cases e with
  | operator op field args => simp [placed, Expr.preorder, map_snd_placedAll]
  | _ => rfl

theorem map_snd_placedAll (depth : Nat) (es : List Expr) :
    (placedAll depth es).map Prod.snd = Expr.preorderAll es := by
  cases es with
  | nil => rfl
  | cons e rest => simp [placedAll, Expr.preorderAll, map_snd_placed, map_snd_placedAll]

end

mutual

/-- A level further down, every node of a tree is. -/
theorem placed_succ (depth : Nat) (e : Expr) :
    placed (depth + 1) e = (placed depth e).map fun node => (node.1 + 1, node.2) := by
  cases e with
  | operator op field args => simp [placed, placedAll_succ]
  | _ => rfl

theorem placedAll_succ (depth : Nat) (es : List Expr) :
    placedAll (depth + 1) es = (placedAll depth es).map fun node => (node.1 + 1, node.2) := by
  cases es with
  | nil => rfl
  | cons e rest => simp [placedAll, placed_succ, placedAll_succ]

end

theorem placedLine_succ (node : Nat × Expr) : placedLine (node.1 + 1, node.2) = "  " ++ placedLine node := by
  have hblanks : String.ofList (List.replicate (2 * (node.1 + 1)) ' ') =
      "  " ++ String.ofList (List.replicate (2 * node.1) ' ') := by
    apply String.toList_inj.1
    simp [Nat.mul_succ, List.replicate_succ]
  rw [placedLine, placedLine, hblanks, String.append_assoc]

/-- A level further down, the lines of a tree are two blanks further in. -/
theorem lines_placed_succ (depth : Nat) (e : Expr) :
    lines (placed (depth + 1) e) = movedIn (lines (placed depth e)) := by
  rw [movedIn, (consists_lines _).linesOf_eq, lines_eq_unlines, placed_succ, List.map_map, List.map_map]
  simp only [Function.comp_def, placedLine_succ]

theorem lines_placedAll_succ (depth : Nat) (es : List Expr) :
    lines (placedAll (depth + 1) es) = String.join (es.map fun e => movedIn (lines (placed depth e))) := by
  induction es with
  | nil => rfl
  | cons e rest ih => rw [placedAll, lines_append, lines_placed_succ, ih, List.map_cons, String.join_cons]

end Listing

open Listing

/-! ## Main theorem -/

/-- A listing is made of one line for each node that a traversal yields, in that order and as far in as the node is
deep, and of no other lines. The listing of an operator is its line before the listings of its arguments, moved in. -/
theorem Expr.render_outlines (e : Expr) :
    (e.placed 0).map Prod.snd = e.nodes ∧
      Consists e.render ((e.placed 0).map placedLine) ∧ (linesOf e.render).length = e.count ∧
      (∀ i : Fin e.nodes.length, ∃ depth, (e.placed 0)[i]? = some (depth, e.nodes[i]) ∧
        (linesOf e.render)[i]? = some (String.ofList (List.replicate (2 * depth) ' ') ++ line e.nodes[i])) ∧
      ∀ op field args, (operator op field args).render =
        line (operator op field args) ++ "\n" ++ String.join (args.map fun a => movedIn a.render) := by
  have hnodes : (e.placed 0).map Prod.snd = e.nodes := by rw [nodes_eq_preorder, map_snd_placed]
  have hconsists : Consists e.render ((e.placed 0).map placedLine) := by
    rw [render_eq_lines]
    exact consists_lines _
  have hlines : linesOf e.render = (e.placed 0).map placedLine := hconsists.linesOf_eq
  refine ⟨hnodes, hconsists, ?_, ?_, ?_⟩
  · rw [hlines, List.length_map, ← List.length_map Prod.snd, hnodes, nodes, count, Array.length_toList]
  · rintro ⟨i, hi⟩
    obtain ⟨⟨depth, node⟩, hplaced, hnode⟩ : ∃ node, (e.placed 0)[i]? = some node ∧ node.2 = e.nodes[i] := by
      rw [← Option.map_eq_some_iff, ← List.getElem?_map, hnodes, List.getElem?_eq_getElem hi]
    obtain rfl : node = e.nodes[i] := hnode
    exact ⟨depth, hplaced, by simp [hlines, hplaced, placedLine]⟩
  · intro op field args
    rw [render_eq_lines, placed_eq, lines_cons, lines_placedAll_succ]
    simp only [← render_eq_lines]
    rfl

end Correlation

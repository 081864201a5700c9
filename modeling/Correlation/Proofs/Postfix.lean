import Correlation.Proofs.Binding
import Correlation.Proofs.RoundTrip
/-!
# Postfix order builds what decoding reads

A tree's nodes in post-order, fed to an operand stack, give the tree back or are refused for its height
(`foldlM_feed_postorder`). Decoding its bytes has the same two outcomes under the same limit: the decoder counts
levels from the root down before it reads, the stack counts heights from the leaves up after it has built.
-/

namespace Correlation

open Decoder Wire

namespace OperandStack

/-! ## Folding a postfix sequence -/

/-- What one node of a postfix sequence does: a leaf is pushed, and of an operator node only the header counts,
which is applied to the stack. -/
def feed (s : OperandStack) : Expr → Except Failure OperandStack
  | .operator op field _ =>
    let o := s.apply op field
    o.result.map fun _ => o.stack
  | leaf => .ok (s.push leaf)

/-- The tree that a postfix sequence builds on an empty stack; the first failure ends it. -/
def fold (limit : Nat) (nodes : List Expr) : Except Failure Expr := do
  let s ← nodes.foldlM feed { limit }
  s.single

/-- An operator node finds its arguments on the stack and takes their place. -/
theorem feed_operator {s : OperandStack} {op : Operator} {field : Int16} {args : List Expr} {rest : List Operand}
    (hstack : s.operands = (args.map Operand.of).reverse ++ rest) (harity : op.arity.count = some args.length) :
    s.feed (.operator op field args) =
      if Expr.heightAll args ≤ s.limit then .ok { s with operands := .of (.operator op field args) :: rest }
      else .error (.tooDeep s.limit) := by
  rw [feed, apply, take_eq hstack harity]
  by_cases h : Expr.heightAll args ≤ s.limit
  · simp only [if_pos h]
    rfl
  · simp only [if_neg h]
    rfl

/-- Trees fed one after the other end up on the stack, unless one of them is too high. -/
theorem foldlM_feed_postorderAll {es : List Expr}
    (hes : ∀ e ∈ es, ∀ s : OperandStack, e.postorder.foldlM feed s =
      if e.height ≤ s.limit + 1 then .ok (s.push e) else .error (.tooDeep s.limit)) (s : OperandStack) :
    (Expr.postorderAll es).foldlM feed s =
      if Expr.heightAll es ≤ s.limit + 1 then
        .ok { s with operands := (es.map Operand.of).reverse ++ s.operands }
      else .error (.tooDeep s.limit) := by
  induction es generalizing s with
  | nil => simp [Expr.postorderAll, Expr.heightAll]; rfl
  | cons e rest ih =>
    rw [Expr.postorderAll, List.foldlM_append, hes e List.mem_cons_self, Expr.heightAll]
    by_cases he : e.height ≤ s.limit + 1
    · have hlimit : (s.push e).limit = s.limit := rfl
      rw [if_pos he]
      show (Expr.postorderAll rest).foldlM feed (s.push e) = _
      rw [ih (fun a ha => hes a (List.mem_cons_of_mem e ha)), hlimit]
      by_cases hrest : Expr.heightAll rest ≤ s.limit + 1
      · rw [if_pos hrest, if_pos (by omega)]
        simp [push_eq]
      · rw [if_neg hrest, if_neg (by omega)]
    · rw [if_neg he, if_neg (by omega)]
      rfl

/-- A representable tree fed in post-order ends up on the stack, unless it is too high. -/
theorem foldlM_feed_postorder {t : Expr} (ht : Representable t) (s : OperandStack) :
    t.postorder.foldlM feed s =
      if t.height ≤ s.limit + 1 then .ok (s.push t) else .error (.tooDeep s.limit) := by
  induction ht generalizing s with
  | operator op field args harity _ ih =>
    rw [Expr.postorder, List.foldlM_append, foldlM_feed_postorderAll ih, Expr.height]
    -- Arguments as high as the limit allows are still pushed; it is their operator that is refused.
    by_cases hargs : Expr.heightAll args ≤ s.limit + 1
    · rw [if_pos hargs]
      show feed _ _ >>= pure = _
      rw [bind_pure, feed_operator rfl harity]
      by_cases h : Expr.heightAll args ≤ s.limit
      · rw [if_pos h, if_pos (by omega)]
        rfl
      · rw [if_neg h, if_neg (by omega)]
    · rw [if_neg hargs, if_neg (by omega)]
      rfl
  | _ => exact (if_pos (Nat.le_add_left 1 s.limit)).symm

/-- A tree folds to itself or is refused for its height. -/
theorem fold_postorder {t : Expr} (ht : Representable t) (limit : Nat) :
    fold limit t.postorder = if t.depth ≤ limit + 1 then .ok t else .error (.tooDeep limit) := by
  rw [fold, foldlM_feed_postorder ht, Expr.depth_eq_height]
  by_cases h : t.height ≤ limit + 1
  · rw [if_pos h, if_pos h]
    rfl
  · rw [if_neg h, if_neg h]
    rfl

/-! ## Main theorem -/

/-- Folding a tree's nodes in post-order and decoding its bytes come to the same under every limit: the tree, or
the refusal of its depth. -/
theorem fold_postorder_eq_decode {t : Expr} (ht : Representable t)
    (hsize : (encode t).length ≤ Image.greatestSize) (limit : Nat) (c : Cursor) :
    fold limit t.postorder = (atAddress 0 (decode (Image.ofBytes (encode t).toArray) limit) c).1 ∧
      fold limit t.postorder = if t.depth ≤ limit + 1 then .ok t else .error (.tooDeep limit) := by
  have hbytes : (Image.ofBytes (encode t).toArray).Readable 0 (encode t) := by
    simpa using readable_between [] (encode t) [] (by simpa using hsize)
  have hdecode : (decode (Image.ofBytes (encode t).toArray) limit { c with position := 0 }).1 =
      if t.depth ≤ limit + 1 then .ok t else .error (.tooDeep limit) := decode_of_readable ht hbytes
  rw [fold_postorder ht]
  exact ⟨hdecode.symm, rfl⟩

theorem fold_postorder_eq_decode_sample :
    Representable sample ∧ (encode sample).length ≤ Image.greatestSize ∧
      fold 1 sample.postorder = (atAddress 0 (decode (Image.ofBytes (encode sample).toArray) 1) ⟨0, #[], #[]⟩).1 ∧
      fold 1 sample.postorder = .error (.tooDeep 1) := by
  have hsize : (encode sample).length ≤ Image.greatestSize := by decide
  obtain ⟨hsame, hresult⟩ := fold_postorder_eq_decode representable_sample hsize 1 ⟨0, #[], #[]⟩
  rw [if_neg (by rw [depth_sample]; decide)] at hresult
  exact ⟨representable_sample, hsize, hsame, hresult⟩

end OperandStack

end Correlation

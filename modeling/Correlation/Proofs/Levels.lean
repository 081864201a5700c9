import Correlation.Proofs.Traversal
/-!
# The search for the deepest level

The loop that measures a tree keeps the deepest level it has come to and the nodes that are pending, with their levels.
A turn of it takes one pending node. After the turn one node fewer is still to come, and the level that is found in the
end is the same. So the order in which nodes are taken does not matter: after as many turns as the tree has nodes the
loop is at its end, and what it has found is the height (`height_by_turns`).
-/

namespace Correlation

namespace Expr

theorem heightAll_eq_max? (es : List Expr) : heightAll es = (es.map height).max?.getD 0 := by
  induction es with
  | nil => rfl
  | cons e rest ih =>
    rw [heightAll, ih, List.map_cons, List.max?_cons]
    cases (rest.map height).max? with
    | none => simp
    | some n => rfl

/-- A leaf has one level, another node one more than the highest of its arguments. -/
theorem height_eq_max? (e : Expr) : e.height = (e.args.map height).max?.getD 0 + 1 := by
  rw [height_eq, heightAll_eq_max?]

/-! ## Turns -/

/-- A search under way: the deepest level so far, and the nodes to go on from with their levels. -/
structure Search where
  best : Nat
  pending : List (Expr × Nat)

namespace Search

variable {s t : Search} {n : Nat}

/-- A turn takes any of the pending nodes. Its arguments come in its place, one level further down. -/
inductive Turn : Search → Search → Prop
  | take (best : Nat) (before after : List (Expr × Nat)) (e : Expr) (level : Nat) :
    Turn ⟨best, before ++ (e, level) :: after⟩ ⟨max best level, before ++ e.args.map (·, level + 1) ++ after⟩

/-- A number of turns. -/
inductive Turns : Nat → Search → Search → Prop
  | rest (s : Search) : Turns 0 s s
  | turn {n : Nat} {s t u : Search} : Turn s t → Turns n t u → Turns (n + 1) s u

/-- The number of nodes that are still to be taken. -/
def left (s : Search) : Nat :=
  sizeAll (s.pending.map Prod.fst)

/-- The level that a search finds from here on, if it takes the first pending node in every turn. -/
def result (s : Search) : Nat :=
  deepest s.best s.pending

theorem left_eq_zero_iff : s.left = 0 ↔ s.pending = [] := by
  obtain ⟨best, pending⟩ := s
  cases pending with
  | nil => simp [left, sizeAll]
  | cons p rest => simp [left, sizeAll, size_eq p.1]

/-! ## What a turn does -/

theorem exists_turn (h : s.pending ≠ []) : ∃ t, Turn s t := by
  obtain ⟨best, pending⟩ := s
  cases pending with
  | nil => exact absurd rfl h
  | cons p rest => exact ⟨_, .take best [] rest p.1 p.2⟩

theorem Turn.left (h : Turn s t) : t.left + 1 = s.left := by
  obtain ⟨best, before, after, e, level⟩ := h
  simp only [Search.left, List.map_append, List.map_cons, List.map_map, Function.comp_def, List.map_id', sizeAll_append,
    sizeAll, size_eq e]
  omega

theorem Turn.result (h : Turn s t) : t.result = s.result := by
  obtain ⟨best, before, after, e, level⟩ := h
  have hargs : level + e.height = max (level + 1) (reach (e.args.map (·, level + 1))) := by
    rw [max_reach_args, height_eq, Nat.add_comm (heightAll _), Nat.add_assoc]
  apply Nat.succ.inj
  calc
    deepest (max best level) (before ++ e.args.map (·, level + 1) ++ after) + 1
    _ = max (max best level + 1) (max (max (reach before) (reach (e.args.map (·, level + 1)))) (reach after)) := by
      rw [deepest_add_one, reach_append, reach_append]
    _ = max (best + 1) (max (reach before) (max (level + e.height) (reach after))) := by
      rw [hargs, ← Nat.add_max_add_right]
      ac_rfl
    _ = deepest best (before ++ (e, level) :: after) + 1 := by
      rw [deepest_add_one, reach_append, reach]

/-! ## What a search does -/

theorem Turns.left (h : Turns n s t) : t.left + n = s.left := by
  induction h with
  | rest s => rfl
  | turn hturn _ ih =>
    have hleft := hturn.left
    omega

theorem Turns.result (h : Turns n s t) : t.result = s.result := by
  induction h with
  | rest s => rfl
  | turn hturn _ ih => rw [ih, hturn.result]

/-- The loop is a search, with a turn for each node. -/
theorem turns_deepest (best : Nat) (pending : List (Expr × Nat)) :
    Turns (left ⟨best, pending⟩) ⟨best, pending⟩ ⟨deepest best pending, []⟩ := by
  fun_induction deepest best pending with
  | case1 best => exact .rest _
  | case2 best e level pending ih =>
    have hturn : Turn ⟨best, (e, level) :: pending⟩ ⟨max best level, e.args.map (·, level + 1) ++ pending⟩ :=
      .take best [] pending e level
    rw [← hturn.left]
    exact .turn hturn ih

end Search

/-- The search for the height of a tree, before its first turn. -/
def search (e : Expr) : Search :=
  ⟨0, [(e, 1)]⟩

theorem left_search (e : Expr) : e.search.left = e.size := by
  simp [search, Search.left, sizeAll]

theorem result_search (e : Expr) : e.search.result = e.height :=
  depth_eq_height e

open Search

/-! ## Main theorem -/

/-- The measured depth is the height. The loop comes to it in one turn for each node, and a search that takes the nodes
in any other order does so too: it can go on until that many turns are made, and then it is at its end. -/
theorem height_by_turns (e : Expr) :
    e.depth = e.height ∧ e.height = (e.args.map height).max?.getD 0 + 1 ∧
      Turns e.size e.search ⟨e.depth, []⟩ ∧
      ∀ n s, Turns n e.search s →
        n ≤ e.size ∧ (s.pending = [] ↔ n = e.size) ∧ (s.pending = [] → s.best = e.height) ∧
          (s.pending ≠ [] → ∃ t, Turn s t) := by
  have hloop := turns_deepest 0 [(e, 1)]
  rw [← search, left_search] at hloop
  refine ⟨depth_eq_height e, height_eq_max? e, hloop, ?_⟩
  intro n s hturns
  have hleft := hturns.left
  have hresult := hturns.result
  rw [left_search] at hleft
  rw [result_search] at hresult
  refine ⟨by omega, ?_, ?_, exists_turn⟩
  · rw [← left_eq_zero_iff]
    omega
  · intro hend
    rw [← hresult, Search.result, hend, deepest]

/-- One and a product. -/
def sumWithProduct : Expr :=
  operator .plus 8 [const32 8 0 1, operator .star 8 [const32 8 0 2, const32 8 0 3]]

/-- Taking the last pending node in every turn ends after five turns, at three levels. -/
theorem height_by_turns_sample :
    Turns 5 sumWithProduct.search ⟨3, []⟩ ∧ sumWithProduct.size = 5 ∧ sumWithProduct.depth = 3 := by
  have hturns : Turns 5 sumWithProduct.search ⟨3, []⟩ := by
    refine .turn (.take 0 [] [] sumWithProduct 1) ?_
    refine .turn (.take 1 [(const32 8 0 1, 2)] [] (operator .star 8 [const32 8 0 2, const32 8 0 3]) 2) ?_
    refine .turn (.take 2 [(const32 8 0 1, 2), (const32 8 0 2, 3)] [] (const32 8 0 3) 3) ?_
    refine .turn (.take 3 [(const32 8 0 1, 2)] [] (const32 8 0 2) 3) ?_
    exact .turn (.take 3 [] [] (const32 8 0 1) 2) (.rest _)
  obtain ⟨hdepth, -, -, hsearch⟩ := height_by_turns sumWithProduct
  obtain ⟨-, hend, hbest, -⟩ := hsearch 5 _ hturns
  exact ⟨hturns, (hend.1 rfl).symm, hdepth.trans (hbest rfl).symm⟩

end Expr

end Correlation

import Correlation.Proofs.Traversal
/-!
# Nodes and their places

A place in a tree is the way that leads there from the root, by the numbers of the arguments. Listing the nodes takes
them one by one from a stack that holds pending arguments of many nodes. It comes to every place once, in lexicographic
order, and so lists the pre-order (`nodes_in_order`).
-/

namespace Correlation

namespace Expr

/-! ## Places -/

/-- The subtree at a place, if the place is in the tree. -/
def at? (e : Expr) : List Nat → Option Expr
  | [] => some e
  | i :: place => e.args[i]?.bind fun a => a.at? place

mutual

/-- The places of a tree, each before those below it, and those from left to right. -/
def places : Expr → List (List Nat)
  | operator _ _ args => [] :: placesFrom 0 args
  | _ => [[]]

/-- The same for arguments, the first of which has the number `i`. -/
def placesFrom (i : Nat) : List Expr → List (List Nat)
  | [] => []
  | e :: rest => (places e).map (i :: ·) ++ placesFrom (i + 1) rest

end

theorem places_eq (e : Expr) : e.places = [] :: placesFrom 0 e.args := by
  cases e <;> rfl

theorem mem_placesFrom {i : Nat} {es : List Expr} {place : List Nat} :
    place ∈ placesFrom i es ↔ ∃ j below e, place = (i + j) :: below ∧ es[j]? = some e ∧ below ∈ e.places := by
  induction es generalizing i with
  | nil => simp [placesFrom]
  | cons e rest ih =>
    rw [placesFrom, List.mem_append, List.mem_map, ih]
    constructor
    · rintro (⟨below, hbelow, rfl⟩ | ⟨j, below, a, rfl, ha, hbelow⟩)
      · exact ⟨0, below, e, rfl, rfl, hbelow⟩
      · exact ⟨j + 1, below, a, by rw [Nat.add_right_comm, Nat.add_assoc], ha, hbelow⟩
    · rintro ⟨_ | j, below, a, rfl, ha, hbelow⟩
      · obtain rfl : e = a := Option.some.inj ha
        exact .inl ⟨below, hbelow, rfl⟩
      · exact .inr ⟨j, below, a, by rw [Nat.add_right_comm, Nat.add_assoc], ha, hbelow⟩

/-- The places are those at which there is a subtree. -/
theorem mem_places {e : Expr} {place : List Nat} : place ∈ e.places ↔ (e.at? place).isSome := by
  induction place generalizing e with
  | nil => simp [places_eq, at?]
  | cons i below ih =>
    rw [places_eq, List.mem_cons, mem_placesFrom, at?]
    constructor
    · rintro (h | ⟨j, _, a, h, ha, hbelow⟩)
      · cases h
      · obtain ⟨rfl, rfl⟩ : i = j ∧ below = _ := by simpa using h
        rw [ha]
        exact ih.1 hbelow
    · intro h
      obtain ⟨a, ha⟩ : ∃ a, e.args[i]? = some a := Option.isSome_iff_exists.1 (Option.isSome_of_isSome_bind h)
      rw [ha] at h
      exact .inr ⟨i, below, a, by rw [Nat.zero_add], ha, ih.2 h⟩

mutual

/-- Of two places the one that is listed first is on the way to the other, or lies to its left. -/
theorem pairwise_places (e : Expr) : e.places.Pairwise (List.Lex (· < ·)) := by
  cases e with
  | operator op field args =>
    refine List.pairwise_cons.2 ⟨?_, pairwise_placesFrom 0 args⟩
    intro place hplace
    obtain ⟨j, below, -, rfl, -⟩ := mem_placesFrom.1 hplace
    exact .nil
  | _ => exact List.pairwise_singleton _ _

theorem pairwise_placesFrom (i : Nat) (es : List Expr) : (placesFrom i es).Pairwise (List.Lex (· < ·)) := by
  cases es with
  | nil => exact .nil
  | cons e rest =>
    refine List.pairwise_append.2 ⟨?_, pairwise_placesFrom (i + 1) rest, ?_⟩
    · exact List.pairwise_map.2 ((pairwise_places e).imp .cons)
    · intro place hplace place' hplace'
      obtain ⟨below, -, rfl⟩ := List.mem_map.1 hplace
      obtain ⟨j, below', -, rfl, -⟩ := mem_placesFrom.1 hplace'
      exact .rel (by omega)

end

example : (operator .plus 8 [const32 8 0 1, operator .star 8 [const32 8 0 2, const32 8 0 3]]).places =
    [[], [0], [1], [1, 0], [1, 1]] :=
  rfl

mutual

/-- At the places, in their order, stand the nodes of the pre-order. -/
theorem map_at?_places (e : Expr) : e.places.map e.at? = e.preorder.map some := by
  cases e with
  | operator op field args =>
    have hargs := map_at?_placesFrom op field [] args
    rw [places, preorder, List.map_cons, List.map_cons]
    exact congrArg _ hargs
  | _ => rfl

theorem map_at?_placesFrom (op : Operator) (field : Int16) (before es : List Expr) :
    (placesFrom before.length es).map (operator op field (before ++ es)).at? = (preorderAll es).map some := by
  cases es with
  | nil => rfl
  | cons e rest =>
    have hfirst : ((places e).map (before.length :: ·)).map (operator op field (before ++ e :: rest)).at? =
        e.preorder.map some := by
      rw [← map_at?_places e, List.map_map]
      exact List.map_congr_left fun below _ => by simp [at?, args]
    have hrest := map_at?_placesFrom op field (before ++ [e]) rest
    rw [List.append_assoc, List.length_append] at hrest
    rw [placesFrom, preorderAll, List.map_append, List.map_append, hfirst]
    exact congrArg _ hrest

end

mutual

theorem length_preorder (e : Expr) : e.preorder.length = e.size := by
  cases e with
  | operator op field args => rw [preorder, size, List.length_cons, length_preorderAll]
  | _ => rfl

theorem length_preorderAll (es : List Expr) : (preorderAll es).length = sizeAll es := by
  cases es with
  | nil => rfl
  | cons e rest => rw [preorderAll, sizeAll, List.length_append, length_preorder, length_preorderAll]

end

theorem count_eq_size (e : Expr) : e.count = e.size := by
  rw [← length_preorder, ← nodes_eq_preorder, nodes, count, Array.length_toList]

/-! ## One node at a time -/

/-- A listing that is under way. -/
structure Walk where
  /-- The nodes to go on from, the next one last. -/
  stack : Array Expr

/-- The listing of a tree before its first node. -/
def walk (e : Expr) : Walk :=
  ⟨#[e]⟩

namespace Walk

/-- The next node, if one is left. Its arguments take its place, the first one on top. -/
def next (w : Walk) : Option Expr × Walk :=
  match w.stack.back? with
  | none => (none, w)
  | some e => (some e, ⟨w.stack.pop ++ e.args.reverse⟩)

/-- What comes until for the first time nothing comes. -/
inductive Yields : Walk → List Expr → Prop
  | stop {w w' : Walk} : w.next = (none, w') → Yields w []
  | next {w w' : Walk} {e : Expr} {es : List Expr} : w.next = (some e, w') → Yields w' es → Yields w (e :: es)

/-- A listing that goes on with these trees, in this order. -/
def through (pending : List Expr) : Walk :=
  ⟨pending.reverse.toArray⟩

theorem next_nil : (through []).next = (none, through []) :=
  rfl

theorem next_cons (e : Expr) (pending : List Expr) :
    (through (e :: pending)).next = (some e, through (e.args ++ pending)) := by
  simp [through, next]

mutual

/-- A tree on top of the stack comes in pre-order, before what comes from the rest of the stack. -/
theorem yields_cons (e : Expr) {pending es : List Expr} (h : (through pending).Yields es) :
    (through (e :: pending)).Yields (e.preorder ++ es) := by
  cases e with
  | operator op field args => exact .next (next_cons _ pending) (yields_append args h)
  | _ => exact .next (next_cons _ pending) h

theorem yields_append (trees : List Expr) {pending es : List Expr} (h : (through pending).Yields es) :
    (through (trees ++ pending)).Yields (preorderAll trees ++ es) := by
  cases trees with
  | nil => exact h
  | cons e rest =>
    rw [preorderAll, List.append_assoc]
    exact yields_cons e (yields_append rest h)

end

theorem Yields.unique {w : Walk} {es es' : List Expr} (h : w.Yields es) (h' : w.Yields es') : es = es' := by
  induction h generalizing es' with
  | stop hstop =>
    cases h' with
    | stop => rfl
    | next hnext => cases hstop.symm.trans hnext
  | next hnext _ ih =>
    cases h' with
    | stop hstop => cases hnext.symm.trans hstop
    | next hnext' hrest =>
      cases hnext.symm.trans hnext'
      rw [ih hrest]

/-- Whatever the stack holds, the trees on it come one after the other, each in pre-order. -/
theorem yields_iff {pending es : List Expr} : (through pending).Yields es ↔ es = preorderAll pending := by
  have hall : (through pending).Yields (preorderAll pending) := by
    simpa using yields_append pending (.stop next_nil)
  constructor
  · intro h
    exact h.unique hall
  · rintro rfl
    exact hall

end Walk

/-! ## Main theorem -/

/-- The nodes that come from the stack until nothing comes are the listed ones. These are the pre-order, as many as the
tree has nodes: they stand at the places of the tree, all of which are gone through in ascending order. -/
theorem nodes_in_order (e : Expr) :
    (∀ es, e.walk.Yields es ↔ es = e.nodes) ∧ e.nodes = e.preorder ∧ e.count = e.size ∧
      (∀ place, place ∈ e.places ↔ (e.at? place).isSome) ∧ e.places.Pairwise (List.Lex (· < ·)) ∧
      e.places.map e.at? = e.nodes.map some := by
  have hwalk : e.walk = Walk.through [e] := rfl
  have hnodes := nodes_eq_preorder e
  refine ⟨?_, hnodes, count_eq_size e, fun _ => mem_places, pairwise_places e, ?_⟩
  · intro es
    rw [hwalk, Walk.yields_iff, hnodes, preorderAll, preorderAll, List.append_nil]
  · rw [hnodes]
    exact map_at?_places e

end Expr

end Correlation

import Correlation.Proofs.Binding
/-!
# Stacks in use

On every stack that the operations can reach, the heights kept are those of the trees (`exact_of_reachable`). So
what binding an operator does can be told from the trees alone (`binds_of_reachable`), and it makes no difference
to the stack whether a tree stays on it or is taken off and pushed again (`heights_of_reachable`).
-/

namespace Correlation

namespace OperandStack

/-! ## What binding is to do -/

/-- The topmost `n` trees, in the order in which they were pushed. -/
def top (s : OperandStack) (n : Nat) : List Expr :=
  s.toList.drop (s.size - n)

/-- The stack without its topmost `n` entries. -/
def below (s : OperandStack) (n : Nat) : OperandStack :=
  { s with operands := s.operands.drop n }

/-- The depth of the deepest tree, zero if there is none. -/
def greatestDepth (es : List Expr) : Nat :=
  (es.map (·.depth)).foldl max 0

/-- Binding has this result and leaves this stack, whether the node is handed out or put on the stack. -/
structure Binds (s : OperandStack) (op : Operator) (field : Int16) (result : Except Failure Expr)
    (left : OperandStack) : Prop where
  bind_result : (s.bind op field).result = result
  bind_stack : (s.bind op field).stack = left
  apply_result : (s.apply op field).result = result
  apply_stack : (s.apply op field).stack = match result with
    | .ok e => left.push e
    | .error _ => left

variable {s : OperandStack} {op : Operator} {field : Int16}

theorem binds_of_take_ok {e : Expr} {left : OperandStack} {events : List Event}
    (h : s.take op field = ⟨.ok (.of e), left, events⟩) : s.Binds op field (.ok e) left where
  bind_result := by rw [bind, h]; rfl
  bind_stack := by rw [bind, h]
  apply_result := by simp only [apply, h, Operand.of]
  apply_stack := by simp only [apply, h, push_eq]

theorem binds_of_take_error {f : Failure} {left : OperandStack} {events : List Event}
    (h : s.take op field = ⟨.error f, left, events⟩) : s.Binds op field (.error f) left where
  bind_result := by rw [bind, h]; rfl
  bind_stack := by rw [bind, h]
  apply_result := by simp only [apply, h]
  apply_stack := by simp only [apply, h]

/-! ## Exact heights -/

/-- Every entry's height is that of its tree. -/
def Exact (s : OperandStack) : Prop :=
  ∀ o ∈ s.operands, o.height = o.expr.depth

theorem exact_nil (limit : Nat) : Exact { limit } :=
  nofun

theorem Exact.push (h : s.Exact) (e : Expr) : (s.push e).Exact := by
  intro o ho
  rcases List.mem_cons.1 ho with rfl | ho
  · rfl
  · exact h o ho

theorem Exact.below (h : s.Exact) (n : Nat) : (s.below n).Exact :=
  fun o ho => h o (List.mem_of_mem_drop ho)

theorem exact_ofList (es : List Expr) : (ofList es).Exact := by
  have hfold : ∀ s : OperandStack, s.Exact → (es.foldl OperandStack.push s).Exact := by
    induction es with
    | nil => exact fun s hs => hs
    | cons e rest ih => exact fun s hs => ih (s.push e) (hs.push e)
  exact hfold {} (exact_nil _)

/-! ## The topmost entries -/

theorem top_eq {n : Nat} (h : n ≤ s.size) : s.top n = (s.operands.take n).reverse.map (·.expr) := by
  have hdepth : s.operands.length - (s.operands.length - n) = n := Nat.sub_sub_self h
  rw [top, toList, size, ← List.map_drop, List.drop_reverse, hdepth]

theorem length_top {n : Nat} (h : n ≤ s.size) : (s.top n).length = n := by
  have hsize : (s.toList).length = s.size := by simp [toList, size]
  rw [top, List.length_drop, hsize, Nat.sub_sub_self h]

/-- With exact heights, the stack is its topmost trees as they were pushed, over the entries below. -/
theorem operands_eq (hs : s.Exact) {n : Nat} (h : n ≤ s.size) :
    s.operands = ((s.top n).map Operand.of).reverse ++ (s.below n).operands := by
  have hexact : (s.operands.take n).map (fun o => Operand.of o.expr) = s.operands.take n := by
    refine (List.map_congr_left fun o ho => ?_).trans (List.map_id _)
    have hheight := hs o (List.mem_of_mem_take ho)
    cases o
    simp_all [Operand.of]
  have htop : ((s.top n).map Operand.of).reverse = s.operands.take n := by
    rw [top_eq h, List.map_map, List.map_reverse, List.reverse_reverse]
    exact hexact
  rw [htop]
  exact (List.take_append_drop n s.operands).symm

theorem greatestDepth_eq (es : List Expr) : greatestDepth es = Expr.heightAll es := by
  have h : ∀ n, greatestDepth es ≤ n ↔ Expr.heightAll es ≤ n := by
    intro n
    rw [greatestDepth, foldl_max_le_iff, Expr.heightAll_le_iff]
    simp [Expr.depth_eq_height]
  exact Nat.le_antisymm ((h _).2 (Nat.le_refl _)) ((h _).1 (Nat.le_refl _))

/-! ## The cases of binding -/

theorem binds_unsupported (s : OperandStack) (field : Int16) (h : op.arity.count = none) :
    s.Binds op field (.ok (.invalid (.unsupportedOperator op.code field))) s := by
  have hleaf : Operand.of (.invalid (.unsupportedOperator op.code field)) =
      ⟨.invalid (.unsupportedOperator op.code field), 1⟩ := by
    rw [Operand.of, Expr.depth_eq_height]
    rfl
  have htake : s.take op field =
      ⟨.ok (.of (.invalid (.unsupportedOperator op.code field))), s, [.boundWithoutArity op]⟩ := by
    rw [hleaf, take]
    simp only [h]
  exact binds_of_take_ok htake

theorem binds_underflow {n : Nat} (field : Int16) (harity : op.arity.count = some n) (h : s.size < n) :
    s.Binds op field (.error (.stackUnderflow op n s.size)) s := by
  have hshort : (s.operands.take n).length < n := by
    rw [List.length_take]
    exact Nat.lt_of_le_of_lt (Nat.min_le_right _ _) h
  have htake : s.take op field = ⟨.error (.stackUnderflow op n s.size), s, []⟩ := by
    rw [take]
    simp only [harity, if_pos hshort]
  exact binds_of_take_error htake

/-- With enough operands and exact heights, the depth of the trees decides. -/
theorem take_of_exact {n : Nat} (field : Int16) (hs : s.Exact) (harity : op.arity.count = some n) (h : n ≤ s.size) :
    s.take op field =
      if greatestDepth (s.top n) ≤ s.limit then ⟨.ok (.of (.operator op field (s.top n))), s.below n, []⟩
      else ⟨.error (.tooDeep s.limit), s, [.refusedHeight op (1 + greatestDepth (s.top n))]⟩ := by
  rw [greatestDepth_eq]
  exact take_eq (operands_eq hs h) (by rw [length_top h, harity])

theorem binds_tooDeep {n : Nat} (field : Int16) (hs : s.Exact) (harity : op.arity.count = some n) (h : n ≤ s.size)
    (hdepth : s.limit + 1 < 1 + greatestDepth (s.top n)) : s.Binds op field (.error (.tooDeep s.limit)) s := by
  have htake := take_of_exact field hs harity h
  rw [if_neg (by omega)] at htake
  exact binds_of_take_error htake

theorem binds_operator {n : Nat} (field : Int16) (hs : s.Exact) (harity : op.arity.count = some n) (h : n ≤ s.size)
    (hdepth : 1 + greatestDepth (s.top n) ≤ s.limit + 1) :
    s.Binds op field (.ok (.operator op field (s.top n))) (s.below n) := by
  have htake := take_of_exact field hs harity h
  rw [if_pos (by omega)] at htake
  exact binds_of_take_ok htake

/-- All that binding can do to a stack with exact heights. -/
theorem binds_cases (hs : s.Exact) (op : Operator) (field : Int16) :
    (op.arity.count = none ∧ s.Binds op field (.ok (.invalid (.unsupportedOperator op.code field))) s) ∨
      (∃ n, op.arity.count = some n ∧ n ≤ s.size ∧
        s.Binds op field (.ok (.operator op field (s.top n))) (s.below n)) ∨
      ∃ n f, op.arity.count = some n ∧ (f = .stackUnderflow op n s.size ∨ f = .tooDeep s.limit) ∧
        s.Binds op field (.error f) s := by
  cases harity : op.arity.count with
  | none => exact .inl ⟨rfl, binds_unsupported s field harity⟩
  | some n =>
    by_cases hsize : n ≤ s.size
    · by_cases hdepth : 1 + greatestDepth (s.top n) ≤ s.limit + 1
      · exact .inr (.inl ⟨n, rfl, hsize, binds_operator field hs harity hsize hdepth⟩)
      · exact .inr (.inr ⟨n, _, rfl, .inr rfl, binds_tooDeep field hs harity hsize (Nat.lt_of_not_le hdepth)⟩)
    · exact .inr (.inr ⟨n, _, rfl, .inl rfl, binds_underflow field harity (Nat.lt_of_not_le hsize)⟩)

/-! ## Reachable stacks -/

/-- Binding keeps the heights exact, and refuses an operator for its operands only. -/
theorem exists_binds (hs : s.Exact) (op : Operator) (field : Int16) :
    ∃ result left, s.Binds op field result left ∧ left.Exact ∧
      ∀ f, result = .error f → (∃ n, f = .stackUnderflow op n s.size) ∨ f = .tooDeep s.limit := by
  rcases binds_cases hs op field with ⟨-, hbinds⟩ | ⟨n, -, -, hbinds⟩ | ⟨n, f, -, hf, hbinds⟩
  · exact ⟨_, _, hbinds, hs, nofun⟩
  · exact ⟨_, _, hbinds, hs.below n, nofun⟩
  · refine ⟨_, _, hbinds, hs, ?_⟩
    rintro _ ⟨⟩
    rcases hf with rfl | rfl
    · exact .inl ⟨n, rfl⟩
    · exact .inr rfl

/-- Popping takes the topmost entry away. -/
theorem pop?_eq_some_iff {e : Expr} {s' : OperandStack} :
    s.pop? = some (e, s') ↔ ∃ o, s.operands = o :: s'.operands ∧ o.expr = e ∧ s' = s.below 1 := by
  cases s with
  | mk operands limit =>
    cases operands with
    | nil => simp [pop?]
    | cons o rest =>
      simp only [pop?, below, Option.some.injEq, Prod.mk.injEq, List.drop_succ_cons, List.drop_zero, List.cons.injEq]
      constructor
      · rintro ⟨rfl, rfl⟩
        exact ⟨o, ⟨rfl, rfl⟩, rfl, rfl⟩
      · rintro ⟨_, ⟨rfl, -⟩, rfl, rfl⟩
        exact ⟨rfl, rfl⟩

/-- The stacks that the operations can reach from an empty one or from a list, in any order and whether they
succeed or fail. -/
inductive Reachable : OperandStack → Prop
  | new : Reachable {}
  | withLimit (limit : Nat) : Reachable { limit }
  | ofList (es : List Expr) : Reachable (ofList es)
  | push {s : OperandStack} (e : Expr) : Reachable s → Reachable (s.push e)
  | pop {s s' : OperandStack} {e : Expr} : Reachable s → s.pop? = some (e, s') → Reachable s'
  | apply {s : OperandStack} (op : Operator) (field : Int16) : Reachable s → Reachable (s.apply op field).stack
  | bind {s : OperandStack} (op : Operator) (field : Int16) : Reachable s → Reachable (s.bind op field).stack

theorem exact_of_reachable (h : s.Reachable) : s.Exact := by
  induction h with
  | new => exact exact_nil _
  | withLimit limit => exact exact_nil limit
  | ofList es => exact exact_ofList es
  | push e _ ih => exact ih.push e
  | pop _ hpop ih =>
    obtain ⟨_, -, -, rfl⟩ := pop?_eq_some_iff.1 hpop
    exact ih.below 1
  | @apply s op field _ ih =>
    obtain ⟨result, left, hbinds, hleft, -⟩ := exists_binds ih op field
    rw [hbinds.apply_stack]
    cases result with
    | ok e => exact hleft.push e
    | error f => exact hleft
  | @bind s op field _ ih =>
    obtain ⟨result, left, hbinds, hleft, -⟩ := exists_binds ih op field
    rwa [hbinds.bind_stack]

/-- With exact heights, pushing the tree that was popped restores the entry with its height. -/
theorem push_of_pop? {e : Expr} {s' : OperandStack} (hs : s.Exact) (h : s.pop? = some (e, s')) : s'.push e = s := by
  obtain ⟨o, htop, rfl, rfl⟩ := pop?_eq_some_iff.1 h
  have ho : Operand.of o.expr = o := by
    have hheight := hs o (by simp [htop])
    cases o
    simp_all [Operand.of]
  rw [push_eq, ho, ← htop]
  rfl

/-- Applying an operator is binding it and pushing what came out. -/
theorem Binds.push_bind {result : Except Failure Expr} {left : OperandStack} (h : s.Binds op field result left)
    {e : Expr} (he : (s.apply op field).result = .ok e) : (s.apply op field).stack = (s.bind op field).stack.push e := by
  obtain rfl : result = .ok e := by rw [← h.apply_result, he]
  rw [h.apply_stack, h.bind_stack]

/-! ## Main theorems -/

/-- What binding an operator does to a reachable stack. Without an arity it makes an invalid node of the operator
and takes nothing. Otherwise too few operands come first, then too deep ones, and both leave the stack as it is;
what remains makes an operator node of the topmost trees as they were pushed. Nothing else is refused. -/
theorem binds_of_reachable (hs : s.Reachable) (op : Operator) (field : Int16) :
    (op.arity.count = none → s.Binds op field (.ok (.invalid (.unsupportedOperator op.code field))) s) ∧
      (∀ n, op.arity.count = some n →
        (s.size < n → s.Binds op field (.error (.stackUnderflow op n s.size)) s) ∧
        (n ≤ s.size → s.limit + 1 < 1 + greatestDepth (s.top n) → s.Binds op field (.error (.tooDeep s.limit)) s) ∧
        (n ≤ s.size → 1 + greatestDepth (s.top n) ≤ s.limit + 1 →
          s.Binds op field (.ok (.operator op field (s.top n))) (s.below n) ∧ (s.below n).size = s.size - n)) ∧
      ∀ f, (s.bind op field).result = .error f ∨ (s.apply op field).result = .error f →
        (∃ n, f = .stackUnderflow op n s.size) ∨ f = .tooDeep s.limit := by
  have hexact := exact_of_reachable hs
  refine ⟨fun h => binds_unsupported s field h, fun n harity => ⟨?_, ?_, ?_⟩, fun f hf => ?_⟩
  · exact binds_underflow field harity
  · exact binds_tooDeep field hexact harity
  · exact fun h hdepth => ⟨binds_operator field hexact harity h hdepth, List.length_drop⟩
  · obtain ⟨result, left, hbinds, -, hrefused⟩ := exists_binds hexact op field
    rw [hbinds.bind_result, hbinds.apply_result, or_self] at hf
    exact hrefused f hf

/-- Higher than a limit of 1 lets an operator make it. -/
def tall : Expr :=
  .operator .unaryMinus 0 [.operator .unaryNot 0 [.var 8 0]]

/-- Two variables. -/
def pair : OperandStack :=
  ({ limit := 1 } : OperandStack).push (.var 8 0) |>.push (.var 8 4)

theorem binds_of_reachable_sample :
    (pair.push tall).Reachable ∧ pair.Reachable ∧
      (pair.push tall).Binds .asyncSplit 7 (.ok (.invalid (.unsupportedOperator 0x28 7))) (pair.push tall) ∧
      (pair.push tall).Binds .conditional 0 (.error (.tooDeep 1)) (pair.push tall) ∧
      pair.Binds .conditional 0 (.error (.stackUnderflow .conditional 3 2)) pair ∧
      pair.Binds .minus 8 (.ok (.operator .minus 8 [.var 8 0, .var 8 4])) { limit := 1 } := by
  have hpair : pair.Reachable := ((Reachable.withLimit 1).push _).push _
  have htall : (pair.push tall).Reachable := hpair.push tall
  have htooDeep : (pair.push tall).limit + 1 < 1 + greatestDepth ((pair.push tall).top 3) := by
    rw [greatestDepth_eq]
    decide
  have hdepth : 1 + greatestDepth (pair.top 2) ≤ pair.limit + 1 := by
    rw [greatestDepth_eq]
    decide
  obtain ⟨hunsupported, -, -⟩ := binds_of_reachable htall .asyncSplit 7
  obtain ⟨-, hternary, -⟩ := binds_of_reachable htall .conditional 0
  obtain ⟨-, hshort, -⟩ := binds_of_reachable hpair .conditional 0
  obtain ⟨-, hbinary, -⟩ := binds_of_reachable hpair .minus 8
  refine ⟨htall, hpair, hunsupported rfl, ?_, ?_, ?_⟩
  · exact (hternary 3 rfl).2.1 (by decide) htooDeep
  · exact (hshort 3 rfl).1 (by decide)
  · exact ((hbinary 2 rfl).2.2 (by decide) hdepth).1

/-- On a reachable stack every entry has the height of its tree. So an operator that is applied leaves the stack
that binding it and pushing the node leave, and is refused when binding it is; and popping a tree and pushing it
again leaves the stack as it was. -/
theorem heights_of_reachable (hs : s.Reachable) :
    (∀ o ∈ s.operands, o.height = o.expr.depth) ∧
      (∀ op field, (s.bind op field).result = (s.apply op field).result ∧
        ∀ e, (s.apply op field).result = .ok e → (s.apply op field).stack = (s.bind op field).stack.push e) ∧
      ∀ e s', s.pop? = some (e, s') → s'.push e = s := by
  have hexact := exact_of_reachable hs
  refine ⟨hexact, ?_, ?_⟩
  · intro op field
    obtain ⟨result, left, hbinds, -, -⟩ := exists_binds hexact op field
    refine ⟨?_, fun e he => hbinds.push_bind he⟩
    rw [hbinds.bind_result, hbinds.apply_result]
  · intro e s' hpop
    exact push_of_pop? hexact hpop

/-- What `pair` holds, subtracted. -/
def difference : Expr :=
  .operator .minus 8 [.var 8 0, .var 8 4]

/-- The height that `apply` computes from those of the operands is the one that `push` finds in the tree. -/
theorem heights_of_reachable_sample :
    pair.Reachable ∧ (pair.apply .minus 8).result = .ok difference ∧
      (pair.apply .minus 8).stack = (pair.bind .minus 8).stack.push difference ∧
      (pair.apply .minus 8).stack.Reachable ∧ (pair.apply .minus 8).stack.pop? = some (difference, { limit := 1 }) ∧
      ({ limit := 1 } : OperandStack).push difference = (pair.apply .minus 8).stack := by
  have hpair : pair.Reachable := ((Reachable.withLimit 1).push _).push _
  have hused : (pair.apply .minus 8).stack.Reachable := hpair.apply .minus 8
  have hdepth : 1 + greatestDepth (pair.top 2) ≤ pair.limit + 1 := by
    rw [greatestDepth_eq]
    decide
  have hbinds : pair.Binds .minus 8 (.ok difference) { limit := 1 } :=
    binds_operator 8 (exact_of_reachable hpair) rfl (by decide) hdepth
  have hpop : (pair.apply .minus 8).stack.pop? = some (difference, { limit := 1 }) := by
    rw [hbinds.apply_stack]
    rfl
  obtain ⟨-, hbinding, -⟩ := heights_of_reachable hpair
  obtain ⟨-, -, hrestored⟩ := heights_of_reachable hused
  exact ⟨hpair, hbinds.apply_result, (hbinding .minus 8).2 difference hbinds.apply_result, hused, hpop,
    hrestored difference _ hpop⟩

end OperandStack

end Correlation

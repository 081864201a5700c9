import Correlation.Proofs.Reachable
/-!
# Transcripts

A stack spells the postfix sequences of its trees, bottom first. Over any run of pushed trees and applied operators,
however many of them are refused, it spells what the steps that went through stand for, in their order
(`spelled_run`): no operand is lost, doubled or moved. Lawful trees can be told from their postfix sequences
(`spelling_inj`), and so whether a run leaves one tree, and which, can be told from its steps (`transcript_of_run`).
-/

namespace Correlation

/-- One place of a postfix sequence: a leaf, or an operator with the field of its header. -/
inductive Symbol where
  | leaf (e : Expr)
  | operator (op : Operator) (field : Int16)
  deriving DecidableEq

namespace Symbol

/-- What a symbol makes of the trees in front of it, the nearest first. -/
def build (trees : List Expr) : Symbol → List Expr
  | leaf e => e :: trees
  | operator op field =>
    let arity := op.arity.count.getD 0
    .operator op field (trees.take arity).reverse :: trees.drop arity

end Symbol

/-! ## Postfix sequences of trees -/

namespace Expr

/-- A node without its arguments. -/
def symbol : Expr → Symbol
  | operator op field _ => .operator op field
  | e => .leaf e

/-- The postfix sequence of a tree. -/
def spelling (e : Expr) : List Symbol :=
  e.postorder.map symbol

theorem map_symbol_postorderAll (es : List Expr) : (postorderAll es).map symbol = es.flatMap spelling := by
  induction es with
  | nil => rfl
  | cons e rest ih => simp [postorderAll, spelling, ih]

theorem spelling_operator (op : Operator) (field : Int16) (args : List Expr) :
    (operator op field args).spelling = args.flatMap spelling ++ [.operator op field] := by
  simp [spelling, postorder, map_symbol_postorderAll, symbol]

/-- Trees that are each built from their sequences are built from the sequences in a row. -/
theorem foldl_build_flatMap {es : List Expr}
    (hes : ∀ e ∈ es, ∀ trees, e.spelling.foldl Symbol.build trees = e :: trees) (trees : List Expr) :
    (es.flatMap spelling).foldl Symbol.build trees = es.reverse ++ trees := by
  induction es generalizing trees with
  | nil => rfl
  | cons e rest ih =>
    rw [List.flatMap_cons, List.foldl_append, hes e List.mem_cons_self,
      ih fun a ha => hes a (List.mem_cons_of_mem e ha)]
    simp

/-- A lawful tree is built from its sequence, whatever trees stand in front. -/
theorem foldl_build_spelling {e : Expr} (he : e.Lawful) (trees : List Expr) :
    e.spelling.foldl Symbol.build trees = e :: trees := by
  induction he generalizing trees with
  | operator op field args harity _ ih =>
    rw [spelling_operator, List.foldl_append, foldl_build_flatMap ih]
    simp [Symbol.build, harity]
  | _ => rfl

/-- No two lists of lawful trees have the same sequence. -/
theorem spelling_inj {es fs : List Expr} (hes : ∀ e ∈ es, e.Lawful) (hfs : ∀ f ∈ fs, f.Lawful)
    (h : es.flatMap spelling = fs.flatMap spelling) : es = fs := by
  have hbuilt := congrArg (List.foldl Symbol.build []) h
  rw [foldl_build_flatMap fun e he => foldl_build_spelling (hes e he),
    foldl_build_flatMap fun f hf => foldl_build_spelling (hfs f hf)] at hbuilt
  simpa using hbuilt

end Expr

namespace OperandStack

/-! ## Runs -/

/-- What is done to a stack when a postfix sequence is folded. -/
inductive Step where
  | push (e : Expr)
  | apply (op : Operator) (field : Int16)

/-- What a step stands for in a postfix sequence, when it goes through. -/
def Step.symbols : Step → List Symbol
  | push e => e.spelling
  | apply op field =>
    if op.arity = .unsupported then [.leaf (.invalid (.unsupportedOperator op.code field))]
    else [.operator op field]

/-- The stack after a step. -/
def perform (s : OperandStack) : Step → OperandStack
  | .push e => s.push e
  | .apply op field => (s.apply op field).stack

/-- Whether a step goes through. -/
def accepts (s : OperandStack) : Step → Bool
  | .push _ => true
  | .apply op field => (s.apply op field).result.isOk

/-- The stack after steps, those that are refused among them. -/
def run (s : OperandStack) (steps : List Step) : OperandStack :=
  steps.foldl perform s

/-- The steps that go through. -/
def accepted (s : OperandStack) : List Step → List Step
  | [] => []
  | step :: rest => if s.accepts step then step :: accepted (s.perform step) rest else accepted (s.perform step) rest

/-- The postfix sequence that the steps of a run stand for. -/
def transcript (s : OperandStack) (steps : List Step) : List Symbol :=
  (s.accepted steps).flatMap Step.symbols

/-- The postfix sequences of the trees, bottom first. -/
def spelled (s : OperandStack) : List Symbol :=
  s.toList.flatMap Expr.spelling

variable {s : OperandStack}

theorem Reachable.perform (hs : s.Reachable) (step : Step) : (s.perform step).Reachable := by
  cases step with
  | push e => exact hs.push e
  | apply op field => exact hs.apply op field

theorem transcript_cons (s : OperandStack) (step : Step) (rest : List Step) :
    s.transcript (step :: rest) =
      (if s.accepts step then step.symbols else []) ++ (s.perform step).transcript rest := by
  rw [transcript, accepted]
  split <;> simp [transcript]

/-! ## What one step does -/

@[simp]
theorem toList_push (s : OperandStack) (e : Expr) : (s.push e).toList = s.toList ++ [e] := by
  simp [toList, push]

/-- A stack is what lies below its topmost trees, and those. -/
theorem toList_eq {n : Nat} (h : n ≤ s.size) : s.toList = (s.below n).toList ++ s.top n := by
  rw [top_eq h, toList, toList, ← List.map_append, ← List.reverse_append, below, List.take_append_drop]

theorem spelled_push (s : OperandStack) (e : Expr) : (s.push e).spelled = s.spelled ++ e.spelling := by
  simp [spelled]

/-- An operator without an arity is never refused. -/
theorem accepts_unsupported (s : OperandStack) {op : Operator} (field : Int16) (h : op.arity = .unsupported) :
    s.accepts (.apply op field) = true := by
  have hbinds := binds_unsupported s field (Arity.count_eq_none_iff.2 h)
  rw [accepts, hbinds.apply_result]
  rfl

/-- A step adds what it stands for to what the stack spells, or nothing if it is refused. -/
theorem spelled_perform (hs : s.Exact) (step : Step) :
    (s.perform step).spelled = s.spelled ++ if s.accepts step then step.symbols else [] := by
  cases step with
  | push e => exact spelled_push s e
  | apply op field =>
    rw [perform, accepts]
    rcases binds_cases hs op field with ⟨harity, hbinds⟩ | ⟨n, harity, hsize, hbinds⟩ | ⟨n, f, -, -, hbinds⟩
    · have hsymbols : Step.symbols (.apply op field) = [.leaf (.invalid (.unsupportedOperator op.code field))] :=
        if_pos (Arity.count_eq_none_iff.1 harity)
      rw [hbinds.apply_result, hbinds.apply_stack, hsymbols, spelled_push]
      rfl
    · have hsymbols : Step.symbols (.apply op field) = [.operator op field] := by
        refine if_neg fun h => ?_
        rw [Arity.count_eq_none_iff.2 h] at harity
        cases harity
      -- The arguments were the last to be spelled, and the operator comes behind them.
      have hspelled : s.spelled = (s.below n).spelled ++ (s.top n).flatMap Expr.spelling := by
        rw [spelled, toList_eq hsize, List.flatMap_append]
        rfl
      rw [hbinds.apply_result, hbinds.apply_stack, hsymbols, hspelled, spelled_push, Expr.spelling_operator,
        List.append_assoc]
      rfl
    · rw [hbinds.apply_result, hbinds.apply_stack]
      exact (List.append_nil _).symm

/-! ## Lawful stacks -/

/-- Every tree on the stack keeps the arity rule. -/
def Lawful (s : OperandStack) : Prop :=
  ∀ e ∈ s.toList, e.Lawful

theorem Lawful.push (hs : s.Lawful) {a : Expr} (ha : a.Lawful) : (s.push a).Lawful := by
  intro e he
  rw [toList_push] at he
  rcases List.mem_append.1 he with he | he
  · exact hs e he
  · obtain rfl := List.mem_singleton.1 he
    exact ha

/-- What an operator makes of lawful trees is lawful. -/
theorem Lawful.perform (hs : s.Lawful) (hexact : s.Exact) {step : Step} (hstep : ∀ e, step = .push e → e.Lawful) :
    (s.perform step).Lawful := by
  cases step with
  | push a => exact hs.push (hstep a rfl)
  | apply op field =>
    rw [OperandStack.perform]
    rcases binds_cases hexact op field with ⟨-, hbinds⟩ | ⟨n, harity, hsize, hbinds⟩ | ⟨n, f, -, -, hbinds⟩
    · rw [hbinds.apply_stack]
      exact hs.push (.invalid _)
    · have hsplit := toList_eq hsize
      have hbelow : (s.below n).Lawful := fun e he => hs e (by simp [hsplit, he])
      have htop : ∀ a ∈ s.top n, a.Lawful := fun a ha => hs a (by simp [hsplit, ha])
      rw [hbinds.apply_stack]
      exact hbelow.push (.operator op field _ (by rw [length_top hsize, harity]) htop)
    · rwa [hbinds.apply_stack]

/-! ## What a run does -/

/-- A run adds to what the stack spells what its steps stand for. -/
theorem spelled_run (hs : s.Reachable) (steps : List Step) :
    (s.run steps).spelled = s.spelled ++ s.transcript steps := by
  induction steps generalizing s with
  | nil => simp [run, transcript, accepted]
  | cons step rest ih =>
    rw [transcript_cons, ← List.append_assoc, ← spelled_perform (exact_of_reachable hs)]
    exact ih (hs.perform step)

/-- A run of lawful trees leaves lawful trees. -/
theorem Lawful.run (hs : s.Lawful) (hreach : s.Reachable) {steps : List Step}
    (hsteps : ∀ e, .push e ∈ steps → e.Lawful) : (s.run steps).Lawful := by
  induction steps generalizing s with
  | nil => exact hs
  | cons step rest ih =>
    have hstep : (s.perform step).Lawful := by
      refine hs.perform (exact_of_reachable hreach) ?_
      rintro e rfl
      exact hsteps e List.mem_cons_self
    exact ih hstep (hreach.perform step) fun e he => hsteps e (List.mem_cons_of_mem step he)

/-! ## One tree in the end -/

theorem single_eq_ok_iff {e : Expr} : s.single = .ok e ↔ s.toList = [e] := by
  unfold single toList
  split
  case h_1 top htop => simp [htop]
  case h_2 hother =>
    simp only [reduceCtorEq, false_iff]
    intro h
    rw [List.map_reverse, List.reverse_eq_iff, List.reverse_singleton, List.map_eq_singleton_iff] at h
    obtain ⟨top, htop, -⟩ := h
    exact hother top htop

theorem single_eq_error (h : ∀ e, s.single ≠ .ok e) : s.single = .error (.unbalancedStack s.size) := by
  unfold single at *
  split
  case h_1 top htop => exact absurd (by rw [htop]) (h top.expr)
  case h_2 => rfl

/-- A lawful stack that spells what a lawful tree does holds that tree alone. -/
theorem single_eq_ok_iff_spelled (hlawful : s.Lawful) {t : Expr} :
    s.single = .ok t ↔ t.Lawful ∧ t.spelling = s.spelled := by
  rw [single_eq_ok_iff]
  constructor
  · intro htrees
    refine ⟨hlawful t (by simp [htrees]), ?_⟩
    simp [spelled, htrees]
  · rintro ⟨ht, hspelled⟩
    refine Expr.spelling_inj hlawful (by simpa using ht) ?_
    simpa [spelled] using hspelled.symm

/-! ## Main theorem -/

/-- What becomes of pushes and applied operators on an empty stack, refused ones among them. The stack spells what
the steps that went through stand for, in their order; an operator without an arity always goes through. Where the
pushed trees are lawful, as leaves are, a single tree is left exactly when its postfix sequence is what those steps
stand for, and that there is not one tree is the answer where they stand for no tree. -/
theorem transcript_of_run (limit : Nat) (steps : List Step) :
    (run { limit } steps).spelled = transcript { limit } steps ∧
      (∀ s op field, op.arity = .unsupported → accepts s (.apply op field) = true) ∧
      ((∀ e, .push e ∈ steps → e.Lawful) →
        (∀ t : Expr, (run { limit } steps).single = .ok t ↔ t.Lawful ∧ t.spelling = transcript { limit } steps) ∧
        ((∀ t : Expr, t.Lawful → t.spelling ≠ transcript { limit } steps) →
          (run { limit } steps).single = .error (.unbalancedStack (run { limit } steps).size))) := by
  have hempty : Reachable { limit } := .withLimit limit
  have hspelled : (run { limit } steps).spelled = transcript { limit } steps := spelled_run hempty steps
  refine ⟨hspelled, fun s op field => accepts_unsupported s field, fun hsteps => ?_⟩
  have hnothing : Lawful { limit } := nofun
  have hlawful : (run { limit } steps).Lawful := hnothing.run hempty hsteps
  have hsingle : ∀ t : Expr, (run { limit } steps).single = .ok t ↔
      t.Lawful ∧ t.spelling = transcript { limit } steps := by
    intro t
    rw [single_eq_ok_iff_spelled hlawful, hspelled]
  refine ⟨hsingle, fun hnone => single_eq_error fun t ht => ?_⟩
  obtain ⟨htree, hspelling⟩ := (hsingle t).1 ht
  exact hnone t htree hspelling

/-- A difference that comes too early, a quotient, and a negation that is too high for a limit of 1. -/
def sampleSteps : List Step :=
  [.push (.var 8 0), .apply .minus 8, .push (.const32 8 0 2), .apply .slash 8, .apply .unaryMinus 0]

theorem transcript_of_run_sample :
    (∀ e, .push e ∈ sampleSteps → e.Lawful) ∧
      transcript { limit := 1 } sampleSteps = [.leaf (.var 8 0), .leaf (.const32 8 0 2), .operator .slash 8] ∧
      (run { limit := 1 } sampleSteps).single = .ok (.operator .slash 8 [.var 8 0, .const32 8 0 2]) ∧
      transcript { limit := 1 } (sampleSteps.take 3) = [.leaf (.var 8 0), .leaf (.const32 8 0 2)] ∧
      (run { limit := 1 } (sampleSteps.take 3)).single = .error (.unbalancedStack 2) := by
  have hvar : (Expr.var 8 0).Lawful := .var _ _
  have hconst : (Expr.const32 8 0 2).Lawful := .const _ _ _ _
  have hsteps : ∀ e, .push e ∈ sampleSteps → e.Lawful := by
    intro e he
    simp only [sampleSteps, List.mem_cons, Step.push.injEq, reduceCtorEq, false_or, List.not_mem_nil, or_false] at he
    rcases he with rfl | rfl
    · exact hvar
    · exact hconst
  have htranscript : transcript { limit := 1 } sampleSteps =
      [.leaf (.var 8 0), .leaf (.const32 8 0 2), .operator .slash 8] := by decide +kernel
  have hfirst : transcript { limit := 1 } (sampleSteps.take 3) = [.leaf (.var 8 0), .leaf (.const32 8 0 2)] := by decide +kernel
  obtain ⟨-, -, hfolds⟩ := transcript_of_run 1 sampleSteps
  obtain ⟨-, -, hfails⟩ := transcript_of_run 1 (sampleSteps.take 3)
  refine ⟨hsteps, htranscript, ?_, hfirst, ?_⟩
  · refine ((hfolds hsteps).1 _).2 ⟨.operator _ _ _ rfl (by simp [hvar, hconst]), ?_⟩
    rw [htranscript]
    rfl
  · refine (hfails fun e he => hsteps e (List.mem_of_mem_take he)).2 ?_
    intro t ht hspelling
    have htrees : [t] = [.var 8 0, .const32 8 0 2] := by
      refine Expr.spelling_inj (by simpa using ht) (by simp [hvar, hconst]) ?_
      rw [List.flatMap_singleton, hspelling, hfirst]
      rfl
    cases htrees

end OperandStack

end Correlation

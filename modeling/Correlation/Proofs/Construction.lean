import Correlation.Proofs.Forgetful
import Correlation.Proofs.RoundTrip
import Correlation.Proofs.Transcript
/-!
# Everything that can be built

Trees are made of leaves, by decoding, and from trees made before, under an operator or on a stack. However these
operations follow on each other, every operator node has exactly its arity of arguments (`Workshop.keepsArity_of_run`).
-/

namespace Correlation

open Attempt Decoder Wire

/-! ## The arity rule at every node -/

namespace Expr

/-- An operator node has a supported operator and exactly its arity of arguments; any other node has none. -/
def KeepsArity : Expr → Prop
  | operator op _ args => op.arity.isSupported ∧ op.arity.count = some args.length
  | e => e.args = []

/-- A lawful tree keeps the arity rule at every node. -/
theorem Lawful.keepsArity {e : Expr} (h : e.Lawful) : ∀ node ∈ e.preorder, node.KeepsArity := by
  induction h with
  | operator op field args harity _ ih =>
    intro node hnode
    rcases List.mem_cons.1 hnode with rfl | hnode
    · exact ⟨by simp [Arity.isSupported, harity], harity⟩
    · obtain ⟨a, ha, hnode⟩ := mem_preorderAll.1 hnode
      exact ih a ha node hnode
  | _ =>
    intro node hnode
    obtain rfl := List.mem_singleton.1 hnode
    rfl

theorem Lawful.args {e : Expr} (h : e.Lawful) : ∀ a ∈ e.args, a.Lawful := by
  cases h with
  | operator op field args _ hargs => exact hargs
  | _ => exact nofun

theorem combine_eq_error_iff {op : Operator} {field : Int16} {args : List Expr} {f : Failure} :
    combine op field args = .error f ↔
      (op.arity = .unsupported ∨ ∃ n, op.arity.count = some n ∧ n ≠ args.length) ∧
        f = .arityMismatch op (op.arity.count.getD 0) args.length := by
  have hrefused : op.arity.count ≠ some args.length ↔
      op.arity = .unsupported ∨ ∃ n, op.arity.count = some n ∧ n ≠ args.length := by
    cases hcount : op.arity.count with
    | none => simp [Arity.count_eq_none_iff.1 hcount]
    | some n =>
      have hsupported : op.arity ≠ .unsupported := by
        intro h
        rw [Arity.count_eq_none_iff.2 h] at hcount
        cases hcount
      simp [hsupported]
  rw [← hrefused, combine]
  split <;> simp_all [eq_comm]

end Expr

/-! ## Decoded trees -/

theorem Wire.Representable.lawful {e : Expr} (h : Representable e) : e.Lawful := by
  induction h with
  | operator op field args harity _ ih => exact .operator op field args harity ih
  | _ => constructor

theorem Wire.lawful_of_decode {image : Image} {limit : Nat} {c : Cursor} {e : Expr}
    (h : (decode image limit c).1 = .ok e) : e.Lawful := by
  have hrun : decode image limit c = (.ok e, _) := Prod.ext h rfl
  exact (decode_eq_ok_iff.1 hrun).1.1.lawful

/-- A slot resolves to the absent node or to a decoded tree. -/
theorem SlotTable.lawful_of_answer {image : Image} {table : SlotTable} {limit : Nat} {index : Int} {e : Expr}
    (h : table.answer image limit index = .ok e) : e.Lawful := by
  have hrun : table.resolve image limit index ⟨0, #[], #[]⟩ = (.ok e, _) := Prod.ext h rfl
  unfold resolve at hrun
  cases hbuffer : table.buffer with
  | none =>
    simp only [hbuffer] at hrun
    cases hrun
    exact .invalid .absent
  | some buffer =>
    simp only [hbuffer] at hrun
    obtain ⟨found, c₁, -, hrun⟩ := bind_eq_ok_iff.1 hrun
    cases found with
    | none =>
      obtain ⟨_, c₂, -, ⟨⟩⟩ := bind_eq_ok_iff.1 hrun
      exact .invalid .absent
    | some offset =>
      obtain ⟨address, c₂, -, hrun⟩ := bind_eq_ok_iff.1 hrun
      obtain ⟨_, c₃, -, hrun⟩ := bind_eq_ok_iff.1 hrun
      have hdecode : (decode image limit { c₃ with position := address }).1 = .ok e := congrArg Prod.fst hrun
      exact lawful_of_decode hdecode

/-! ## Stacks -/

namespace OperandStack

variable {s : OperandStack}

theorem lawful_iff : s.Lawful ↔ ∀ o ∈ s.operands, o.expr.Lawful := by
  simp [Lawful, toList]

theorem Lawful.pop (hs : s.Lawful) {e : Expr} {left : OperandStack} (h : s.pop? = some (e, left)) :
    e.Lawful ∧ left.Lawful := by
  obtain ⟨o, htop, rfl, -⟩ := pop?_eq_some_iff.1 h
  rw [lawful_iff, htop, List.forall_mem_cons] at hs
  exact ⟨hs.1, lawful_iff.2 hs.2⟩

/-- What an operator makes of lawful trees is lawful, and so is what it leaves. -/
theorem Lawful.take (hs : s.Lawful) (op : Operator) (field : Int16) :
    (∀ o, (s.take op field).result = .ok o → o.expr.Lawful) ∧ (s.take op field).stack.Lawful := by
  unfold OperandStack.take
  split
  case h_1 =>
    refine ⟨?_, hs⟩
    rintro _ ⟨⟩
    exact .invalid _
  case h_2 arity _ =>
    simp only
    split
    · exact ⟨nofun, hs⟩
    · split
      · exact ⟨nofun, hs⟩
      · refine ⟨?_, lawful_iff.2 fun o ho => lawful_iff.1 hs o (List.mem_of_mem_drop ho)⟩
        intro o ho
        cases hcombine : Expr.combine op field ((s.operands.take arity).reverse.map (·.expr)) with
        | error f =>
          rw [hcombine] at ho
          cases ho
        | ok e =>
          rw [hcombine] at ho
          cases ho
          -- The arguments stood on the stack, where all trees are lawful.
          refine Expr.lawful_of_combine hcombine ?_
          intro a ha
          obtain ⟨o, ho, rfl⟩ := List.mem_map.1 ha
          exact lawful_iff.1 hs o (List.mem_of_mem_take (List.mem_reverse.1 ho))

theorem Lawful.bind (hs : s.Lawful) (op : Operator) (field : Int16) :
    (∀ e, (s.bind op field).result = .ok e → e.Lawful) ∧ (s.bind op field).stack.Lawful := by
  obtain ⟨htree, hleft⟩ := hs.take op field
  refine ⟨?_, hleft⟩
  intro e he
  rw [OperandStack.bind] at he
  cases hresult : (s.take op field).result with
  | error f =>
    rw [hresult] at he
    cases he
  | ok o =>
    rw [hresult] at he
    cases he
    exact htree o hresult

theorem Lawful.apply (hs : s.Lawful) (op : Operator) (field : Int16) :
    (∀ e, (s.apply op field).result = .ok e → e.Lawful) ∧ (s.apply op field).stack.Lawful := by
  obtain ⟨htree, hleft⟩ := hs.take op field
  rw [OperandStack.apply]
  cases hresult : (s.take op field).result with
  | error f =>
    refine ⟨?_, hleft⟩
    rintro _ ⟨⟩
  | ok o =>
    refine ⟨?_, lawful_iff.2 (List.forall_mem_cons.2 ⟨htree o hresult, lawful_iff.1 hleft⟩)⟩
    rintro _ ⟨⟩
    exact htree o hresult

theorem Lawful.ofList {es : List Expr} (hes : ∀ e ∈ es, e.Lawful) : (ofList es).Lawful := by
  have hpushed : ∀ s : OperandStack, s.Lawful → (es.foldl OperandStack.push s).Lawful := by
    induction es with
    | nil => exact fun s hs => hs
    | cons e rest ih =>
      intro s hs
      exact ih (fun a ha => hes a (List.mem_cons_of_mem e ha)) (s.push e) (hs.push (hes e List.mem_cons_self))
  exact hpushed {} nofun

end OperandStack

/-! ## Runs -/

/-- The trees and the stacks that have been made so far, oldest first. -/
structure Workshop where
  trees : List Expr := []
  operandStacks : List OperandStack := []

/-- One operation. The trees and the stack that it works on are told by their places in the workshop. -/
inductive Operation where
  | invalid (defect : Defect)
  | const (width : Width) (format : UInt8) (offset : Int16) (value : Int64)
  | var (format : UInt8) (offset : Int16)
  | combine (op : Operator) (field : Int16) (args : List Nat)
  | arguments (tree : Nat)
  | decode (image : Image) (limit position : Nat)
  | resolve (image : Image) (table : SlotTable) (limit : Nat) (index : Int)
  | newStack (limit : Nat)
  | stackOf (trees : List Nat)
  | push (stack tree : Nat)
  | pop (stack : Nat)
  | apply (stack : Nat) (op : Operator) (field : Int16)
  | bind (stack : Nat) (op : Operator) (field : Int16)
  | single (stack : Nat)

namespace Workshop

/-- The trees at these places. -/
def found (w : Workshop) (places : List Nat) : List Expr :=
  places.filterMap (w.trees[·]?)

def keep (w : Workshop) (e : Expr) : Workshop :=
  { w with trees := w.trees ++ [e] }

/-- Keep a tree unless the operation failed. -/
def keepResult (w : Workshop) : Except Failure Expr → Workshop
  | .ok e => w.keep e
  | .error _ => w

def replace (w : Workshop) (stack : Nat) (s : OperandStack) : Workshop :=
  { w with operandStacks := w.operandStacks.set stack s }

/-- The workshop after an operation, if what it works on is there. -/
def step (w : Workshop) : Operation → Option Workshop
  | .invalid defect => some (w.keep (.invalid defect))
  | .const width format offset value => some (w.keep (.const width format offset value))
  | .var format offset => some (w.keep (.var format offset))
  | .combine op field args => some (w.keepResult (Expr.combine op field (w.found args)))
  | .arguments tree => do
    let e ← w.trees[tree]?
    return { w with trees := w.trees ++ e.args }
  | .decode image limit position => some (w.keepResult (Wire.decode image limit ⟨position, #[], #[]⟩).1)
  | .resolve image table limit index => some (w.keepResult (table.answer image limit index))
  | .newStack limit => some { w with operandStacks := w.operandStacks ++ [{ limit }] }
  | .stackOf trees => some { w with operandStacks := w.operandStacks ++ [.ofList (w.found trees)] }
  | .push stack tree => do
    let s ← w.operandStacks[stack]?
    let e ← w.trees[tree]?
    return w.replace stack (s.push e)
  | .pop stack => do
    let s ← w.operandStacks[stack]?
    let (e, left) ← s.pop?
    return (w.replace stack left).keep e
  | .apply stack op field => do
    let s ← w.operandStacks[stack]?
    let o := s.apply op field
    return (w.replace stack o.stack).keepResult o.result
  | .bind stack op field => do
    let s ← w.operandStacks[stack]?
    let o := s.bind op field
    return (w.replace stack o.stack).keepResult o.result
  | .single stack => do
    let s ← w.operandStacks[stack]?
    return { w with operandStacks := w.operandStacks.eraseIdx stack }.keepResult s.single

/-- The workshop after operations, of which those that cannot be done are passed over. -/
def run (w : Workshop) (operations : List Operation) : Workshop :=
  operations.foldl (fun w operation => (w.step operation).getD w) w

/-- All trees are lawful, those on the stacks too. -/
structure Lawful (w : Workshop) : Prop where
  trees : ∀ e ∈ w.trees, e.Lawful
  operandStacks : ∀ s ∈ w.operandStacks, s.Lawful

variable {w : Workshop}

theorem Lawful.keep (h : w.Lawful) {e : Expr} (he : e.Lawful) : (w.keep e).Lawful := by
  refine ⟨?_, h.operandStacks⟩
  intro a ha
  rcases List.mem_append.1 ha with ha | ha
  · exact h.trees a ha
  · obtain rfl := List.mem_singleton.1 ha
    exact he

theorem Lawful.keepResult (h : w.Lawful) {r : Except Failure Expr} (hr : ∀ e, r = .ok e → e.Lawful) :
    (w.keepResult r).Lawful := by
  cases r with
  | ok e => exact h.keep (hr e rfl)
  | error f => exact h

theorem Lawful.replace (h : w.Lawful) (stack : Nat) {s : OperandStack} (hs : s.Lawful) :
    (w.replace stack s).Lawful := by
  refine ⟨h.trees, ?_⟩
  intro t ht
  rcases List.mem_or_eq_of_mem_set ht with ht | rfl
  · exact h.operandStacks t ht
  · exact hs

theorem Lawful.addStack (h : w.Lawful) {s : OperandStack} (hs : s.Lawful) :
    ({ w with operandStacks := w.operandStacks ++ [s] } : Workshop).Lawful := by
  refine ⟨h.trees, ?_⟩
  intro t ht
  rcases List.mem_append.1 ht with ht | ht
  · exact h.operandStacks t ht
  · obtain rfl := List.mem_singleton.1 ht
    exact hs

theorem Lawful.found (h : w.Lawful) (places : List Nat) : ∀ e ∈ w.found places, e.Lawful := by
  intro e he
  obtain ⟨place, -, hplace⟩ := List.mem_filterMap.1 he
  exact h.trees e (List.mem_of_getElem? hplace)

theorem Lawful.getElem? (h : w.Lawful) {stack : Nat} {s : OperandStack} (hs : w.operandStacks[stack]? = some s) :
    s.Lawful :=
  h.operandStacks s (List.mem_of_getElem? hs)

/-- Every operation keeps all trees lawful. -/
theorem Lawful.step (h : w.Lawful) {operation : Operation} {w' : Workshop} (hstep : w.step operation = some w') :
    w'.Lawful := by
  cases operation with
  | invalid defect =>
    cases hstep
    exact h.keep (.invalid defect)
  | const width format offset value =>
    cases hstep
    exact h.keep (.const width format offset value)
  | var format offset =>
    cases hstep
    exact h.keep (.var format offset)
  | combine op field args =>
    cases hstep
    exact h.keepResult fun e he => Expr.lawful_of_combine he (h.found args)
  | arguments tree =>
    obtain ⟨e, he, ⟨⟩⟩ := Option.bind_eq_some_iff.1 hstep
    refine ⟨?_, h.operandStacks⟩
    intro a ha
    rcases List.mem_append.1 ha with ha | ha
    · exact h.trees a ha
    · exact (h.trees e (List.mem_of_getElem? he)).args a ha
  | decode image limit position =>
    cases hstep
    exact h.keepResult fun e he => lawful_of_decode he
  | resolve image table limit index =>
    cases hstep
    exact h.keepResult fun e he => SlotTable.lawful_of_answer he
  | newStack limit =>
    cases hstep
    exact h.addStack nofun
  | stackOf trees =>
    cases hstep
    exact h.addStack (.ofList (h.found trees))
  | push stack tree =>
    obtain ⟨s, hs, hstep⟩ := Option.bind_eq_some_iff.1 hstep
    obtain ⟨e, he, ⟨⟩⟩ := Option.bind_eq_some_iff.1 hstep
    exact h.replace stack ((h.getElem? hs).push (h.trees e (List.mem_of_getElem? he)))
  | pop stack =>
    obtain ⟨s, hs, hstep⟩ := Option.bind_eq_some_iff.1 hstep
    obtain ⟨⟨e, left⟩, hpop, ⟨⟩⟩ := Option.bind_eq_some_iff.1 hstep
    obtain ⟨he, hleft⟩ := (h.getElem? hs).pop hpop
    exact (h.replace stack hleft).keep he
  | apply stack op field =>
    obtain ⟨s, hs, ⟨⟩⟩ := Option.bind_eq_some_iff.1 hstep
    obtain ⟨htree, hleft⟩ := (h.getElem? hs).apply op field
    exact (h.replace stack hleft).keepResult htree
  | bind stack op field =>
    obtain ⟨s, hs, ⟨⟩⟩ := Option.bind_eq_some_iff.1 hstep
    obtain ⟨htree, hleft⟩ := (h.getElem? hs).bind op field
    exact (h.replace stack hleft).keepResult htree
  | single stack =>
    obtain ⟨s, hs, ⟨⟩⟩ := Option.bind_eq_some_iff.1 hstep
    have hothers : ({ w with operandStacks := w.operandStacks.eraseIdx stack } : Workshop).Lawful :=
      ⟨h.trees, fun t ht => h.operandStacks t (List.mem_of_mem_eraseIdx ht)⟩
    refine hothers.keepResult ?_
    intro e he
    exact h.getElem? hs e (by simp [OperandStack.single_eq_ok_iff.1 he])

theorem Lawful.run (h : w.Lawful) (operations : List Operation) : (w.run operations).Lawful := by
  induction operations generalizing w with
  | nil => exact h
  | cons operation rest ih =>
    have hnext : ((w.step operation).getD w).Lawful := by
      cases hstep : w.step operation with
      | none => exact h
      | some w' => exact h.step hstep
    exact ih hnext

/-! ## Main theorem -/

/-- Whatever is done in whatever order, all trees that come out, and all trees on stacks, keep the arity rule at every
node. Putting arguments under an operator is refused exactly when it has no arity or they are not as many, and for
that reason. -/
theorem keepsArity_of_run (operations : List Operation) :
    (∀ e, e ∈ (run {} operations).trees ∨ (∃ s ∈ (run {} operations).operandStacks, e ∈ s.toList) →
      ∀ node ∈ e.preorder, node.KeepsArity) ∧
    ∀ op field args f, Expr.combine op field args = .error f ↔
      (op.arity = .unsupported ∨ ∃ n, op.arity.count = some n ∧ n ≠ args.length) ∧
        f = .arityMismatch op (op.arity.count.getD 0) args.length := by
  have hstart : ({} : Workshop).Lawful := ⟨nofun, nofun⟩
  have hlawful := hstart.run operations
  refine ⟨?_, fun op field args f => Expr.combine_eq_error_iff⟩
  rintro e (he | ⟨s, hs, he⟩)
  · exact (hlawful.trees e he).keepsArity
  · exact (hlawful.operandStacks s hs e he).keepsArity

/-- A variable is decoded and pushed, negated on the stack, and goes with the result under a plus; a plus of one
argument and an operator on an empty stack make nothing. -/
example : (run {} [.decode (Image.ofBytes #[3, 8, 4, 0]) 128 0, .newStack 128, .push 0 0, .apply 0 .unaryMinus 8, .single 0,
    .combine .plus 0 [0], .combine .plus 0 [0, 2], .newStack 128, .bind 0 .star 0]).trees =
      [.var 8 4, .operator .unaryMinus 8 [.var 8 4], .operator .unaryMinus 8 [.var 8 4],
        .operator .plus 0 [.var 8 4, .operator .unaryMinus 8 [.var 8 4]]] := by
  decide +kernel

end Workshop

end Correlation

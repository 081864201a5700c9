import Correlation.Proofs.Fields
import Correlation.Proofs.Traversal
import Correlation.Wire.Reader
/-!
# What decoding reads

`descend_eq_ok_iff` says when decoding succeeds, with which tree, and where the cursor is then: exactly when
the bytes of a representable tree of few enough levels stand at the cursor. The cursor after a tree is given by
`Cursor.walk`, with every read and every event that decoding the tree makes.
-/

namespace Correlation

open Attempt Decoder

namespace Wire

/-! ## The cursor after a tree -/

/-- The widths of the fields that a node's own bytes are read in. -/
def fieldWidths : Expr → List Nat
  | .invalid .absent => []
  | .invalid (.unknownTag _) => [1]
  | .invalid (.unsupportedOperator _ _) => [1, 1, 2]
  | .const .bits32 _ _ _ => [1, 1, 2, 4]
  | .const .bits64 _ _ _ => [1, 1, 2, 8]
  | .var _ _ => [1, 1, 2]
  | .operator _ _ _ => [1, 1, 2]

/-- What is reported of a node, beside that it is complete. -/
def remarks (start : Nat) : Expr → List Event
  | .invalid (.unknownTag tag) => [.untypedTag tag start]
  | .invalid (.unsupportedOperator code _) => [.unsupportedOperator code start]
  | _ => []

/-- Past its fields, a node ends. -/
theorem foldl_fieldWidths (e : Expr) (start : Nat) :
    (fieldWidths e).foldl (· + ·) start = start + ownSize e := by
  unfold fieldWidths ownSize
  split <;> rfl

end Wire

namespace Cursor

open Wire

/-- The cursor after a node's own bytes. -/
def pastOwn (c : Cursor) (e : Expr) : Cursor :=
  (remarks c.position e).foldl noted ((fieldWidths e).foldl past c)

mutual

/-- The cursor after a tree whose root lies at a depth. -/
def walk (c : Cursor) (depth : Nat) : Expr → Cursor
  | .operator op field args =>
    (walkAll (c.pastOwn (.operator op field args)) (depth + 1) args).noted
      (.decoded (.operator op field args) c.position depth)
  | e => (c.pastOwn e).noted (.decoded e c.position depth)

/-- The cursor after trees that follow each other, all at the same depth. -/
def walkAll (c : Cursor) (depth : Nat) : List Expr → Cursor
  | [] => c
  | e :: rest => walkAll (walk c depth e) depth rest

end

theorem position_foldl_past (widths : List Nat) (c : Cursor) :
    (widths.foldl past c).position = widths.foldl (· + ·) c.position := by
  induction widths generalizing c with
  | nil => rfl
  | cons n widths ih => exact ih (c.past n)

theorem position_foldl_noted (events : List Event) (c : Cursor) :
    (events.foldl noted c).position = c.position := by
  induction events generalizing c with
  | nil => rfl
  | cons e events ih => simp [ih]

@[simp]
theorem position_pastOwn (c : Cursor) (e : Expr) : (c.pastOwn e).position = c.position + ownSize e := by
  rw [pastOwn, position_foldl_noted, position_foldl_past, foldl_fieldWidths]

end Cursor

namespace Wire

variable {image : Image} {c c' : Cursor}

/-! ## A node's own bytes -/

/-- The node that a head begins, with no arguments yet. -/
def Head.node : Head → Expr
  | .leaf e => e
  | .operator op field _ => .operator op field []

/-- A head that bytes can spell: a representable leaf, or an operator with its arity. -/
inductive Head.Sound : Head → Prop where
  | leaf (e) : Representable e → e.args = [] → Sound (.leaf e)
  | operator (op field arity) : op.arity.count = some arity → Sound (.operator op field arity)

/-- No operator is a leaf: an arity is at least one. -/
theorem not_representable_operator_nil {op : Operator} {field : Int16} :
    ¬ Representable (.operator op field []) := by
  intro h
  cases h with
  | operator _ _ _ harity => exact Arity.count_ne_zero _ harity

theorem bind_count_eq_some_iff {code : UInt8} {op : Operator} {arity : Nat} :
    ((Operator.ofCode? code).bind fun op => op.arity.count.map (op, ·)) = some (op, arity) ↔
      op.code = code ∧ op.arity.count = some arity := by
  simp [Option.bind_eq_some_iff, Operator.ofCode?_eq_some_iff]

theorem bind_count_eq_none_iff {code : UInt8} :
    ((Operator.ofCode? code).bind fun op => op.arity.count.map (op, ·)) = none ↔
      Operator.arityOf code = .unsupported := by
  cases h : Operator.ofCode? code <;> simp [Operator.arityOf, h, Arity.count_eq_none_iff]

/-- Behind its tag, every node but an unknown tag has a byte and a 16-bit field. -/
theorem header_eq_ok_iff {α : Type} {rest : UInt8 → Int16 → Decoder α} {a : α} :
    (do
      let first ← uint8 image
      let field ← int16 image
      rest first field) c = (.ok a, c') ↔
      ∃ first field, image.Readable c.position (first :: bytes16 field) ∧
        rest first field ((c.past 1).past 2) = (.ok a, c') := by
  simp only [bind_eq_ok_iff, uint8_eq_ok_iff, int16_eq_ok_iff]
  constructor
  · rintro ⟨first, _, ⟨hfirst, rfl⟩, field, _, ⟨hfield, rfl⟩, h⟩
    exact ⟨first, field, Image.readable_cons_iff.2 ⟨hfirst, hfield⟩, h⟩
  · rintro ⟨first, field, hbytes, h⟩
    obtain ⟨hfirst, hfield⟩ := Image.readable_cons_iff.1 hbytes
    exact ⟨first, _, ⟨hfirst, rfl⟩, field, _, ⟨hfield, rfl⟩, h⟩

theorem operatorHead_eq_ok_iff {start : Nat} {h : Head} :
    operatorHead image start c = (.ok h, c') ↔
      ∃ code field, image.Readable c.position (code :: bytes16 field) ∧
        ((∃ op arity, op.code = code ∧ op.arity.count = some arity ∧ h = .operator op field arity ∧
            c' = (c.past 1).past 2) ∨
          (Operator.arityOf code = .unsupported ∧ h = .leaf (.invalid (.unsupportedOperator code field)) ∧
            c' = ((c.past 1).past 2).noted (.unsupportedOperator code start))) := by
  rw [operatorHead, header_eq_ok_iff]
  constructor
  · rintro ⟨code, field, hbytes, h⟩
    refine ⟨code, field, hbytes, ?_⟩
    cases hop : (Operator.ofCode? code).bind fun op => op.arity.count.map (op, ·) with
    | none =>
      rw [hop] at h
      cases h
      exact .inr ⟨bind_count_eq_none_iff.1 hop, rfl, rfl⟩
    | some found =>
      obtain ⟨op, arity⟩ := found
      obtain ⟨hcode, harity⟩ := bind_count_eq_some_iff.1 hop
      rw [hop] at h
      cases h
      exact .inl ⟨op, arity, hcode, harity, rfl, rfl⟩
  · rintro ⟨code, field, hbytes, hcase⟩
    refine ⟨code, field, hbytes, ?_⟩
    rcases hcase with ⟨op, arity, hop, harity, rfl, rfl⟩ | ⟨hop, rfl, rfl⟩
    · rw [bind_count_eq_some_iff.2 ⟨hop, harity⟩]
      rfl
    · rw [bind_count_eq_none_iff.2 hop]
      rfl

/-- What a head was read from, by the tag it begins with. -/
theorem readable_of_head {h : Head} (hrun : head image c = (.ok h, c')) :
    h.Sound ∧ image.Readable c.position (ownBytes h.node) ∧ c' = c.pastOwn h.node := by
  simp only [head, bind_eq_ok_iff, uint8_eq_ok_iff] at hrun
  obtain ⟨_, _, hstart, tag, _, ⟨htag, rfl⟩, hrun⟩ := hrun
  cases hstart
  cases hkind : Tag.ofByte? tag with
  | none =>
    rw [hkind] at hrun
    cases hrun
    exact ⟨.leaf _ (.unknownTag tag (Tag.opensNode_eq_false_iff.2 (.inr hkind))) rfl, htag, rfl⟩
  | some kind =>
    obtain rfl := Tag.ofByte?_eq_some_iff.1 hkind
    rw [hkind] at hrun
    cases kind with
    | const32 =>
      obtain ⟨format, offset, hheader, hrun⟩ := header_eq_ok_iff.1 hrun
      obtain ⟨value, _, hread, hnode⟩ := bind_eq_ok_iff.1 hrun
      obtain ⟨hvalue, rfl⟩ := int32_eq_ok_iff.1 hread
      cases hnode
      refine ⟨.leaf _ (.const32 format offset value) rfl, ?_, rfl⟩
      rw [Head.node, Expr.const32, ownBytes, Int32.toInt32_toInt64]
      exact Image.readable_cons_iff.2 ⟨htag, Image.readable_append_iff.2 ⟨hheader, hvalue⟩⟩
    | const64 =>
      obtain ⟨format, offset, hheader, hrun⟩ := header_eq_ok_iff.1 hrun
      obtain ⟨value, _, hread, hnode⟩ := bind_eq_ok_iff.1 hrun
      obtain ⟨hvalue, rfl⟩ := int64_eq_ok_iff.1 hread
      cases hnode
      refine ⟨.leaf _ (.const64 format offset value) rfl, ?_, rfl⟩
      exact Image.readable_cons_iff.2 ⟨htag, Image.readable_append_iff.2 ⟨hheader, hvalue⟩⟩
    | variableRef =>
      obtain ⟨format, offset, hheader, hnode⟩ := header_eq_ok_iff.1 hrun
      cases hnode
      exact ⟨.leaf _ (.var format offset) rfl, Image.readable_cons_iff.2 ⟨htag, hheader⟩, rfl⟩
    | operator =>
      obtain ⟨code, field, hheader, hcase⟩ := operatorHead_eq_ok_iff.1 hrun
      rcases hcase with ⟨op, arity, rfl, harity, rfl, rfl⟩ | ⟨hcode, rfl, rfl⟩
      · exact ⟨.operator op field arity harity, Image.readable_cons_iff.2 ⟨htag, hheader⟩, rfl⟩
      · exact ⟨.leaf _ (.unsupportedOperator code field hcode) rfl,
          Image.readable_cons_iff.2 ⟨htag, hheader⟩, rfl⟩
    | pad =>
      cases hrun
      exact ⟨.leaf _ (.unknownTag _ (Tag.opensNode_eq_false_iff.2 (.inl hkind))) rfl, htag, rfl⟩

theorem head_of_readable {h : Head} (hsound : h.Sound) (hbytes : image.Readable c.position (ownBytes h.node)) :
    head image c = (.ok h, c.pastOwn h.node) := by
  simp only [head, bind_eq_ok_iff, uint8_eq_ok_iff]
  cases hsound with
  | leaf e hrep hargs =>
    cases hrep with
    | unknownTag tag htag =>
      refine ⟨_, c, rfl, tag, _, ⟨hbytes, rfl⟩, ?_⟩
      rcases Tag.opensNode_eq_false_iff.1 htag with hkind | hkind
      · rw [hkind]
        rfl
      · rw [hkind]
        rfl
    | unsupportedOperator code field hcode =>
      obtain ⟨htag, hheader⟩ := Image.readable_cons_iff.1 hbytes
      refine ⟨_, c, rfl, Tag.operator.byte, _, ⟨htag, rfl⟩, ?_⟩
      rw [Tag.ofByte?_byte]
      exact operatorHead_eq_ok_iff.2 ⟨code, field, hheader, .inr ⟨hcode, rfl, rfl⟩⟩
    | const32 format offset value =>
      rw [Head.node, Expr.const32, ownBytes, Int32.toInt32_toInt64] at hbytes
      obtain ⟨htag, hbytes⟩ := Image.readable_cons_iff.1 hbytes
      rw [← List.cons_append] at hbytes
      obtain ⟨hheader, hvalue⟩ := Image.readable_append_iff.1 hbytes
      refine ⟨_, c, rfl, Tag.const32.byte, _, ⟨htag, rfl⟩, ?_⟩
      rw [Tag.ofByte?_byte]
      refine header_eq_ok_iff.2 ⟨format, offset, hheader, ?_⟩
      exact bind_eq_ok_iff.2 ⟨value, _, int32_eq_ok_iff.2 ⟨hvalue, rfl⟩, rfl⟩
    | const64 format offset value =>
      obtain ⟨htag, hbytes⟩ := Image.readable_cons_iff.1 hbytes
      rw [← List.cons_append] at hbytes
      obtain ⟨hheader, hvalue⟩ := Image.readable_append_iff.1 hbytes
      refine ⟨_, c, rfl, Tag.const64.byte, _, ⟨htag, rfl⟩, ?_⟩
      rw [Tag.ofByte?_byte]
      refine header_eq_ok_iff.2 ⟨format, offset, hheader, ?_⟩
      exact bind_eq_ok_iff.2 ⟨value, _, int64_eq_ok_iff.2 ⟨hvalue, rfl⟩, rfl⟩
    | var format offset =>
      obtain ⟨htag, hheader⟩ := Image.readable_cons_iff.1 hbytes
      refine ⟨_, c, rfl, Tag.variableRef.byte, _, ⟨htag, rfl⟩, ?_⟩
      rw [Tag.ofByte?_byte]
      exact header_eq_ok_iff.2 ⟨format, offset, hheader, rfl⟩
    | operator op field args harity hall =>
      obtain rfl : args = [] := hargs
      exact absurd (.operator op field [] harity hall) not_representable_operator_nil
  | operator op field arity harity =>
    obtain ⟨htag, hheader⟩ := Image.readable_cons_iff.1 hbytes
    refine ⟨_, c, rfl, Tag.operator.byte, _, ⟨htag, rfl⟩, ?_⟩
    rw [Tag.ofByte?_byte]
    exact operatorHead_eq_ok_iff.2 ⟨op.code, field, hheader, .inl ⟨op, arity, rfl, harity, rfl, rfl⟩⟩

/-- A head is read exactly when its bytes stand at the cursor. -/
theorem head_eq_ok_iff {h : Head} :
    head image c = (.ok h, c') ↔
      h.Sound ∧ image.Readable c.position (ownBytes h.node) ∧ c' = c.pastOwn h.node := by
  constructor
  · exact readable_of_head
  · rintro ⟨hsound, hbytes, rfl⟩
    exact head_of_readable hsound hbytes

/-! ## Trees by their root -/

/-- The head of a tree. -/
def Head.of : Expr → Head
  | .operator op field args => .operator op field args.length
  | e => .leaf e

theorem ownBytes_head (e : Expr) : ownBytes (Head.of e).node = ownBytes e := by
  cases e <;> rfl

theorem pastOwn_head (c : Cursor) (e : Expr) : c.pastOwn (Head.of e).node = c.pastOwn e := by
  cases e <;> rfl

/-- The head that begins a leaf is the leaf. -/
theorem head_of_leaf {e : Expr} (h : (Head.leaf e).Sound) : Head.of e = .leaf e := by
  cases h with
  | leaf _ hrep hargs =>
    cases e with
    | operator op field args =>
      obtain rfl : args = [] := hargs
      exact absurd hrep not_representable_operator_nil
    | _ => rfl

theorem representable_iff {e : Expr} :
    Representable e ↔ (Head.of e).Sound ∧ ∀ a ∈ e.args, Representable a := by
  constructor
  · intro h
    cases h with
    | operator op field args harity hargs => exact ⟨.operator op field _ harity, hargs⟩
    | unknownTag tag htag => exact ⟨.leaf _ (.unknownTag tag htag) rfl, nofun⟩
    | unsupportedOperator code field hcode => exact ⟨.leaf _ (.unsupportedOperator code field hcode) rfl, nofun⟩
    | const32 format offset value => exact ⟨.leaf _ (.const32 format offset value) rfl, nofun⟩
    | const64 format offset value => exact ⟨.leaf _ (.const64 format offset value) rfl, nofun⟩
    | var format offset => exact ⟨.leaf _ (.var format offset) rfl, nofun⟩
  · rintro ⟨hsound, hargs⟩
    cases e with
    | operator op field args =>
      cases hsound with
      | operator _ _ _ harity => exact .operator op field args harity hargs
    | _ =>
      cases hsound with
      | leaf _ hrep _ => exact hrep

theorem encode_eq (e : Expr) : encode e = ownBytes e ++ encodeAll e.args := by
  cases e <;> simp [encode, encodeAll, Expr.args]

theorem walk_eq (c : Cursor) (depth : Nat) (e : Expr) :
    c.walk depth e = ((c.pastOwn e).walkAll (depth + 1) e.args).noted (.decoded e c.position depth) := by
  cases e <;> simp [Cursor.walk, Cursor.walkAll, Expr.args]

mutual

/-- The walk ends past the bytes of the tree. -/
theorem position_walk (c : Cursor) (depth : Nat) (e : Expr) :
    (c.walk depth e).position = c.position + (encode e).length := by
  cases e with
  | operator op field args =>
    rw [walk_eq, Cursor.position_noted, Expr.args, position_walkAll, Cursor.position_pastOwn, encode_eq,
      List.length_append, length_ownBytes, Expr.args, Nat.add_assoc]
  | _ => simp [Cursor.walk, encode, length_ownBytes]

theorem position_walkAll (c : Cursor) (depth : Nat) (es : List Expr) :
    (c.walkAll depth es).position = c.position + (encodeAll es).length := by
  cases es with
  | nil => rfl
  | cons e rest =>
    rw [Cursor.walkAll, position_walkAll, position_walk, encodeAll, List.length_append, Nat.add_assoc]

end

/-! ## The bytes of a tree, part by part -/

theorem nil_pastOwn {e : Expr} (h : image.Readable c.position (ownBytes e)) :
    image.Readable (c.pastOwn e).position [] := by
  have hend := h.nil_past
  rwa [length_ownBytes, ← c.position_pastOwn] at hend

/-- First the root's own bytes, then those of the arguments. -/
theorem readable_encode_iff {e : Expr} :
    image.Readable c.position (encode e) ↔
      image.Readable c.position (ownBytes e) ∧ image.Readable (c.pastOwn e).position (encodeAll e.args) := by
  rw [encode_eq, Image.readable_append_iff, length_ownBytes, c.position_pastOwn]

theorem nil_walk {e : Expr} (depth : Nat) (h : image.Readable c.position (encode e)) :
    image.Readable (c.walk depth e).position [] := by
  have hend := h.nil_past
  rwa [← position_walk c depth e] at hend

/-- First the bytes of the first tree, then those of the others. -/
theorem readable_encodeAll_cons_iff {depth : Nat} {e : Expr} {rest : List Expr} :
    image.Readable c.position (encodeAll (e :: rest)) ↔
      image.Readable c.position (encode e) ∧ image.Readable (c.walk depth e).position (encodeAll rest) := by
  rw [encodeAll, Image.readable_append_iff, position_walk]

/-! ## Whole trees -/

/-- Reading a number of trees in a row, given when one of them is read. The cursor has to stand in the image:
reading no tree at all succeeds anywhere. -/
theorem times_eq_ok_iff {read : Decoder Expr} {P : Expr → Prop} {depth : Nat}
    (hread : ∀ c c' e, read c = (.ok e, c') ↔ P e ∧ image.Readable c.position (encode e) ∧ c' = c.walk depth e)
    {count : Nat} {es : List Expr} (hc : image.Readable c.position []) :
    times read count c = (.ok es, c') ↔
      es.length = count ∧ (∀ e ∈ es, P e) ∧ image.Readable c.position (encodeAll es) ∧
        c' = c.walkAll depth es := by
  induction count generalizing c c' es with
  | zero =>
    simp only [times, pure_apply, Prod.mk.injEq, Except.ok.injEq]
    constructor
    · rintro ⟨rfl, rfl⟩
      exact ⟨rfl, nofun, hc, rfl⟩
    · rintro ⟨hlength, -, -, rfl⟩
      obtain rfl := List.eq_nil_of_length_eq_zero hlength
      exact ⟨rfl, rfl⟩
  | succ count ih =>
    simp only [times, bind_eq_ok_iff, hread]
    constructor
    · rintro ⟨e, _, ⟨he, hbytes, rfl⟩, rest, c₂, hrun, ⟨⟩⟩
      obtain ⟨rfl, hrest, hbytes', rfl⟩ := (ih (nil_walk depth hbytes)).1 hrun
      exact ⟨rfl, List.forall_mem_cons.2 ⟨he, hrest⟩, readable_encodeAll_cons_iff.2 ⟨hbytes, hbytes'⟩, rfl⟩
    · rintro ⟨hlength, hP, hbytes, rfl⟩
      match es, hlength with
      | e :: rest, hlength =>
        obtain ⟨he, hrest⟩ := List.forall_mem_cons.1 hP
        obtain ⟨hbytes, hbytes'⟩ := readable_encodeAll_cons_iff.1 hbytes
        refine ⟨e, _, ⟨he, hbytes, rfl⟩, rest, _, ?_, rfl⟩
        exact (ih (nil_walk depth hbytes)).2 ⟨Nat.succ.inj hlength, hrest, hbytes', rfl⟩

/-- One level of the descent: the head of the tree, then its arguments, then the report. -/
theorem descend_succ_eq_ok_iff {limit levels : Nat} {e : Expr} :
    descend image limit (levels + 1) c = (.ok e, c') ↔
      ∃ c₁ c₂, head image c = (.ok (Head.of e), c₁) ∧
        times (descend image limit levels) e.args.length c₁ = (.ok e.args, c₂) ∧
        c' = c₂.noted (.decoded e c.position (limit - levels)) := by
  simp only [descend, bind_eq_ok_iff]
  constructor
  · rintro ⟨_, _, ⟨⟩, h, c₁, hhead, hrun⟩
    have hsound := (head_eq_ok_iff.1 hhead).1
    cases h with
    | leaf node =>
      obtain ⟨_, _, ⟨⟩, hrun⟩ := bind_eq_ok_iff.1 hrun
      cases hrun
      have hargs : e.args = [] := by cases hsound; assumption
      rw [← head_of_leaf hsound] at hhead
      exact ⟨c₁, c₁, hhead, by rw [hargs]; rfl, rfl⟩
    | operator op field arity =>
      simp only [bind_eq_ok_iff] at hrun
      obtain ⟨args, c₂, hargs, node, _, hnode, _, _, ⟨⟩, ⟨⟩⟩ := hrun
      obtain ⟨hcombine, rfl⟩ := ofExcept_eq_ok_iff.1 hnode
      obtain ⟨hcount, rfl⟩ := Expr.combine_eq_ok_iff.1 hcombine
      -- The arity read and the number of arguments are both that of the operator.
      have harity : arity = args.length := by
        cases hsound with
        | operator _ _ _ h => exact Option.some.inj (h.symm.trans hcount)
      subst harity
      exact ⟨c₁, _, hhead, hargs, rfl⟩
  · rintro ⟨c₁, c₂, hhead, hargs, rfl⟩
    have hsound := (head_eq_ok_iff.1 hhead).1
    refine ⟨_, c, rfl, Head.of e, c₁, hhead, ?_⟩
    cases e with
    | operator op field args =>
      have hcombine : Expr.combine op field args = .ok (.operator op field args) := by
        cases hsound with
        | operator _ _ _ h => exact Expr.combine_eq_ok_iff.2 ⟨h, rfl⟩
      simp only [Head.of, bind_eq_ok_iff]
      exact ⟨args, c₂, hargs, _, c₂, ofExcept_eq_ok_iff.2 ⟨hcombine, rfl⟩, (), _, rfl, rfl⟩
    | _ =>
      obtain ⟨⟩ := hargs
      rfl

/-- Decoding succeeds exactly on the bytes of a representable tree of few enough levels, with that tree. -/
theorem descend_eq_ok_iff {limit levels : Nat} {e : Expr} (hlevels : levels ≤ limit + 1) :
    descend image limit levels c = (.ok e, c') ↔
      (Representable e ∧ e.height ≤ levels) ∧ image.Readable c.position (encode e) ∧
        c' = c.walk (limit + 1 - levels) e := by
  induction levels generalizing c c' e with
  | zero =>
    have hpos := e.height_pos
    simp only [descend, fail_apply, Prod.mk.injEq, reduceCtorEq, false_and, false_iff]
    omega
  | succ levels ih =>
    have hdepth : limit + 1 - levels = limit - levels + 1 := by omega
    have hread : ∀ c c' a, descend image limit levels c = (.ok a, c') ↔
        (Representable a ∧ a.height ≤ levels) ∧ image.Readable c.position (encode a) ∧
          c' = c.walk (limit - levels + 1) a := by
      intro c c' a
      rw [← hdepth]
      exact ih (by omega)
    -- Both sides split into the root and its arguments, which lie one level down on both.
    rw [descend_succ_eq_ok_iff, representable_iff, readable_encode_iff, walk_eq, Expr.height_eq,
      Nat.add_le_add_iff_right, Expr.heightAll_le_iff, Nat.add_sub_add_right]
    simp only [head_eq_ok_iff, ownBytes_head, pastOwn_head]
    constructor
    · rintro ⟨_, c₂, ⟨hsound, hbytes, rfl⟩, hrun, rfl⟩
      obtain ⟨-, hargs, hbytes', rfl⟩ := (times_eq_ok_iff hread (nil_pastOwn hbytes)).1 hrun
      exact ⟨⟨⟨hsound, fun a ha => (hargs a ha).1⟩, fun a ha => (hargs a ha).2⟩, ⟨hbytes, hbytes'⟩, rfl⟩
    · rintro ⟨⟨⟨hsound, hrep⟩, hheight⟩, ⟨hbytes, hbytes'⟩, rfl⟩
      refine ⟨_, _, ⟨hsound, hbytes, rfl⟩, ?_, rfl⟩
      exact (times_eq_ok_iff hread (nil_pastOwn hbytes)).2
        ⟨rfl, fun a ha => ⟨hrep a ha, hheight a ha⟩, hbytes', rfl⟩

theorem decode_eq_ok_iff {limit : Nat} {e : Expr} :
    decode image limit c = (.ok e, c') ↔
      (Representable e ∧ e.depth ≤ limit + 1) ∧ image.Readable c.position (encode e) ∧ c' = c.walk 0 e := by
  rw [decode, descend_eq_ok_iff (Nat.le_refl _), Nat.sub_self, Expr.depth_eq_height]

/-! ## Trees that are too high -/

/-- Reading a number of trees in a row fails as soon as one of them does. -/
theorem times_eq_error {read : Decoder Expr} {P : Expr → Prop} {depth : Nat} {failure : Failure}
    (hread : ∀ c c' e, read c = (.ok e, c') ↔ P e ∧ image.Readable c.position (encode e) ∧ c' = c.walk depth e)
    {es : List Expr}
    (hfail : ∀ c, ∀ e ∈ es, ¬ P e → image.Readable c.position (encode e) → ∃ c', read c = (.error failure, c'))
    (hbytes : image.Readable c.position (encodeAll es)) (hes : ∃ e ∈ es, ¬ P e) :
    ∃ c', times read es.length c = (.error failure, c') := by
  induction es generalizing c with
  | nil => simp at hes
  | cons e rest ih =>
    obtain ⟨hbytes, hbytes'⟩ := readable_encodeAll_cons_iff.1 hbytes
    rw [List.length_cons, times]
    by_cases he : P e
    · have hrest : ∃ e ∈ rest, ¬ P e := by simpa [he] using hes
      obtain ⟨c', hrun⟩ := ih (fun c a ha => hfail c a (List.mem_cons_of_mem e ha)) hbytes' hrest
      exact ⟨c', by rw [bind_of_ok ((hread ..).2 ⟨he, hbytes, rfl⟩), bind_of_error hrun]⟩
    · obtain ⟨c', hrun⟩ := hfail c e List.mem_cons_self he hbytes
      exact ⟨c', bind_of_error hrun⟩

/-- A representable tree of too many levels is refused for that, whatever the image holds behind it. -/
theorem descend_eq_tooDeep {limit levels : Nat} {e : Expr} (hlevels : levels ≤ limit + 1) (he : Representable e)
    (hbytes : image.Readable c.position (encode e)) (hheight : levels < e.height) :
    ∃ c', descend image limit levels c = (.error (.tooDeep limit), c') := by
  induction levels generalizing c e with
  | zero => exact ⟨c, rfl⟩
  | succ levels ih =>
    obtain ⟨hsound, hargs⟩ := representable_iff.1 he
    obtain ⟨hown, hbytes⟩ := readable_encode_iff.1 hbytes
    have hhead : head image c = (.ok (Head.of e), c.pastOwn e) :=
      head_eq_ok_iff.2 ⟨hsound, by rwa [ownBytes_head], (pastOwn_head c e).symm⟩
    -- One of the arguments is too high for the level below, and all before it are read.
    have hhigh : ∃ a ∈ e.args, ¬ (Representable a ∧ a.height ≤ levels) := by
      rw [Expr.height_eq, Nat.add_lt_add_iff_right, Expr.lt_heightAll_iff] at hheight
      obtain ⟨a, ha, hlevel⟩ := hheight
      exact ⟨a, ha, fun hP => Nat.not_le_of_lt hlevel hP.2⟩
    have hread := fun c c' a => @descend_eq_ok_iff image c c' limit levels a (by omega)
    have hfail : ∀ c, ∀ a ∈ e.args, ¬ (Representable a ∧ a.height ≤ levels) →
        image.Readable c.position (encode a) →
          ∃ c', descend image limit levels c = (.error (.tooDeep limit), c') := by
      intro c a ha hP hbytes
      exact ih (by omega) (hargs a ha) hbytes (Nat.lt_of_not_le fun hle => hP ⟨hargs a ha, hle⟩)
    obtain ⟨c', hrun⟩ := times_eq_error hread hfail hbytes hhigh
    refine ⟨c', ?_⟩
    rw [descend, bind_of_ok (rfl : position c = (.ok c.position, c)), bind_of_ok hhead]
    cases e with
    | operator op field args => exact bind_of_error hrun
    | _ => simp [Expr.args] at hhigh

/-- On the bytes of a representable tree, decoding gives the tree or refuses its depth. -/
theorem decode_of_readable {limit : Nat} {e : Expr} (he : Representable e)
    (hbytes : image.Readable c.position (encode e)) :
    (decode image limit c).1 = if e.depth ≤ limit + 1 then .ok e else .error (.tooDeep limit) := by
  split
  case isTrue hdepth => rw [decode_eq_ok_iff.2 ⟨⟨he, hdepth⟩, hbytes, rfl⟩]
  case isFalse hdepth =>
    rw [Expr.depth_eq_height] at hdepth
    obtain ⟨c', hrun⟩ := descend_eq_tooDeep (Nat.le_refl (limit + 1)) he hbytes (by omega)
    rw [decode, hrun]

end Wire

end Correlation

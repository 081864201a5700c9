import Correlation.Wire.Reader
/-!
# Straight readers

Decoders that read fields one after the other, each of some bytes, and report what they find, whatever the
source. They never fail by themselves, so what happens to them is what happens to their fields. A node's own
bytes are read in this way, and a 64-bit constant asks for the most of them (`straight_head`).
-/

namespace Correlation

open Attempt Decoder

namespace Decoder

/-- Made of fields and reports, with at most so many bytes in the fields together. -/
inductive Straight : {α : Type} → Nat → (Source → Decoder α) → Prop
  | pure {α : Type} (a : α) : Straight 0 fun _ => pure a
  | position : Straight 0 fun _ => position
  | note (e : Event) : Straight 0 fun _ => note e
  | take (count : Nat) : 0 < count → Straight count fun source => take source count
  | bind {α β : Type} {m n : Nat} {x : Source → Decoder α} {f : Source → α → Decoder β} :
    Straight m x → (∀ a, Straight n fun source => f source a) → Straight (m + n) fun source => x source >>= f source
  | weaken {α : Type} {m n : Nat} {x : Source → Decoder α} : Straight m x → m ≤ n → Straight n x

/-- A field of `count` bytes. -/
theorem straight_field {α : Type} {count : Nat} (hcount : 0 < count) (f : List UInt8 → α) :
    Straight count fun source => do return f (← take source count) :=
  (Straight.take count hcount).bind fun bytes => .pure (f bytes)

end Decoder

namespace Wire

/-- A byte and a 16-bit field stand behind every tag that opens a node. -/
theorem straight_header {α : Type} {n : Nat} {rest : Source → UInt8 → Int16 → Decoder α}
    (hrest : ∀ first field, Straight n fun source => rest source first field) :
    Straight (1 + (2 + n)) fun source => (do
      let first ← uint8 source
      let field ← int16 source
      rest source first field) := by
  refine (straight_field Nat.one_pos _).bind ?_
  intro first
  exact (straight_field Nat.two_pos _).bind fun field => hrest first field

theorem straight_operatorHead (start : Nat) : Straight 3 fun source => operatorHead source start := by
  refine straight_header (n := 0) ?_
  intro code field
  generalize (Operator.ofCode? code).bind (fun op => op.arity.count.map (op, ·)) = found
  cases found with
  | some found => exact .pure _
  | none => exact (Straight.note _).bind fun _ => .pure _

/-- A node asks for no more bytes than a 64-bit constant has. -/
theorem straight_head : Straight const64Size head := by
  show Straight (0 + (1 + 11)) head
  refine Straight.position.bind ?_
  intro start
  refine (straight_field Nat.one_pos _).bind ?_
  intro tag
  generalize Tag.ofByte? tag = kind
  match kind with
  | some .const32 =>
    refine (straight_header (n := 4) ?_).weaken (by decide)
    intro format offset
    exact (straight_field (by decide) _).bind fun value => .pure _
  | some .const64 =>
    refine straight_header (n := 8) ?_
    intro format offset
    exact (straight_field (by decide) _).bind fun value => .pure _
  | some .variableRef => exact (straight_header (n := 0) fun format offset => .pure _).weaken (by decide)
  | some .operator => exact (straight_operatorHead start).weaken (by decide)
  | some .pad | none => exact ((Straight.note _).bind fun _ => .pure _).weaken (by decide)

end Wire

end Correlation

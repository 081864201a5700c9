import Correlation.Proofs.Endings
import Correlation.SlotTable
/-!
# Relocation

Mapped at a higher base, an image decodes to the same trees. `Decoder.Moves` relates a run to the one at addresses
that are all a distance higher: the latter does the same there, in its result and in everything it logs, or runs
past the last address. Decoding does not run past it where the image ends below it, and resolving a slot does so
only when an address is computed (`moved_run`).
-/

namespace Correlation

open Attempt Decoder Wire

/-! ## Moved addresses -/

/-- The same bytes, mapped higher. -/
def Image.moved (image : Image) (distance : Nat) : Image :=
  { image with base := image.base + distance }

def Span.moved (s : Span) (distance : Nat) : Span :=
  { s with address := s.address + distance }

/-- The event, with the address it names. -/
def Event.moved (e : Event) (distance : Nat) : Event :=
  match e with
  | untypedTag tag start => untypedTag tag (start + distance)
  | unsupportedOperator code start => unsupportedOperator code (start + distance)
  | decoded node start depth => decoded node (start + distance) depth
  | slotFound index offset address => slotFound index offset (address + distance)
  | e => e

def Cursor.moved (c : Cursor) (distance : Nat) : Cursor where
  position := c.position + distance
  reads := c.reads.map (·.moved distance)
  events := c.events.map (·.moved distance)

/-- A cursor that has read and reported nothing. -/
@[simp]
theorem Cursor.moved_start (position distance : Nat) :
    (⟨position, #[], #[]⟩ : Cursor).moved distance = ⟨position + distance, #[], #[]⟩ := by
  simp [moved]

/-- The failure, with the address at which bytes are missing. -/
def Failure.moved (e : Failure) (distance : Nat) : Failure :=
  match e with
  | outOfBounds address size available => outOfBounds (address + distance) size available
  | e => e

def SlotTable.moved (table : SlotTable) (distance : Nat) : SlotTable :=
  ⟨table.slots.map (· + distance), table.buffer.map (· + distance)⟩

namespace Decoder

variable {α β : Type} {distance : Nat}

/-- What a run comes to at the moved addresses: the same result, or the moved failure. -/
def movedRun (distance : Nat) (r : Except Failure α × Cursor) : Except Failure α × Cursor :=
  (r.1.mapError (·.moved distance), r.2.moved distance)

@[simp]
theorem movedRun_ok (a : α) (c : Cursor) : movedRun distance (.ok a, c) = (.ok a, c.moved distance) :=
  rfl

/-- At the moved addresses, `y` does what `x` does, unless it runs past the last address. -/
def Moves (distance : Nat) (x y : Decoder α) : Prop :=
  ∀ c : Cursor, (∃ base offset, (y (c.moved distance)).1 = .error (.addressOverflow base offset)) ∨
    y (c.moved distance) = movedRun distance (x c)

/-! ## Runs that move -/

theorem moves_pure (a : α) : Moves distance (pure a) (pure a) :=
  fun _ => .inr rfl

theorem moves_note (e : Event) : Moves distance (note e) (note (e.moved distance)) := by
  intro c
  right
  simp [note, Cursor.moved]

/-- The second parts start where the first ones end, with the same intermediate result. -/
theorem Moves.bind {x y : Decoder α} {f g : α → Decoder β} (hx : Moves distance x y)
    (hf : ∀ a, Moves distance (f a) (g a)) : Moves distance (x >>= f) (y >>= g) := by
  intro c
  rcases hx c with ⟨base, offset, hy⟩ | hy
  · exact .inl ⟨base, offset, by rw [bind_of_error (Prod.ext hy rfl)]⟩
  · match hrun : x c with
    | (.ok a, c₁) =>
      rw [hrun] at hy
      rw [bind_of_ok hrun, bind_of_ok hy]
      exact hf a c₁
    | (.error e, c₁) =>
      rw [hrun] at hy
      rw [bind_of_error hrun, bind_of_error hy]
      exact .inr rfl

/-- A position is one of the addresses that move. -/
theorem moves_position_bind {f g : Nat → Decoder α} (hf : ∀ start, Moves distance (f start) (g (start + distance))) :
    Moves distance (position >>= f) (position >>= g) :=
  fun c => hf c.position c

theorem Moves.atAddress {x y : Decoder α} (h : Moves distance x y) (address : Nat) :
    Moves distance (atAddress address x) (atAddress (address + distance) y) := by
  intro c
  have hc : ({ c with position := address } : Cursor).moved distance =
      { c.moved distance with position := address + distance } := rfl
  rcases h { c with position := address } with ⟨base, offset, hy⟩ | hy
  · exact .inl ⟨base, offset, hy⟩
  · right
    rw [hc] at hy
    rw [atAddress_of_eq hy]
    rfl

theorem Moves.times {x y : Decoder α} (h : Moves distance x y) (count : Nat) :
    Moves distance (times x count) (times y count) := by
  induction count with
  | zero => exact moves_pure []
  | succ count ih => exact h.bind fun a => ih.bind fun rest => moves_pure (a :: rest)

/-! ## Fields -/

theorem read_moved (image : Image) (address count : Nat) :
    (image.moved distance).read (address + distance) count =
      (image.read address count).mapError (·.moved distance) := by
  have hbase : (image.moved distance).base ≤ address + distance ↔ image.base ≤ address := Nat.add_le_add_iff_right
  have hoffset : address + distance - (image.moved distance).base = address - image.base := Nat.add_sub_add_right ..
  have hsize : (image.moved distance).size = image.size := rfl
  unfold Image.read
  simp only [hbase, hoffset, hsize]
  split
  · rfl
  · rfl

theorem moves_peek (image : Image) (count : Nat) :
    Moves distance (peek image count) (peek (image.moved distance) count) := by
  intro c
  right
  have hread : (image.moved distance).read (c.position + distance) count = _ := read_moved image c.position count
  simp only [peek_ofImage, movedRun, Cursor.moved, hread]
  simp [Span.moved]

/-- The move can overflow at the higher address alone. -/
theorem moves_skip (count : Nat) : Moves distance (skip count) (skip count) := by
  intro c
  by_cases h : (c.moved distance).position + count < addressSpace
  · have hlow : c.position + count < addressSpace := by
      simp only [Cursor.moved] at h
      omega
    right
    rw [skip, skip, if_pos h, if_pos hlow]
    simp [Cursor.moved, Nat.add_right_comm]
  · left
    exact ⟨_, _, by rw [skip, if_neg h]⟩

theorem moves_take (image : Image) (count : Nat) :
    Moves distance (take image count) (take (image.moved distance) count) :=
  (moves_peek image count).bind fun bytes => (moves_skip count).bind fun _ => moves_pure bytes

theorem moves_field (image : Image) (count : Nat) (f : List UInt8 → α) :
    Moves distance (do return f (← take image count)) (do return f (← take (image.moved distance) count)) :=
  (moves_take image count).bind fun bytes => moves_pure (f bytes)

end Decoder

namespace Wire

variable {distance : Nat}

/-! ## Decoding -/

/-- A byte and a 16-bit field stand behind every tag that opens a node. -/
theorem moves_header {α : Type} (image : Image) {rest rest' : UInt8 → Int16 → Decoder α}
    (hrest : ∀ first field, Moves distance (rest first field) (rest' first field)) :
    Moves distance
      (do
        let first ← uint8 image
        let field ← int16 image
        rest first field)
      (do
        let first ← uint8 (image.moved distance)
        let field ← int16 (image.moved distance)
        rest' first field) := by
  refine (moves_field image 1 _).bind ?_
  intro first
  exact (moves_field image 2 _).bind fun field => hrest first field

theorem moves_operatorHead (image : Image) (start : Nat) :
    Moves distance (operatorHead image start) (operatorHead (image.moved distance) (start + distance)) := by
  refine moves_header image ?_
  intro code field
  generalize (Operator.ofCode? code).bind (fun op => op.arity.count.map (op, ·)) = found
  cases found with
  | some found => exact moves_pure _
  | none => exact (moves_note _).bind fun _ => moves_pure _

theorem moves_head (image : Image) : Moves distance (head image) (head (image.moved distance)) := by
  refine moves_position_bind ?_
  intro start
  refine (moves_field image 1 _).bind ?_
  intro tag
  generalize Tag.ofByte? tag = kind
  match kind with
  | some .const32 =>
    refine moves_header image ?_
    intro format offset
    exact (moves_field image 4 _).bind fun value => moves_pure _
  | some .const64 =>
    refine moves_header image ?_
    intro format offset
    exact (moves_field image 8 _).bind fun value => moves_pure _
  | some .variableRef => exact moves_header image fun format offset => moves_pure _
  | some .operator => exact moves_operatorHead image start
  | some .pad | none => exact (moves_note _).bind fun _ => moves_pure _

/-- A refused operator names no address. -/
theorem moves_combine (op : Operator) (field : Int16) (args : List Expr) :
    Moves distance (ofExcept (Expr.combine op field args)) (ofExcept (Expr.combine op field args)) := by
  intro c
  right
  unfold Expr.combine
  split
  · rfl
  · rfl

theorem moves_descend (image : Image) (limit levels : Nat) :
    Moves distance (descend image limit levels) (descend (image.moved distance) limit levels) := by
  induction levels with
  | zero => exact fun _ => .inr rfl
  | succ levels ih =>
    have hreport : ∀ node start, Moves distance
        (do
          note (.decoded node start (limit - levels))
          return node)
        (do
          note (.decoded node (start + distance) (limit - levels))
          return node) :=
      fun node start => (moves_note (.decoded node start _)).bind fun _ => moves_pure node
    rw [descend, descend]
    refine moves_position_bind ?_
    intro start
    refine (moves_head image).bind ?_
    intro h
    cases h with
    | leaf node => exact hreport node start
    | operator op field arity =>
      refine (ih.times arity).bind ?_
      intro args
      exact (moves_combine op field args).bind fun node => hreport node start

/-- Decoding does not run past the last address of an image that ends below it, and so it does the same wherever
the image is mapped. -/
theorem decode_moved {image : Image} (hspace : image.base + distance + image.size < addressSpace) (limit : Nat)
    (c : Cursor) :
    decode (image.moved distance) limit (c.moved distance) = movedRun distance (decode image limit c) := by
  have hdecode : Moves distance (decode image limit) (decode (image.moved distance) limit) :=
    moves_descend image limit (limit + 1)
  rcases hdecode c with ⟨base, offset, h⟩ | h
  · exact absurd h (decode_ne_addressOverflow hspace limit _ base offset)
  · exact h

end Wire

namespace SlotTable

variable {distance : Nat}

/-! ## Slots -/

/-- A base moves, an offset from it does not. -/
theorem moves_displace_bind {α : Type} {f g : Nat → Decoder α}
    (hf : ∀ address, Moves distance (f address) (g (address + distance))) (base : Nat) {offset : Int}
    (hoffset : 0 ≤ offset) :
    Moves distance (ofExcept (displace base offset) >>= f) (ofExcept (displace (base + distance) offset) >>= g) := by
  intro c
  by_cases h : ((base + distance : Nat) : Int) + offset < addressSpace
  · have hlow : displace base offset = .ok (base + offset).toNat := if_pos (by omega)
    have hhigh : displace (base + distance) offset = .ok ((base + offset).toNat + distance) := by
      rw [displace, if_pos (by omega)]
      congr 1
      omega
    rw [hlow, hhigh]
    exact hf (base + offset).toNat c
  · have hhigh : displace (base + distance) offset = .error (.addressOverflow (base + distance) offset) :=
      if_neg (by omega)
    rw [hhigh]
    exact .inl ⟨_, _, rfl⟩

theorem moves_slotOffset (image : Image) (table : SlotTable) (index : Int) :
    Moves distance (slotOffset image table index) (slotOffset (image.moved distance) (table.moved distance) index) := by
  unfold slotOffset moved
  cases table.slots with
  | none => exact moves_pure none
  | some base =>
    simp only [Option.map_some]
    split
    · exact moves_pure none
    · split
      · exact fun _ => .inl ⟨_, _, rfl⟩
      · rename_i hindex _
        refine moves_displace_bind ?_ base (by simp only [slotSize]; omega)
        intro address
        exact ((moves_field image 2 _).atAddress address).bind fun offset => moves_pure _

theorem moves_resolve (image : Image) (table : SlotTable) (limit : Nat) (index : Int) :
    Moves distance (resolve image table limit index)
      (resolve (image.moved distance) (table.moved distance) limit index) := by
  have hslot : Moves distance (slotOffset image table index) _ := moves_slotOffset image table index
  unfold resolve
  unfold moved at *
  cases table.buffer with
  | none => exact moves_pure _
  | some buffer =>
    simp only [Option.map_some]
    refine hslot.bind ?_
    intro found
    cases found with
    | none => exact (moves_note (.slotEmpty index)).bind fun _ => moves_pure _
    | some offset =>
      refine moves_displace_bind ?_ buffer (Int.natCast_nonneg offset)
      intro address
      refine (moves_note (.slotFound index offset address)).bind ?_
      intro _
      exact (moves_descend image limit (limit + 1)).atAddress address

end SlotTable

/-! ## Main theorem -/

/-- Bytes do the same mapped at a base as they do at addresses that are their indices. Decoding ends with the same
tree or the same failure, whose missing bytes are missing higher by the base, and so is the position it ends at.
Resolving a slot of the table that is moved along does the same too, unless an address is computed that does not
exist. -/
theorem moved_run (bytes : Array UInt8) {base : Nat} (hbase : base + bytes.size ≤ Numeral.greatestWord)
    (limit : Nat) :
    (∀ c : Cursor, decode (⟨base, bytes⟩ : Image) limit (c.moved base) = movedRun base (decode (Image.ofBytes bytes) limit c)) ∧
      ∀ (table : SlotTable) (index : Int) (c : Cursor),
        (∀ b o, (SlotTable.resolve (⟨base, bytes⟩ : Image) (table.moved base) limit index (c.moved base)).1 ≠
          .error (.addressOverflow b o)) →
        SlotTable.resolve (⟨base, bytes⟩ : Image) (table.moved base) limit index (c.moved base) =
          movedRun base (SlotTable.resolve (Image.ofBytes bytes) table limit index c) := by
  have himage : (⟨base, bytes⟩ : Image) = (Image.ofBytes bytes).moved base := by simp [Image.moved, Image.ofBytes]
  rw [himage]
  constructor
  · intro c
    refine decode_moved ?_ limit c
    simp only [Image.ofBytes, Image.size, addressSpace]
    omega
  · intro table index c hok
    rcases SlotTable.moves_resolve (.ofBytes bytes) table limit index c with ⟨b, o, h⟩ | h
    · exact absurd h (hok b o)
    · exact h

/-- A slot that leads to a negation whose argument is missing, and an empty slot. -/
def cutBytes : Array UInt8 :=
  #[0x02, 0x00, 0xff, 0xff, 0x04, 0x02, 0x08, 0x00]

/-- As high as `cutBytes` can be mapped. -/
def highBase : Nat :=
  0xfffffffffffffff7

/-- The argument is missing at the last address. Slot 5 has no address there, while plain bytes lack it. -/
theorem moved_run_sample :
    highBase + cutBytes.size ≤ Numeral.greatestWord ∧
      (decode (Image.ofBytes cutBytes) 128 ⟨4, #[], #[]⟩).1 = .error (.outOfBounds 8 1 8) ∧
      decode (⟨highBase, cutBytes⟩ : Image) 128 ⟨4 + highBase, #[], #[]⟩ =
        movedRun highBase (decode (Image.ofBytes cutBytes) 128 ⟨4, #[], #[]⟩) ∧
      (SlotTable.resolve (⟨highBase, cutBytes⟩ : Image) ⟨some highBase, some (2 + highBase)⟩ 128 0 ⟨highBase, #[], #[]⟩).1 =
        .error (.outOfBounds 0xffffffffffffffff 1 8) ∧
      SlotTable.resolve (⟨highBase, cutBytes⟩ : Image) ⟨some highBase, some (2 + highBase)⟩ 128 0 ⟨highBase, #[], #[]⟩ =
        movedRun highBase (SlotTable.resolve (Image.ofBytes cutBytes) ⟨some 0, some 2⟩ 128 0 ⟨0, #[], #[]⟩) ∧
      (SlotTable.resolve (⟨highBase, cutBytes⟩ : Image) ⟨some highBase, some (2 + highBase)⟩ 128 5 ⟨highBase, #[], #[]⟩).1 =
        .error (.addressOverflow highBase 10) ∧
      (SlotTable.resolve (Image.ofBytes cutBytes) ⟨some 0, some 2⟩ 128 5 ⟨0, #[], #[]⟩).1 =
        .error (.outOfBounds 10 2 8) := by
  have hbase : highBase + cutBytes.size ≤ Numeral.greatestWord := by decide
  have hresolved : (SlotTable.resolve (⟨highBase, cutBytes⟩ : Image) ⟨some highBase, some (2 + highBase)⟩ 128 0
      ⟨highBase, #[], #[]⟩).1 = .error (.outOfBounds 0xffffffffffffffff 1 8) := by decide +kernel
  obtain ⟨hdecode, hresolve⟩ := moved_run cutBytes hbase 128
  have hdecode₄ := hdecode ⟨4, #[], #[]⟩
  have hresolve₀ := hresolve ⟨some 0, some 2⟩ 0 ⟨0, #[], #[]⟩
  simp only [Cursor.moved_start, SlotTable.moved, Option.map_some, Nat.zero_add] at hdecode₄ hresolve₀
  refine ⟨hbase, by decide +kernel, hdecode₄, hresolved, hresolve₀ ?_, by decide +kernel, by decide +kernel⟩
  intro b o h
  rw [hresolved] at h
  cases h

end Correlation

import Correlation.Proofs.Forgetful
import Correlation.Proofs.Reading
/-!
# Slots

Where a slot is, what it holds, and what it resolves to: one equation for each way that looking at a slot and resolving
it can go.
-/

namespace Correlation

open Attempt Decoder Wire

namespace SlotTable

variable {image : Image} {table : SlotTable} {limit : Nat} {index : Int}

theorem displace_ofNat {base offset : Nat} (h : base + offset < addressSpace) :
    displace base offset = .ok (base + offset) := by
  rw [displace, if_pos (by omega)]
  rfl

/-! ## What a slot holds -/

/-- The slot has the address: its distance from the table is a signed number, and leads to an address. -/
def SlotAt (table : SlotTable) (index : Int) (address : Nat) : Prop :=
  ∃ base, table.slots = some base ∧ 0 ≤ index ∧ index * slotSize ≤ greatestIndex ∧
    base + index * slotSize = address ∧ address < addressSpace

/-- A slot is read once, wherever the cursor stands. -/
theorem int16_atAddress (image : Image) (address : Nat) (c : Cursor) :
    atAddress address (int16 image) c =
      ((int16 image ⟨address, #[], #[]⟩).1, { c with reads := c.reads.push ⟨address, slotSize⟩ }) := by
  have hfield : Stepwise image (fun _ => False) (int16 image) := .of_straight (straight_field Nat.two_pos _)
  have hcursor : (int16 image ⟨address, #[], #[]⟩).2 = (take image 2 ⟨address, #[], #[]⟩).2 := snd_field ..
  obtain ⟨hreads, hevents⟩ := log_take image 2 ⟨address, #[], #[]⟩
  rw [hfield.forgetful.atAddress_eq, hcursor, hreads, hevents]
  simp [slotSize]

theorem slotOffset_of_slotAt {address : Nat} (h : table.SlotAt index address) (c : Cursor) :
    slotOffset image table index c =
      ((int16 image ⟨address, #[], #[]⟩).1.map fun v => if v < 0 then none else some v.toUInt16.toNat,
        { c with reads := c.reads.push ⟨address, slotSize⟩ }) := by
  obtain ⟨base, hslots, hindex, hnear, haddress, hspace⟩ := h
  have hdisplace : displace base (index * slotSize) = .ok address := by
    rw [displace, haddress, if_pos (by omega), Int.toNat_natCast]
  have hslot := int16_atAddress image address c
  rw [slotOffset, hslots]
  simp only [if_neg (Int.not_lt.2 hindex), if_neg (Int.not_lt.2 hnear), hdisplace]
  rw [bind_of_ok (ofExcept_eq_ok_iff.2 ⟨rfl, rfl⟩)]
  match hread : (int16 image ⟨address, #[], #[]⟩).1 with
  | .ok v =>
    rw [hread] at hslot
    rw [bind_of_ok hslot]
    rfl
  | .error e =>
    rw [hread] at hslot
    rw [bind_of_error hslot]
    rfl

/-- Without a table or before its first slot, nothing is read. -/
theorem slotOffset_of_none (h : table.slots = none ∨ index < 0) (c : Cursor) :
    slotOffset image table index c = (.ok none, c) := by
  unfold slotOffset
  cases hslots : table.slots with
  | none => rfl
  | some base =>
    have hindex : index < 0 := h.resolve_left (by simp [hslots])
    simp only [if_pos hindex]
    rfl

/-- A slot whose distance from the table is no signed number is refused by its index. -/
theorem slotOffset_of_far (source : Source) {base : Nat} (hslots : table.slots = some base)
    (hfar : greatestIndex < index * slotSize) (c : Cursor) :
    slotOffset source table index c = (.error (.addressOverflow base index), c) := by
  have hindex : ¬ index < 0 := by
    simp only [slotSize, greatestIndex] at hfar
    omega
  rw [slotOffset, hslots]
  simp only [if_neg hindex, if_pos hfar, fail_apply]

/-- A slot without an address is refused before anything is read. -/
theorem slotOffset_of_unaddressed {base : Nat} (hslots : table.slots = some base) (hindex : 0 ≤ index)
    (h : ∀ address, ¬ table.SlotAt index address) (c : Cursor) :
    ∃ e, slotOffset image table index c = (.error e, c) := by
  by_cases hfar : greatestIndex < index * slotSize
  · exact ⟨_, slotOffset_of_far image hslots hfar c⟩
  · have hpast : ¬ (0 ≤ base + index * slotSize ∧ base + index * slotSize < addressSpace) := by
      rintro ⟨hlow, hhigh⟩
      exact h (base + index * slotSize).toNat ⟨base, hslots, hindex, Int.not_lt.1 hfar, by omega, by omega⟩
    have hdisplace : displace base (index * slotSize) = .error (.addressOverflow base (index * slotSize)) := by
      rw [displace, if_neg hpast]
    rw [slotOffset, hslots]
    simp only [if_neg (Int.not_lt.2 hindex), if_neg hfar, hdisplace]
    exact ⟨_, rfl⟩

/-! ## What a slot resolves to -/

theorem resolve_of_noBuffer (h : table.buffer = none) (c : Cursor) :
    resolve image table limit index c = (.ok .absent, c) := by
  simp only [resolve, h, pure_apply]

section

variable {buffer offset : Nat} {e : Failure} {c c' : Cursor}

theorem resolve_of_none (hbuffer : table.buffer = some buffer) (h : slotOffset image table index c = (.ok none, c')) :
    resolve image table limit index c = (.ok .absent, c'.noted (.slotEmpty index)) := by
  simp only [resolve, hbuffer]
  rw [bind_of_ok h]
  rfl

theorem resolve_of_error (hbuffer : table.buffer = some buffer)
    (h : slotOffset image table index c = (.error e, c')) : resolve image table limit index c = (.error e, c') := by
  simp only [resolve, hbuffer]
  rw [bind_of_error h]

/-- From where the offset leads to, an expression is decoded. -/
theorem resolve_of_offset (hbuffer : table.buffer = some buffer) (hspace : buffer + offset < addressSpace)
    (h : slotOffset image table index c = (.ok (some offset), c')) :
    resolve image table limit index c =
      atAddress (buffer + offset) (decode image limit) (c'.noted (.slotFound index offset (buffer + offset))) := by
  simp only [resolve, hbuffer]
  rw [bind_of_ok h]
  simp only [displace_ofNat hspace]
  rfl

theorem resolve_of_overflow (hbuffer : table.buffer = some buffer) (hspace : addressSpace ≤ buffer + offset)
    (h : slotOffset image table index c = (.ok (some offset), c')) :
    resolve image table limit index c = (.error (.addressOverflow buffer offset), c') := by
  have hdisplace : displace buffer offset = .error (.addressOverflow buffer offset) := by
    rw [displace, if_neg (by omega)]
  simp only [resolve, hbuffer]
  rw [bind_of_ok h]
  simp only [hdisplace]
  rfl

end

/-! ## Slots that can be read -/

/-- The bytes at a slot's address decide what it holds. -/
theorem slotOffset_of_readable {base index : Nat} {v : Int16} (hslots : table.slots = some base)
    (hindex : 2 * index ≤ Numeral.greatestSigned)
    (hbytes : image.Readable (base + 2 * index) (bytes16 v)) (c : Cursor) :
    slotOffset image table index c =
      (.ok (if v < 0 then none else some v.toUInt16.toNat),
        { c with reads := c.reads.push ⟨base + 2 * index, 2⟩ }) := by
  have hpast := hbytes.past
  have hslot : table.SlotAt index (base + 2 * index) := by
    refine ⟨base, hslots, Int.natCast_nonneg index, ?_, ?_, by omega⟩
    · simp only [slotSize, greatestIndex]
      omega
    · simp only [slotSize]
      omega
  have hread : int16 image ⟨base + 2 * index, #[], #[]⟩ = (.ok v, _) := int16_eq_ok_iff.2 ⟨hbytes, rfl⟩
  rw [slotOffset_of_slotAt hslot, hread]
  rfl

/-- A slot with a negative number in it resolves to the absent node. -/
theorem resolve_of_negative {base buffer index : Nat} {v : Int16} (hslots : table.slots = some base)
    (hbuffer : table.buffer = some buffer) (hindex : 2 * index ≤ Numeral.greatestSigned)
    (hbytes : image.Readable (base + 2 * index) (bytes16 v)) (hv : v < 0) (c : Cursor) :
    ∃ c', resolve image table limit index c = (.ok .absent, c') := by
  have hslot := slotOffset_of_readable hslots hindex hbytes c
  rw [if_pos hv] at hslot
  exact ⟨_, resolve_of_none hbuffer hslot⟩

/-- A slot resolves to the tree whose bytes stand where it leads. -/
theorem resolve_of_readable {base buffer index : Nat} {v : Int16} {e : Expr} (hslots : table.slots = some base)
    (hbuffer : table.buffer = some buffer) (hindex : 2 * index ≤ Numeral.greatestSigned)
    (hbytes : image.Readable (base + 2 * index) (bytes16 v)) (hv : ¬ v < 0) (he : Representable e)
    (hdepth : e.depth ≤ limit + 1) (htree : image.Readable (buffer + v.toUInt16.toNat) (encode e))
    (c : Cursor) : ∃ c', resolve image table limit index c = (.ok e, c') := by
  have hslot := slotOffset_of_readable hslots hindex hbytes c
  rw [if_neg hv] at hslot
  have hspace : buffer + v.toUInt16.toNat < addressSpace := by
    have hpast := htree.past
    omega
  rw [resolve_of_offset hbuffer hspace hslot]
  exact ⟨_, atAddress_of_eq (decode_eq_ok_iff.2 ⟨⟨he, hdepth⟩, htree, rfl⟩)⟩

/-- A range resolves to the list of what its slots resolve to. -/
theorem resolveFrom_of_each {es : List Expr} {index : Nat}
    (hes : ∀ before e after, es = before ++ e :: after →
      ∀ c, ∃ c', resolve image table limit ((index + before.length : Nat) : Int) c = (.ok e, c'))
    (found : Array Expr) (c : Cursor) :
    ∃ c', resolveFrom image table limit found index es.length c = (.ok (found ++ es.toArray), c') := by
  induction es generalizing index found c with
  | nil => exact ⟨c, by simp [resolveFrom]⟩
  | cons e rest ih =>
    obtain ⟨c₁, hfirst⟩ := hes [] e rest rfl c
    have hes' : ∀ before a after, rest = before ++ a :: after →
        ∀ c, ∃ c', resolve image table limit ((index + 1 + before.length : Nat) : Int) c = (.ok a, c') := by
      intro before a after hrest
      have hnext := hes (e :: before) a after (by rw [hrest, List.cons_append])
      rwa [List.length_cons, ← Nat.add_assoc, Nat.add_right_comm] at hnext
    obtain ⟨c₂, hrest⟩ := ih hes' (found.push e) c₁
    have hfound : found.push e ++ rest.toArray = found ++ (e :: rest).toArray := by simp
    rw [hfound] at hrest
    exact ⟨c₂, bind_eq_ok_iff.2 ⟨e, c₁, hfirst, hrest⟩⟩

end SlotTable

/-- A slot that leads to a variable, and an empty slot. -/
def nearSlots : Image :=
  .ofBytes #[0x00, 0x00, 0xff, 0xff, 0x03, 0x08, 0x20, 0x00]

end Correlation

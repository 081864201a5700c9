import Correlation.Proofs.RoundTrip
import Correlation.Proofs.Slots
/-!
# Laid-out tables

An offset table in front of the buffer it points into, laid out from a list of entries, resolves to what the
entries stand for (`resolveRange_layout`), at whatever base the bytes are mapped.
-/

namespace Correlation

open Attempt Decoder Wire

/-- What one slot is laid out for: a marker that is stored as it is, or a tree to put into the buffer. -/
inductive Entry where
  | marker (value : Int16)
  | tree (t : Expr)

namespace Entry

/-- The entry's part of the buffer. -/
def bytes : Entry → List UInt8
  | marker _ => []
  | tree t => encode t

/-- What the slot holds, when the entry's part of the buffer begins at the offset. -/
def slot (offset : Nat) : Entry → Int16
  | marker value => value
  | tree _ => Int16.ofNat offset

/-- What the slot resolves to. -/
def expr : Entry → Expr
  | marker _ => .absent
  | tree t => t

/-- Markers are negative, and trees are representable and within the depth limit. -/
def Fits (limit : Nat) : Entry → Prop
  | marker value => value < 0
  | tree t => Representable t ∧ t.depth ≤ limit + 1

end Entry

namespace Layout

open Entry

/-- The parts of the buffer one after the other. -/
def buffer (entries : List Entry) : List UInt8 :=
  entries.flatMap bytes

/-- The slots one after the other, the first entry's part of the buffer at the offset. -/
def slots (offset : Nat) : List Entry → List UInt8
  | [] => []
  | e :: rest => bytes16 (e.slot offset) ++ slots (offset + e.bytes.length) rest

/-- The table and the buffer behind it. -/
def contents (entries : List Entry) : List UInt8 :=
  slots 0 entries ++ buffer entries

/-- The same, mapped at a base. -/
def image (base : Nat) (entries : List Entry) : Image :=
  ⟨base, (contents entries).toArray⟩

/-- Where the table and the buffer are then. -/
def table (base : Nat) (entries : List Entry) : SlotTable :=
  ⟨some base, some (base + 2 * entries.length)⟩

theorem length_bytes16 (v : Int16) : (bytes16 v).length = 2 :=
  length_littleEndianBytes 2 _

theorem length_slots (offset : Nat) (entries : List Entry) :
    (slots offset entries).length = 2 * entries.length := by
  induction entries generalizing offset with
  | nil => rfl
  | cons e rest ih =>
    simp only [slots, List.length_append, length_bytes16, ih, List.length_cons]
    omega

theorem slots_append (offset : Nat) (before after : List Entry) :
    slots offset (before ++ after) = slots offset before ++ slots (offset + (buffer before).length) after := by
  induction before generalizing offset with
  | nil => simp [slots, buffer]
  | cons e rest ih => simp [slots, buffer, ih, Nat.add_assoc]

/-- A number below 2^15 is stored in a slot as it is. -/
theorem slot_of_small {offset : Nat} (h : offset ≤ 0x7fff) :
    ¬ Int16.ofNat offset < 0 ∧ (Int16.ofNat offset).toUInt16.toNat = offset := by
  have hlt : offset < 2 ^ 15 := by omega
  refine ⟨?_, ?_⟩
  · rw [Int16.lt_iff_toInt_lt, Int16.toInt_ofNat_of_lt hlt]
    simp
  · simp
    omega

/-! ## One entry among the others -/

section

variable {before after : List Entry} {e : Entry} {base : Nat}

/-- The entry's slot stands after the slots before it, and leads past the parts of the buffer before its own. -/
theorem readable_slot (hbase : base + (contents (before ++ e :: after)).length < addressSpace) :
    (image base (before ++ e :: after)).Readable (base + 2 * before.length)
      (bytes16 (e.slot (buffer before).length)) := by
  have hbytes : (image base (before ++ e :: after)).bytes.toList =
      slots 0 before ++ bytes16 (e.slot (buffer before).length) ++
        (slots ((buffer before).length + e.bytes.length) after ++ buffer (before ++ e :: after)) := by
    simp [image, contents, slots_append, slots]
  have h := Image.readable_of_eq hbytes hbase
  rwa [length_slots] at h

/-- The entry's part of the buffer stands where its slot leads. -/
theorem readable_part (hbase : base + (contents (before ++ e :: after)).length < addressSpace) :
    (image base (before ++ e :: after)).Readable
      (base + 2 * (before ++ e :: after).length + (buffer before).length) e.bytes := by
  have hbytes : (image base (before ++ e :: after)).bytes.toList =
      (slots 0 (before ++ e :: after) ++ buffer before) ++ e.bytes ++ buffer after := by
    simp [image, contents, buffer]
  have h := Image.readable_of_eq hbytes hbase
  rwa [List.length_append, length_slots, ← Nat.add_assoc] at h

/-- The slot of an entry resolves to what the entry stands for. -/
theorem resolve_entry {limit : Nat} (hbase : base + (contents (before ++ e :: after)).length < addressSpace)
    (hindex : 2 * before.length ≤ Numeral.greatestSigned) (hfits : e.Fits limit)
    (hoffset : ∀ t, e = .tree t → (buffer before).length ≤ 0x7fff) (c : Cursor) :
    ∃ c', SlotTable.resolve (image base (before ++ e :: after)) (table base (before ++ e :: after)) limit
      before.length c = (.ok e.expr, c') := by
  have hslot := readable_slot hbase
  cases e with
  | marker value => exact SlotTable.resolve_of_negative rfl rfl hindex hslot hfits c
  | tree t =>
    obtain ⟨hpositive, hvalue⟩ := slot_of_small (hoffset t rfl)
    have htree := readable_part hbase
    refine SlotTable.resolve_of_readable rfl rfl hindex hslot hpositive hfits.1 hfits.2 ?_ c
    rwa [slot, hvalue]

end

/-! ## Main theorem -/

/-- Every slot of a laid-out table resolves to what its entry stands for: the tree, or the absent node for a
marker. The trees' parts of the buffer begin at offsets that a slot can hold without a sign, and the bytes have
addresses wherever they are mapped. -/
theorem resolveRange_layout {entries : List Entry} {limit : Nat} (hfits : ∀ e ∈ entries, e.Fits limit)
    (hoffsets : ∀ before t after, entries = before ++ .tree t :: after → (buffer before).length ≤ 0x7fff)
    (hsize : (contents entries).length ≤ Image.greatestSize) {base : Nat}
    (hbase : base + (contents entries).length ≤ Numeral.greatestWord) (c : Cursor) :
    (SlotTable.resolveRange (image base entries) (table base entries) limit 0 entries.length c).1 =
      .ok (entries.map expr).toArray := by
  have hspace : base + (contents entries).length < addressSpace := Nat.lt_succ_of_le hbase
  have hslots : 2 * entries.length ≤ Numeral.greatestSigned := by
    rw [contents, List.length_append, length_slots] at hsize
    exact Nat.le_trans (Nat.le_add_right _ _) hsize
  have heach : ∀ before a after, entries.map expr = before ++ a :: after → ∀ c, ∃ c',
      SlotTable.resolve (image base entries) (table base entries) limit ((0 + before.length : Nat) : Int) c =
        (.ok a, c') := by
    intro before a after hmap c
    -- A split of what the entries stand for is a split of the entries, and with it of the bytes.
    obtain ⟨front, back, rfl, rfl, hback⟩ := List.map_eq_append_iff.1 hmap
    obtain ⟨e, rest, rfl, rfl, rfl⟩ := List.map_eq_cons_iff.1 hback
    rw [Nat.zero_add, List.length_map]
    refine resolve_entry hspace ?_ (hfits e (by simp)) ?_ c
    · rw [List.length_append] at hslots
      omega
    · rintro t rfl
      exact hoffsets front t rest rfl
  obtain ⟨c', hrun⟩ := SlotTable.resolveFrom_of_each heach #[] c
  rw [List.length_map, Array.empty_append] at hrun
  rw [SlotTable.resolveRange, Int.sub_zero, Int.toNat_natCast]
  exact congrArg Prod.fst hrun

/-- Two trees between two markers. -/
def sampleEntries : List Entry :=
  [.marker (-1), .tree sample, .tree (.var 0x08 0x20), .marker (-0x8000)]

/-- Mapped so that the last byte is right below the greatest address. -/
theorem resolveRange_layout_sample :
    (∀ e ∈ sampleEntries, e.Fits 2) ∧
      (∀ before t after, sampleEntries = before ++ .tree t :: after → (buffer before).length ≤ 0x7fff) ∧
      (contents sampleEntries).length ≤ Image.greatestSize ∧
      0xffffffffffffffcf + (contents sampleEntries).length ≤ Numeral.greatestWord ∧
      (SlotTable.resolveRange (image 0xffffffffffffffcf sampleEntries)
        ⟨some 0xffffffffffffffcf, some 0xffffffffffffffd7⟩ 2 0 4 ⟨0, #[], #[]⟩).1 =
        .ok #[.absent, sample, .var 0x08 0x20, .absent] := by
  have hfits : ∀ e ∈ sampleEntries, e.Fits 2 := by
    have hlow : (-1 : Int16) < 0 ∧ (-0x8000 : Int16) < 0 := by decide
    have hvar : (Expr.var 0x08 0x20).depth ≤ 2 + 1 := by
      rw [Expr.depth_eq_height]
      decide
    simp only [sampleEntries, List.forall_mem_cons]
    exact ⟨hlow.1, ⟨representable_sample, Nat.le_of_eq depth_sample⟩, ⟨.var _ _, hvar⟩, hlow.2, nofun⟩
  have hoffsets : ∀ before t after, sampleEntries = before ++ .tree t :: after →
      (buffer before).length ≤ 0x7fff := by
    intro before t after hsplit
    have hall : (buffer sampleEntries).length = 40 := by decide
    rw [hsplit, buffer, List.flatMap_append, List.length_append] at hall
    simp only [buffer]
    omega
  have hsize : (contents sampleEntries).length ≤ Image.greatestSize := by decide
  have hbase : 0xffffffffffffffcf + (contents sampleEntries).length ≤ Numeral.greatestWord := by decide
  exact ⟨hfits, hoffsets, hsize, hbase, resolveRange_layout hfits hoffsets hsize hbase ⟨0, #[], #[]⟩⟩

end Layout

end Correlation

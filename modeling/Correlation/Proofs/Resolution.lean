import Correlation.Proofs.Slots
/-!
# Resolving a slot

Which way resolving a slot goes, what comes out, and what is read on the way. The absent node comes out for want of a
buffer, of a table or of an index, or for a negative number in the slot, and never from the buffer; then the buffer is
not touched (`resolve_cases`).
-/

namespace Correlation

open Attempt Decoder Wire

/-- No bytes spell the absent node. -/
theorem Wire.decode_ne_absent (image : Image) (limit : Nat) (c : Cursor) : (decode image limit c).1 ≠ .ok .absent := by
  intro h
  obtain ⟨⟨hrep, -⟩, -⟩ := decode_eq_ok_iff.1 (Prod.ext h rfl : decode image limit c = (.ok .absent, _))
  cases hrep

namespace SlotTable

variable {image : Image} {table : SlotTable} {limit : Nat} {index : Int} {address : Nat} {v : Int16}

/-! ## Numbers in slots -/

/-- The slot has the address, and a cursor reads the number there. -/
def Holds (image : Image) (table : SlotTable) (index : Int) (address : Nat) (v : Int16) : Prop :=
  table.SlotAt index address ∧ (int16 image ⟨address, #[], #[]⟩).1 = .ok v

theorem slotOffset_of_holds (h : Holds image table index address v) (c : Cursor) :
    slotOffset image table index c =
      (.ok (if v < 0 then none else some v.toUInt16.toNat),
        { c with reads := c.reads.push ⟨address, slotSize⟩ }) := by
  rw [slotOffset_of_slotAt h.1, h.2]
  rfl

/-- A number that is not negative is the offset. -/
theorem slotOffset_of_toInt {offset : Nat} (h : Holds image table index address v) (hv : v.toInt = offset)
    (c : Cursor) :
    slotOffset image table index c =
      (.ok (some offset), { c with reads := c.reads.push ⟨address, slotSize⟩ }) := by
  have hnonneg : ¬ v < 0 := by
    rw [Int16.lt_iff_toInt_lt, hv]
    simp
  have hoffset : v.toUInt16.toNat = offset := by
    have hbits : v.toBitVec.toInt = offset := hv
    have hlt := v.toBitVec.isLt
    show v.toBitVec.toNat = offset
    rw [BitVec.toInt_eq_toNat_cond] at hbits
    split at hbits <;> omega
  rw [slotOffset_of_holds h, if_neg hnonneg, hoffset]

theorem slotAt_unique {address' : Nat} (h : table.SlotAt index address) (h' : table.SlotAt index address') :
    address = address' := by
  obtain ⟨base, hslots, -, -, haddress, -⟩ := h
  obtain ⟨base', hslots', -, -, haddress', -⟩ := h'
  obtain rfl := Option.some.inj (hslots.symm.trans hslots')
  omega

/-- A slot that holds nothing has no address, or its bytes cannot be read there. -/
theorem slotOffset_of_not_holds {base : Nat} (hslots : table.slots = some base) (hindex : 0 ≤ index)
    (h : ∀ address v, ¬ Holds image table index address v) (c : Cursor) :
    ∃ e c', slotOffset image table index c = (.error e, c') ∧
      ((∀ address, ¬ table.SlotAt index address) → c'.reads = c.reads) ∧
      ∀ address, table.SlotAt index address → c'.reads = c.reads.push ⟨address, slotSize⟩ := by
  by_cases hslot : ∃ address, table.SlotAt index address
  · obtain ⟨address, hslot⟩ := hslot
    match hread : (int16 image ⟨address, #[], #[]⟩).1 with
    | .ok v => exact absurd ⟨hslot, hread⟩ (h address v)
    | .error e =>
      have hrun : slotOffset image table index c = _ := slotOffset_of_slotAt hslot c
      rw [hread] at hrun
      refine ⟨e, _, hrun, fun hnone => absurd hslot (hnone address), ?_⟩
      intro address' hslot'
      rw [slotAt_unique hslot' hslot]
  · have hnone : ∀ address, ¬ table.SlotAt index address := fun address haddress => hslot ⟨address, haddress⟩
    obtain ⟨e, hrun⟩ : ∃ e, slotOffset image table index c = (.error e, c) :=
      slotOffset_of_unaddressed hslots hindex hnone c
    exact ⟨e, c, hrun, fun _ => rfl, fun address haddress => absurd haddress (hnone address)⟩

/-! ## Ways to resolve a slot -/

section

variable {c c' : Cursor} {r : Except Failure Expr}

theorem untouched_of_resolve (hrun : resolve image table limit index c = (r, c'))
    (h : table.buffer = none ∨ table.slots = none ∨ index < 0) : r = .ok .absent ∧ c'.reads = c.reads := by
  cases hbuffer : table.buffer with
  | none =>
    rw [resolve_of_noBuffer hbuffer] at hrun
    cases hrun
    exact ⟨rfl, rfl⟩
  | some buffer =>
    have hslot : table.slots = none ∨ index < 0 := h.resolve_left (by simp [hbuffer])
    rw [resolve_of_none hbuffer (slotOffset_of_none hslot c)] at hrun
    cases hrun
    exact ⟨rfl, rfl⟩

variable {buffer : Nat}

theorem empty_of_resolve (hrun : resolve image table limit index c = (r, c')) (hbuffer : table.buffer = some buffer)
    (h : Holds image table index address v) (hv : v < 0) :
    r = .ok .absent ∧ c'.reads = c.reads.push ⟨address, slotSize⟩ := by
  have hslot := slotOffset_of_holds h c
  rw [if_pos hv] at hslot
  rw [resolve_of_none hbuffer hslot] at hrun
  cases hrun
  exact ⟨rfl, rfl⟩

theorem decoded_of_resolve {offset : Nat} (hrun : resolve image table limit index c = (r, c'))
    (hbuffer : table.buffer = some buffer) (h : Holds image table index address v) (hv : v.toInt = offset)
    (hspace : buffer + offset ≤ Numeral.greatestWord) :
    r = (decode image limit ⟨buffer + offset, #[], #[]⟩).1 ∧
      c'.reads =
        c.reads.push ⟨address, slotSize⟩ ++ (decode image limit ⟨buffer + offset, #[], #[]⟩).2.reads := by
  have hforgetful : Forgetful (decode image limit) := (stepwise_descend image limit (limit + 1)).forgetful
  rw [resolve_of_offset hbuffer (Nat.lt_succ_of_le hspace) (slotOffset_of_toInt h hv c),
    hforgetful.atAddress_eq] at hrun
  cases hrun
  exact ⟨rfl, rfl⟩

theorem overflow_of_resolve {offset : Nat} (hrun : resolve image table limit index c = (r, c'))
    (hbuffer : table.buffer = some buffer) (h : Holds image table index address v) (hv : v.toInt = offset)
    (hspace : Numeral.greatestWord < buffer + offset) :
    r = .error (.addressOverflow buffer offset) ∧ c'.reads = c.reads.push ⟨address, slotSize⟩ := by
  rw [resolve_of_overflow hbuffer hspace (slotOffset_of_toInt h hv c)] at hrun
  cases hrun
  exact ⟨rfl, rfl⟩

theorem refused_of_resolve {base : Nat} (hrun : resolve image table limit index c = (r, c'))
    (hbuffer : table.buffer = some buffer) (hslots : table.slots = some base) (hindex : 0 ≤ index)
    (h : ∀ address v, ¬ Holds image table index address v) :
    ∃ e, (slotOffset image table index c).1 = .error e ∧ r = .error e ∧
      ((∀ address, ¬ table.SlotAt index address) → c'.reads = c.reads) ∧
      ∀ address, table.SlotAt index address → c'.reads = c.reads.push ⟨address, slotSize⟩ := by
  obtain ⟨e, c₁, hslot, hreads⟩ := slotOffset_of_not_holds hslots hindex h c
  rw [resolve_of_error hbuffer hslot] at hrun
  cases hrun
  exact ⟨e, congrArg Prod.fst hslot, rfl, hreads⟩

/-- What is decoded from the buffer is never the absent node, so that there is another reason for it. -/
theorem resolve_eq_absent_iff (hrun : resolve image table limit index c = (r, c')) :
    r = .ok .absent ↔ table.buffer = none ∨ table.slots = none ∨ index < 0 ∨
      ∃ address v, Holds image table index address v ∧ v < 0 := by
  rcases hbuffer : table.buffer with _ | buffer
  · simp [(untouched_of_resolve hrun (.inl hbuffer)).1]
  rcases hslots : table.slots with _ | base
  · simp [(untouched_of_resolve hrun (.inr (.inl hslots))).1]
  rcases Int.lt_or_le index 0 with hindex | hindex
  · simp [(untouched_of_resolve hrun (.inr (.inr hindex))).1, hindex]
  have hnonneg : ¬ index < 0 := Int.not_lt.2 hindex
  simp only [reduceCtorEq, hnonneg, false_or]
  constructor
  · rintro rfl
    by_cases hholds : ∃ address v, Holds image table index address v
    · obtain ⟨address, v, hholds⟩ := hholds
      refine ⟨address, v, hholds, ?_⟩
      rw [Int16.lt_iff_toInt_lt]
      refine Int.lt_of_not_ge fun hv => ?_
      obtain ⟨offset, hoffset⟩ := Int.eq_ofNat_of_zero_le hv
      rcases Nat.lt_or_ge Numeral.greatestWord (buffer + offset) with hspace | hspace
      · exact absurd (overflow_of_resolve hrun hbuffer hholds hoffset hspace).1 nofun
      · exact decode_ne_absent _ _ _ (decoded_of_resolve hrun hbuffer hholds hoffset hspace).1.symm
    · obtain ⟨e, -, he, -⟩ :=
        refused_of_resolve hrun hbuffer hslots hindex fun address v h => hholds ⟨address, v, h⟩
      cases he
  · rintro ⟨address, v, hholds, hv⟩
    exact (empty_of_resolve hrun hbuffer hholds hv).1

end

/-! ## Main theorem -/

/-- A slot resolves to the absent node exactly for want of a buffer, of a table or of an index, and then nothing is
read, or when it holds a negative number, and then that number alone is read. Any other number in it leads to an
expression that is decoded from there, with all that is read for it, or, without another read, to an address that does
not exist. A slot that holds no number fails as looking at it does, without another read. -/
theorem resolve_cases (image : Image) (table : SlotTable) (limit : Nat) (index : Int) (c : Cursor) :
    ∃ r c', resolve image table limit index c = (r, c') ∧
      (r = .ok .absent ↔ table.buffer = none ∨ table.slots = none ∨ index < 0 ∨
        ∃ address v, Holds image table index address v ∧ v < 0) ∧
      (table.buffer = none ∨ table.slots = none ∨ index < 0 → c'.reads = c.reads) ∧
      ∀ buffer base, table.buffer = some buffer → table.slots = some base → 0 ≤ index →
        (∀ address v, Holds image table index address v →
          (v < 0 → c'.reads = c.reads.push ⟨address, slotSize⟩) ∧
          ∀ offset : Nat, v.toInt = offset →
            (buffer + offset ≤ Numeral.greatestWord →
              r = (decode image limit ⟨buffer + offset, #[], #[]⟩).1 ∧
              c'.reads = c.reads.push ⟨address, slotSize⟩ ++
                (decode image limit ⟨buffer + offset, #[], #[]⟩).2.reads) ∧
            (Numeral.greatestWord < buffer + offset →
              r = .error (.addressOverflow buffer offset) ∧ c'.reads = c.reads.push ⟨address, slotSize⟩)) ∧
        ((∀ address v, ¬ Holds image table index address v) →
          ∃ e, (slotOffset image table index c).1 = .error e ∧ r = .error e ∧
            ((∀ address, ¬ table.SlotAt index address) → c'.reads = c.reads) ∧
            ∀ address, table.SlotAt index address → c'.reads = c.reads.push ⟨address, slotSize⟩) := by
  obtain ⟨r, c', hrun⟩ : ∃ r c', resolve image table limit index c = (r, c') := ⟨_, _, rfl⟩
  refine ⟨r, c', hrun, resolve_eq_absent_iff hrun, fun h => (untouched_of_resolve hrun h).2, ?_⟩
  intro buffer base hbuffer hslots hindex
  refine ⟨fun address v hholds => ⟨?_, fun offset hv => ⟨?_, ?_⟩⟩, refused_of_resolve hrun hbuffer hslots hindex⟩
  · intro hv
    exact (empty_of_resolve hrun hbuffer hholds hv).2
  · exact decoded_of_resolve hrun hbuffer hholds hv
  · exact overflow_of_resolve hrun hbuffer hholds hv

theorem resolve_cases_sample :
    Holds nearSlots ⟨some 0, some 4⟩ 0 0 0 ∧ Holds nearSlots ⟨some 0, some 4⟩ 1 2 (-1) ∧
      (resolve nearSlots ⟨some 0, some 4⟩ 128 0 ⟨0, #[], #[]⟩).1 = (decode nearSlots 128 ⟨4, #[], #[]⟩).1 ∧
      (resolve nearSlots ⟨some 0, some 4⟩ 128 0 ⟨0, #[], #[]⟩).2.reads =
        #[⟨0, 2⟩] ++ (decode nearSlots 128 ⟨4, #[], #[]⟩).2.reads ∧
      (resolve nearSlots ⟨some 0, some 4⟩ 128 1 ⟨0, #[], #[]⟩).1 = .ok .absent ∧
      (resolve nearSlots ⟨some 0, some 4⟩ 128 1 ⟨0, #[], #[]⟩).2.reads = #[⟨2, 2⟩] := by
  have hfirst : Holds nearSlots ⟨some 0, some 4⟩ 0 0 0 :=
    ⟨⟨0, rfl, by decide, by decide, rfl, by decide⟩, by decide⟩
  have hsecond : Holds nearSlots ⟨some 0, some 4⟩ 1 2 (-1) :=
    ⟨⟨0, rfl, by decide, by decide, rfl, by decide⟩, by decide⟩
  obtain ⟨r, c, hrun, -, -, hslot⟩ := resolve_cases nearSlots ⟨some 0, some 4⟩ 128 0 ⟨0, #[], #[]⟩
  obtain ⟨r', c', hrun', habsent, -, hslot'⟩ := resolve_cases nearSlots ⟨some 0, some 4⟩ 128 1 ⟨0, #[], #[]⟩
  have hdecoded := (((hslot 4 0 rfl rfl (by decide)).1 0 0 hfirst).2 0 rfl).1 (by decide)
  have hempty := ((hslot' 4 0 rfl rfl (by decide)).1 2 (-1) hsecond).1 (by decide)
  rw [hrun, hrun']
  exact ⟨hfirst, hsecond, hdecoded.1, hdecoded.2,
    habsent.2 (.inr (.inr (.inr ⟨2, -1, hsecond, by decide⟩))), hempty⟩

end SlotTable

end Correlation

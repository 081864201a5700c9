import Correlation.Proofs.Printing
/-!
# A run for one slot

The one slot that a run is asked for is the range from it to the next one. It is answered, with its tree or with its
failure, if there is a next one (`run_of_slot`). The greatest index has none: the run succeeds and has printed nothing,
whatever the slot resolves to (`greatest_slot_unanswered`).
-/

namespace Correlation

namespace Dump

open SlotTable (answer Resolves)

variable {world : World} {o : Options} {image : Image} {table : SlotTable} {limit : Nat} {index : Int}

/-- One slot resolves, or fails. -/
theorem resolves_one (image : Image) (table : SlotTable) (limit : Nat) (index : Int) :
    (∃ f, answer image table limit index = .error f ∧ Resolves image table limit index 1 [] (some f)) ∨
      ∃ e, answer image table limit index = .ok e ∧ Resolves image table limit index 1 [e] none := by
  match hanswer : answer image table limit index with
  | .error f => exact .inl ⟨f, rfl, .failed 0 hanswer⟩
  | .ok e => exact .inr ⟨e, rfl, .next hanswer (.done _)⟩

/-! ## Main theorem -/

/-- A run for one slot fails as the slot does, with nothing printed, or prints the block of the slot's tree and nothing
else. For the greatest index it prints nothing and succeeds. -/
theorem run_of_slot (h : Lists world o image table limit) (hslot : o.slot = some index)
    (hindex : index ≤ greatestIndex) :
    (index < greatestIndex →
      (∃ f, answer image table limit index = .error f ∧
        (run world o).output = "" ∧ (run world o).fault = some (.undecodable f)) ∨
      ∃ e, answer image table limit index = .ok e ∧
        (run world o).output = block index e ∧ (run world o).fault = none) ∧
    (index = greatestIndex → (run world o).output = "" ∧ (run world o).fault = none) := by
  constructor
  · intro hnext
    rcases resolves_one image table limit index with ⟨f, hanswer, hfails⟩ | ⟨e, hanswer, htree⟩
    · exact .inl ⟨f, hanswer, h.run_of_one hslot hnext hfails⟩
    · obtain ⟨houtput, hfault⟩ := h.run_of_one hslot hnext htree
      exact .inr ⟨e, hanswer, by simpa [blocks] using houtput, hfault⟩
  · -- The range to the next index is cut off at the greatest one, and so is empty.
    rintro rfl
    have hselected : selectedSlots o = (greatestIndex, greatestIndex) := by
      simp only [selectedSlots, hslot]
      rw [Int.min_eq_right (by omega)]
    have hcount : (greatestIndex - greatestIndex).toNat = 0 := by omega
    have hnone : Resolves image table limit greatestIndex 0 [] none := .done _
    rw [← hcount] at hnone
    exact h.run_of_resolves hselected hnone

theorem run_of_slot_sample :
    Lists (imageOnly fourSlots) { firstSlots 1 with slot := some 1 } fourSlots ⟨some 0, some 8⟩
        Wire.defaultDepthLimit ∧
      1 < greatestIndex ∧
      answer fourSlots ⟨some 0, some 8⟩ Wire.defaultDepthLimit 1 = .ok (.var 8 0x20) ∧
      (run (imageOnly fourSlots) { firstSlots 1 with slot := some 1 }).output = block 1 (.var 8 0x20) ∧
      (run (imageOnly fourSlots) { firstSlots 1 with slot := some 1 }).fault = none := by
  have hlists : Lists (imageOnly fourSlots) { firstSlots 1 with slot := some 1 } fourSlots ⟨some 0, some 8⟩
      Wire.defaultDepthLimit := lists_fourSlots 1 (some 8) (some 1)
  have hnext : 1 < greatestIndex := by decide
  have hanswer : answer fourSlots ⟨some 0, some 8⟩ Wire.defaultDepthLimit 1 = .ok (.var 8 0x20) := by decide +kernel
  refine ⟨hlists, hnext, hanswer, ?_⟩
  rcases (run_of_slot hlists rfl (Int.le_of_lt hnext)).1 hnext with ⟨f, hfails, -⟩ | ⟨e, htree, hrun⟩
  · exact absurd (hanswer.symm.trans hfails) nofun
  · obtain rfl := Except.ok.inj (hanswer.symm.trans htree)
    exact hrun

/-- A run for the slot of the greatest index of a table without a buffer. -/
def greatestSlot : Options :=
  { firstSlots 1 with buffer := none, slot := some greatestIndex }

/-- The slot resolves to the absent node, of which the run for it prints no block. -/
theorem greatest_slot_unanswered :
    Lists (imageOnly fourSlots) greatestSlot fourSlots ⟨some 0, none⟩ Wire.defaultDepthLimit ∧
      answer fourSlots ⟨some 0, none⟩ Wire.defaultDepthLimit greatestIndex = .ok .absent ∧
      (run (imageOnly fourSlots) greatestSlot).fault = none ∧
      (run (imageOnly fourSlots) greatestSlot).output = "" ∧
      (run (imageOnly fourSlots) greatestSlot).output ≠ block greatestIndex .absent := by
  refine ⟨lists_fourSlots 1 none (some greatestIndex), rfl, ?_, ?_, ?_⟩
  · decide +kernel
  · decide +kernel
  · decide +kernel

end Dump

end Correlation

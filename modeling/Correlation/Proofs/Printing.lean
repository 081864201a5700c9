import Correlation.Dump.Run
import Correlation.Proofs.Ranges
/-!
# Printed tables

Printing slots one after the other and collecting them go by the same trees: a run prints those in front of the first
slot that fails, and fails with it (`run_of_count`).
-/

namespace Correlation

open Attempt Decoder

namespace Dump

open SlotTable (answer Resolves)

variable {image : Image} {table : SlotTable} {limit : Nat}

/-! ## What is printed -/

/-- What is printed for a slot. -/
def block (index : Int) (e : Expr) : String :=
  s!"slot {Numeral.signed index}:\n" ++ e.render

/-- What is printed for slots in a row. -/
def blocks (index : Int) : List Expr → String
  | [] => ""
  | e :: rest => block index e ++ blocks (index + 1) rest

/-- Decoding prints nothing, and what comes out does not depend on what was printed and noted before. -/
theorem decode_apply {α : Type} (address : Nat) (d : Decoder α) (t : Transcript) :
    ∃ notices, Task.decode address d t =
      ((d ⟨address, #[], #[]⟩).1.mapError .undecodable, ⟨t.output, notices⟩) :=
  ⟨_, rfl⟩

theorem decode_resolve (image : Image) (table : SlotTable) (limit : Nat) (index : Int) (t : Transcript) :
    ∃ notices, Task.decode 0 (table.resolve image limit index) t =
      ((answer image table limit index).mapError .undecodable, ⟨t.output, notices⟩) :=
  decode_apply 0 _ t

/-- What is printed are the trees that come before the first failure, and the failure ends it. -/
theorem printSlots_of_resolves {index : Int} {count : Nat} {es : List Expr} {stop : Option Failure}
    (h : Resolves image table limit index count es stop) (t : Transcript) :
    ∃ notices, printSlots image table limit index count t =
      (stop.elim (.ok ()) fun f => .error (.undecodable f), ⟨t.output ++ blocks index es, notices⟩) := by
  induction h generalizing t with
  | done index => exact ⟨t.notices, by simp [printSlots, blocks]⟩
  | @failed index f count hfirst =>
    obtain ⟨notices, hrun⟩ := decode_resolve image table limit index t
    rw [hfirst] at hrun
    refine ⟨notices, ?_⟩
    rw [printSlots, bind_of_error hrun, blocks, String.append_empty]
    rfl
  | @next index e count es stop hfirst _ ih =>
    obtain ⟨notices, hrun⟩ := decode_resolve image table limit index t
    rw [hfirst] at hrun
    obtain ⟨notices, hrest⟩ := ih ⟨t.output ++ block index e, notices⟩
    refine ⟨notices, ?_⟩
    rw [printSlots, bind_of_ok hrun, blocks, ← String.append_assoc]
    exact hrest

/-! ## Runs -/

/-- Loading settings prints nothing. -/
theorem output_settings (world : World) (named : Option String) (t : Transcript) :
    (settings world named t).2.output = t.output := by
  have hload : ∀ path t, (loadSettings world path t).2 = t := by
    intro path t
    rw [loadSettings, Task.read]
    cases (world.find path).text with
    | error e => rfl
    | ok text =>
      show (ofExcept (parseSettings path text) t : _ × Transcript).2 = t
      cases parseSettings path text <;> rfl
  unfold settings
  cases named with
  | some path => exact congrArg Transcript.output (hload path t)
  | none =>
    simp only
    split
    · have hnote : Task.note (.readingSettings (defaultSettingsPath world.env)) t =
          (.ok (), ⟨t.output, t.notices.push (.readingSettings (defaultSettingsPath world.env))⟩) := rfl
      rw [bind_of_ok hnote, hload]
    · rfl

/-- The options ask for slots of a table, and settings and image are there. -/
structure Lists (world : World) (o : Options) (image : Image) (table : SlotTable) (limit : Nat) : Prop where
  configured : ∃ s, (settings world o.config {}).1 = .ok s ∧ limit = o.depthLimit.getD s.depthLimit
  image : image.base = o.base ∧ (world.find o.input).bytes = .ok image.bytes
  address : o.address = none
  slots : ∃ base, o.table = some base ∧ table.slots = some base
  buffer : table.buffer = o.buffer

variable {world : World} {o : Options}

/-- With everything there, a run is the printing of the slots that are asked for. -/
theorem Lists.program_eq (h : Lists world o image table limit) :
    ∃ t : Transcript, t.output = "" ∧ program world o {} =
      printSlots image table limit (selectedSlots o).1 ((selectedSlots o).2 - (selectedSlots o).1).toNat t := by
  obtain ⟨⟨s, hsettings, rfl⟩, ⟨hbase, hbytes⟩, haddress, ⟨base, htable, hslots⟩, hbuffer⟩ := h
  have houtput := output_settings world o.config {}
  match hrun : settings world o.config {} with
  | (result, t) =>
    rw [hrun] at hsettings houtput
    obtain rfl : result = .ok s := hsettings
    have himage : (⟨o.base, image.bytes⟩ : Image) = image := by rw [← hbase]
    have hfound : (⟨some base, o.buffer⟩ : SlotTable) = table := by rw [← hslots, ← hbuffer]
    have hread : ∀ t, Task.read o.input (world.find o.input).bytes t = (.ok image.bytes, t) := by
      intro t
      rw [Task.read, hbytes]
      rfl
    let t' : Transcript := ⟨t.output, t.notices.push (.loaded image.bytes.size o.input o.base)⟩
    have hnote : Task.note (.loaded image.bytes.size o.input o.base) t = (.ok (), t') := rfl
    rw [program, bind_of_ok hrun, bind_of_ok (hread t), bind_of_ok hnote, himage, printImage]
    simp only [haddress, htable, hfound]
    cases hsome : o.buffer.isNone with
    | true => exact ⟨⟨t.output, t'.notices.push .noBuffer⟩, houtput, rfl⟩
    | false => exact ⟨t', houtput, rfl⟩

theorem Lists.run_of_resolves (h : Lists world o image table limit) {first last : Int}
    (hselected : selectedSlots o = (first, last)) {es : List Expr} {stop : Option Failure}
    (hes : Resolves image table limit first (last - first).toNat es stop) :
    (run world o).output = blocks first es ∧ (run world o).fault = stop.map .undecodable := by
  obtain ⟨t, houtput, hprogram⟩ := h.program_eq
  rw [hselected] at hprogram
  obtain ⟨notices, hrun⟩ := printSlots_of_resolves hes t
  rw [houtput, String.empty_append, ← hprogram] at hrun
  cases stop with
  | none =>
    have hdone : program world o {} = (.ok (), _) := hrun
    simp [run, hdone]
  | some f =>
    have hfailed : program world o {} = (.error (.undecodable f), _) := hrun
    simp [run, hfailed]

/-- One slot is the range up to the next index, if there is one. -/
theorem Lists.run_of_one (h : Lists world o image table limit) {index : Int} (hslot : o.slot = some index)
    (hnext : index < greatestIndex) {es : List Expr} {stop : Option Failure}
    (hes : Resolves image table limit index 1 es stop) :
    (run world o).output = blocks index es ∧ (run world o).fault = stop.map .undecodable := by
  have hselected : selectedSlots o = (index, index + 1) := by
    simp only [selectedSlots, hslot]
    rw [Int.min_eq_left (Int.add_one_le_of_lt hnext)]
  have hcount : (index + 1 - index).toNat = 1 := by omega
  rw [← hcount] at hes
  exact h.run_of_resolves hselected hes

/-! ## Main theorem -/

/-- The blocks of a run over the first slots are those of the trees in front of the first slot that fails, whose
failure ends the run; a run for one of those slots alone prints its block. Collecting the same slots succeeds exactly
when the run does, and with the printed trees. -/
theorem run_of_count (h : Lists world o image table limit) (hslot : o.slot = none) (hcount : o.count ≤ greatestIndex)
    (c : Cursor) :
    ∃ es : List Expr,
      (∀ i (hi : i < es.length), answer image table limit i = .ok es[i]) ∧
      (run world o).output = blocks 0 es ∧
      (es.length = o.count.toNat ∧ (run world o).fault = none ∨
        ∃ f, es.length < o.count.toNat ∧ answer image table limit es.length = .error f ∧
          (run world o).fault = some (.undecodable f)) ∧
      (∀ found, (table.resolveRange image limit 0 o.count c).1 = .ok found ↔
        (run world o).fault = none ∧ found = es.toArray) ∧
      ∀ i (hi : i < es.length) count,
        (run world { o with slot := some (i : Int), count }).output = block i es[i] ∧
          (run world { o with slot := some (i : Int), count }).fault = none := by
  have hselected : selectedSlots o = (0, o.count) := by simp only [selectedSlots, hslot]
  obtain ⟨es, stop, hes⟩ := SlotTable.exists_resolves image table limit 0 o.count.toNat
  obtain ⟨houtput, hfault⟩ := h.run_of_resolves hselected (by rwa [Int.sub_zero])
  have htrees : ∀ i (hi : i < es.length), answer image table limit i = .ok es[i] := by
    intro i hi
    have hanswer := hes.answer_getElem hi
    rwa [Int.zero_add] at hanswer
  refine ⟨es, htrees, houtput, ?_, ?_, ?_⟩
  · rcases hes.ends with ⟨hlength, rfl⟩ | ⟨f, hlength, hanswer, rfl⟩
    · exact .inl ⟨hlength, hfault⟩
    · rw [Int.zero_add] at hanswer
      exact .inr ⟨f, hlength, hanswer, hfault⟩
  · intro found
    rw [SlotTable.resolveRange, Int.sub_zero, hes.resolveFrom_eq, hfault]
    cases stop <;> simp [eq_comm]
  · intro i hi count
    have hnext : (i : Int) < greatestIndex := by
      have hlength : es.length ≤ o.count.toNat := by
        rcases hes.ends with ⟨hlength, -⟩ | ⟨f, hlength, -⟩ <;> omega
      omega
    have hlists : Lists world { o with slot := some (i : Int), count } image table limit :=
      ⟨h.configured, h.image, h.address, h.slots, h.buffer⟩
    have htree : Resolves image table limit i 1 [es[i]] none := .next (htrees i hi) (.done _)
    simpa [blocks] using hlists.run_of_one rfl hnext htree

/-- An empty slot, one that leads to a variable, one that leads nowhere and an empty one, before the variable. -/
def fourSlots : Image :=
  .ofBytes #[0xff, 0xff, 0x00, 0x00, 0x10, 0x00, 0xff, 0xff, 0x03, 0x08, 0x20, 0x00]

/-- Nothing but an image. -/
def imageOnly (image : Image) : World where
  env _ := none
  find path := if path = "image" then .file image.bytes else .nothing

/-- The first slots of the table at the image's begin. -/
def firstSlots (count : Int) : Options :=
  { input := "image", table := some 0, buffer := some 8, count }

theorem lists_fourSlots (count : Int) (buffer : Option Nat) (slot : Option Int) :
    Lists (imageOnly fourSlots) { firstSlots count with buffer, slot } fourSlots ⟨some 0, buffer⟩
      Wire.defaultDepthLimit :=
  ⟨⟨{}, rfl, rfl⟩, ⟨rfl, rfl⟩, rfl, ⟨0, rfl, rfl⟩, rfl⟩

/-- Slot 2 fails, so the run stops behind two blocks, and the range cannot be collected. -/
theorem run_of_count_sample :
    Lists (imageOnly fourSlots) (firstSlots 4) fourSlots ⟨some 0, some 8⟩ Wire.defaultDepthLimit ∧
      (firstSlots 4).slot = none ∧ (firstSlots 4).count ≤ greatestIndex ∧
      (run (imageOnly fourSlots) (firstSlots 4)).output = blocks 0 [.absent, .var 8 0x20] ∧
      (run (imageOnly fourSlots) (firstSlots 4)).fault = some (.undecodable (.outOfBounds 0x18 1 12)) ∧
      (∀ found, (SlotTable.resolveRange fourSlots ⟨some 0, some 8⟩ Wire.defaultDepthLimit 0 4 ⟨0, #[], #[]⟩).1 ≠
        .ok found) ∧
      (run (imageOnly fourSlots) { firstSlots 4 with slot := some 1 }).output = block 1 (.var 8 0x20) := by
  have hlists : Lists (imageOnly fourSlots) (firstSlots 4) fourSlots ⟨some 0, some 8⟩ Wire.defaultDepthLimit :=
    lists_fourSlots 4 (some 8) none
  have hcount : (firstSlots 4).count ≤ greatestIndex := by decide
  have hfirst : answer fourSlots ⟨some 0, some 8⟩ Wire.defaultDepthLimit 0 = .ok .absent := by decide +kernel
  have hsecond : answer fourSlots ⟨some 0, some 8⟩ Wire.defaultDepthLimit 1 = .ok (.var 8 0x20) := by decide +kernel
  have hthird : answer fourSlots ⟨some 0, some 8⟩ Wire.defaultDepthLimit 2 = .error (.outOfBounds 0x18 1 12) := by
    decide +kernel
  obtain ⟨es, htrees, houtput, hend, hrange, hsingle⟩ := run_of_count hlists rfl hcount ⟨0, #[], #[]⟩
  -- No tree is printed for the third slot, and the failure that ends the run is of no slot before it.
  have htwo : es.length = 2 := by
    refine Nat.le_antisymm (Nat.le_of_not_lt fun hlong => ?_) (Nat.le_of_not_lt fun hshort => ?_)
    · exact absurd (hthird.symm.trans (htrees 2 hlong)) nofun
    · rcases hend with ⟨hlength, -⟩ | ⟨f, -, hfails, -⟩
      · rw [hlength] at hshort
        exact absurd hshort (by decide)
      · obtain hzero | hone : es.length = 0 ∨ es.length = 1 := by omega
        · rw [hzero] at hfails
          exact absurd (hfirst.symm.trans hfails) nofun
        · rw [hone] at hfails
          exact absurd (hsecond.symm.trans hfails) nofun
  obtain rfl : es = [.absent, .var 8 0x20] := by
    match es, htwo, htrees with
    | [a, b], _, htrees =>
      obtain rfl : Expr.absent = a := Except.ok.inj (hfirst.symm.trans (htrees 0 (by simp)))
      obtain rfl : Expr.var 8 0x20 = b := Except.ok.inj (hsecond.symm.trans (htrees 1 (by simp)))
      rfl
  have hfault : (run (imageOnly fourSlots) (firstSlots 4)).fault = some (.undecodable (.outOfBounds 0x18 1 12)) := by
    decide +kernel
  refine ⟨hlists, rfl, hcount, houtput, hfault, ?_, (hsingle 1 (by decide) 4).1⟩
  intro found hfound
  have hnone := ((hrange found).1 hfound).1
  rw [hfault] at hnone
  cases hnone

end Dump

end Correlation

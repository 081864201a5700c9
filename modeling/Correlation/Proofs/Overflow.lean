import Correlation.Proofs.Slots
import Correlation.Proofs.Stepwise
/-!
# Reported overflows

An overflow names a base and an offset, and says that they add up to no address. That is so wherever a cursor moves
and wherever a base is displaced. The one exception is a slot so far out that its distance from the table is no
signed number: what is reported then is its index, which can be an address when added to the base
(`truthful_overflow`). All this holds of any source that reports no false overflow of its own, and images report none.
-/

namespace Correlation

open Attempt Decoder Wire

/-- An overflow names a base and an offset that add up to no address. -/
def Failure.Truthful (e : Failure) : Prop :=
  ∀ base offset, e = addressOverflow base offset → addressSpace ≤ base + offset

open Failure (NoOverflow Truthful)

theorem Failure.NoOverflow.truthful {e : Failure} (h : e.NoOverflow) : e.Truthful :=
  fun base offset hoverflow => absurd hoverflow (h base offset)

/-- The source reports no false overflow of its own. -/
def Source.Truthful (source : Source) : Prop :=
  ∀ before asked e, source.answer before asked = .error e → e.Truthful

/-- An image fails for missing bytes alone. -/
theorem Source.truthful_ofImage (image : Image) : Source.Truthful image := by
  intro before asked e h
  have hread : image.read asked.address asked.size = .error e := by
    rw [← answer_ofImage image before asked, h]
    rfl
  rw [Image.outOfBounds_of_read hread]
  exact nofun

namespace Decoder

variable {α β : Type} {P : Failure → Prop}

/-- All failures of the decoder satisfy `P`. -/
def FailsWith (P : Failure → Prop) (d : Decoder α) : Prop :=
  ∀ c e, (d c).1 = .error e → P e

/-! ## Failures of composed decoders -/

theorem failsWith_pure (a : α) : FailsWith P (pure a : Decoder α) :=
  nofun

theorem failsWith_fail {e : Failure} (h : P e) : FailsWith P (fail e : Decoder α) := by
  rintro c _ ⟨⟩
  exact h

theorem failsWith_ofExcept {r : Except Failure α} (h : ∀ e, r = .error e → P e) :
    FailsWith P (ofExcept r : Decoder α) := by
  cases r with
  | ok a => exact failsWith_pure a
  | error e => exact failsWith_fail (h e rfl)

theorem failsWith_note (e : Event) : FailsWith P (note e) :=
  nofun

theorem FailsWith.bind {x : Decoder α} {f : α → Decoder β} (hx : FailsWith P x) (hf : ∀ a, FailsWith P (f a)) :
    FailsWith P (x >>= f) := by
  intro c e h
  match hrun : x c with
  | (.ok a, c₁) =>
    rw [bind_of_ok hrun] at h
    exact hf a c₁ e h
  | (.error _, c₁) =>
    rw [bind_of_error hrun] at h
    cases h
    exact hx c e (congrArg Prod.fst hrun)

theorem FailsWith.atAddress {x : Decoder α} (hx : FailsWith P x) (address : Nat) :
    FailsWith P (atAddress address x) :=
  fun c => hx { c with position := address }

/-! ## Reads and nodes -/

/-- Decoding fails as its steps do and as its fields do. -/
theorem Stepwise.failsWith {source : Source} {fails : Failure → Prop} {d : Decoder α} (h : Stepwise source fails d)
    (hfails : ∀ e, fails e → P e) (htake : ∀ count, FailsWith P (Decoder.take source count)) : FailsWith P d := by
  induction h with
  | pure a => exact failsWith_pure a
  | fail he => exact failsWith_fail (hfails _ he)
  | position => exact nofun
  | note e => exact failsWith_note e
  | take count => exact htake count
  | bind _ _ hx hf => exact hx.bind hf

/-- A field fails as the source does, or because no address is behind it. -/
theorem truthful_take {source : Source} (hsource : source.Truthful) (count : Nat) :
    FailsWith Truthful (take source count) := by
  have hpeek : FailsWith Truthful (peek source count) := by
    intro c e h
    cases hanswer : source.answer c.reads ⟨c.position, count⟩ with
    | ok bytes =>
      rw [peek, hanswer] at h
      cases h
    | error f =>
      rw [peek, hanswer] at h
      obtain rfl : f = e := Except.error.inj h
      exact hsource _ _ _ hanswer
  have hskip : FailsWith Truthful (skip count) := by
    rintro c e h base offset rfl
    unfold skip at h
    split at h
    case isTrue => cases h
    case isFalse hspace =>
      cases h
      omega
  exact hpeek.bind fun bytes => hskip.bind fun _ => failsWith_pure bytes

theorem Stepwise.truthful {source : Source} (hsource : source.Truthful) {d : Decoder α}
    (h : Stepwise source NoOverflow d) : FailsWith Truthful d :=
  h.failsWith (fun _ he => he.truthful) (truthful_take hsource)

end Decoder

namespace SlotTable

variable {source : Source} {table : SlotTable} {limit : Nat} {index : Int}

/-! ## Slots -/

/-- Slots and the buffer's parts lie behind their base, never before it. -/
theorem truthful_displace (base : Nat) {offset : Int} (hoffset : 0 ≤ offset) :
    FailsWith Truthful (ofExcept (displace base offset)) := by
  refine failsWith_ofExcept ?_
  rintro e h b o rfl
  unfold displace at h
  split at h
  case isTrue => cases h
  case isFalse hbounds =>
    cases h
    omega

/-- The distance of the slot from the table is a signed number, or already its index leads past the last address. -/
def InReach (table : SlotTable) (index : Int) : Prop :=
  ∀ base, table.slots = some base → index * slotSize ≤ greatestIndex ∨ addressSpace ≤ base + index

/-- A slot within reach is refused for its address only. -/
theorem truthful_slotOffset (hsource : source.Truthful) (h : table.InReach index) :
    FailsWith Truthful (slotOffset source table index) := by
  unfold slotOffset
  cases hslots : table.slots with
  | none => exact failsWith_pure none
  | some base =>
    simp only
    split
    case isTrue => exact failsWith_pure none
    case isFalse hindex =>
      split
      case isTrue hfar =>
        refine failsWith_fail ?_
        rintro _ _ ⟨⟩
        exact (h base hslots).resolve_left (Int.not_le.2 hfar)
      case isFalse =>
        have hdistance : 0 ≤ index * slotSize := by
          simp only [slotSize]
          omega
        refine (truthful_displace base hdistance).bind ?_
        intro address
        have hfield : FailsWith Truthful (int16 source) :=
          (Stepwise.of_straight (straight_field Nat.two_pos _)).truthful hsource
        exact (hfield.atAddress address).bind fun offset => failsWith_pure _

theorem truthful_slotOffset_iff (hsource : source.Truthful) :
    FailsWith Truthful (slotOffset source table index) ↔ table.InReach index := by
  refine ⟨fun h base hslots => ?_, truthful_slotOffset hsource⟩
  by_cases hnear : index * slotSize ≤ greatestIndex
  · exact .inl hnear
  · have hfailed := slotOffset_of_far source hslots (Int.not_le.1 hnear) ⟨0, #[], #[]⟩
    exact .inr (h _ _ (congrArg Prod.fst hfailed) base index rfl)

theorem truthful_resolve (hsource : source.Truthful) (h : table.InReach index) :
    FailsWith Truthful (resolve source table limit index) := by
  unfold resolve
  cases table.buffer with
  | none => exact failsWith_pure _
  | some buffer =>
    refine (truthful_slotOffset hsource h).bind ?_
    intro found
    cases found with
    | none => exact (failsWith_note _).bind fun _ => failsWith_pure _
    | some offset =>
      refine (truthful_displace buffer (Int.natCast_nonneg offset)).bind ?_
      intro address
      refine (failsWith_note _).bind ?_
      intro _
      exact ((stepwise_descend source limit (limit + 1)).truthful hsource).atAddress address

theorem truthful_resolve_iff (hsource : source.Truthful) :
    FailsWith Truthful (resolve source table limit index) ↔ table.buffer = none ∨ table.InReach index := by
  cases hbuffer : table.buffer with
  | none =>
    refine ⟨fun _ => .inl rfl, fun _ => ?_⟩
    simp only [resolve, hbuffer]
    exact failsWith_pure _
  | some buffer =>
    simp only [reduceCtorEq, false_or]
    refine ⟨fun h => ?_, truthful_resolve hsource⟩
    have hslot : FailsWith Truthful (slotOffset source table index) := by
      intro c e hfailed
      refine h c e ?_
      simp only [resolve, hbuffer]
      rw [bind_of_error (Prod.ext hfailed rfl)]
    exact (truthful_slotOffset_iff hsource).1 hslot

theorem truthful_resolveFrom (hsource : source.Truthful) {count : Nat}
    (h : ∀ i, index ≤ i → i < index + count → table.InReach i) (found : Array Expr) :
    FailsWith Truthful (resolveFrom source table limit found index count) := by
  induction count generalizing index found with
  | zero => exact failsWith_pure found
  | succ count ih =>
    refine (truthful_resolve hsource (h index (Int.le_refl _) (by omega))).bind ?_
    intro e
    exact ih (fun i hfrom hto => h i (by omega) (by omega)) (found.push e)

end SlotTable

/-! ## Main theorem -/

/-- Reading fields and decoding report an overflow only where base and offset add up to no address. Looking up a slot
and resolving it do so exactly for slots within reach, and resolving a range of such slots does so too. That is so in
every image, and in every other source that reports no false overflow of its own. -/
theorem truthful_overflow (limit : Nat) :
    (∀ image : Image, Source.Truthful image) ∧
    ∀ source : Source, source.Truthful →
      ((∀ count, FailsWith Truthful (take source count)) ∧
        FailsWith Truthful (uint8 source) ∧ FailsWith Truthful (int8 source) ∧ FailsWith Truthful (int16 source) ∧
        FailsWith Truthful (int32 source) ∧ FailsWith Truthful (int64 source)) ∧
      FailsWith Truthful (decode source limit) ∧
      ∀ table : SlotTable,
        (∀ index, FailsWith Truthful (table.slotOffset source index) ↔ table.InReach index) ∧
        (∀ index, FailsWith Truthful (table.resolve source limit index) ↔ table.buffer = none ∨ table.InReach index) ∧
        ∀ start stop, (∀ index, start ≤ index → index < stop → table.InReach index) →
          FailsWith Truthful (table.resolveRange source limit start stop) := by
  refine ⟨Source.truthful_ofImage, ?_⟩
  intro source hsource
  have hfield : ∀ {α : Type} {count : Nat} (f : List UInt8 → α), 0 < count →
      FailsWith Truthful (do return f (← take source count)) :=
    fun f hcount => (Stepwise.of_straight (straight_field hcount f)).truthful hsource
  refine ⟨⟨truthful_take hsource, ?_, ?_, ?_, ?_, ?_⟩,
    (stepwise_descend source limit (limit + 1)).truthful hsource, fun table => ?_⟩
  · exact hfield _ (by decide)
  · exact hfield _ (by decide)
  · exact hfield _ (by decide)
  · exact hfield _ (by decide)
  · exact hfield _ (by decide)
  · refine ⟨fun index => SlotTable.truthful_slotOffset_iff hsource,
      fun index => SlotTable.truthful_resolve_iff hsource, ?_⟩
    intro start stop h
    exact SlotTable.truthful_resolveFrom hsource (fun i hfrom hto => h i hfrom (by omega)) #[]

/-- Four empty slots, the last of which ends at the last address. -/
def lastSlots : Image :=
  ⟨0xfffffffffffffff8, #[0xff, 0xff, 0xff, 0xff, 0xff, 0xff, 0xff, 0xff]⟩

/-- The cursor cannot move past the last slot, and one that is far behind it is no address even before its index is
scaled. -/
theorem truthful_overflow_sample :
    Source.Truthful lastSlots ∧
      (∀ index : Int, 0 ≤ index → index < 5 → (⟨some 0xfffffffffffffff8, some 0⟩ : SlotTable).InReach index) ∧
      (SlotTable.resolveRange lastSlots ⟨some 0xfffffffffffffff8, some 0⟩ 128 0 5 ⟨0, #[], #[]⟩).1 =
        .error (.addressOverflow 0xfffffffffffffffe 2) ∧
      (addressSpace : Int) ≤ (0xfffffffffffffffe : Nat) + 2 ∧
      (SlotTable.slotOffset lastSlots ⟨some 0xfffffffffffffff8, some 0⟩ 0x4000000000000000 ⟨0, #[], #[]⟩).1 =
        .error (.addressOverflow 0xfffffffffffffff8 0x4000000000000000) ∧
      (addressSpace : Int) ≤ (0xfffffffffffffff8 : Nat) + 0x4000000000000000 := by
  have hnear : ∀ index : Int, 0 ≤ index → index < 5 →
      (⟨some 0xfffffffffffffff8, some 0⟩ : SlotTable).InReach index := by
    intro index _ hto base _
    left
    simp only [slotSize, greatestIndex, Numeral.greatestSigned]
    omega
  have hfar : (⟨some 0xfffffffffffffff8, some 0⟩ : SlotTable).InReach 0x4000000000000000 := by
    rintro _ ⟨⟩
    right
    decide
  have hrange : (SlotTable.resolveRange lastSlots ⟨some 0xfffffffffffffff8, some 0⟩ 128 0 5 ⟨0, #[], #[]⟩).1 =
      .error (.addressOverflow 0xfffffffffffffffe 2) := by decide +kernel
  have hslot : (SlotTable.slotOffset lastSlots ⟨some 0xfffffffffffffff8, some 0⟩ 0x4000000000000000
      ⟨0, #[], #[]⟩).1 = .error (.addressOverflow 0xfffffffffffffff8 0x4000000000000000) := by decide +kernel
  obtain ⟨himages, hsources⟩ := truthful_overflow 128
  obtain ⟨-, -, htables⟩ := hsources lastSlots (himages lastSlots)
  obtain ⟨hslots, -, hranges⟩ := htables ⟨some 0xfffffffffffffff8, some 0⟩
  refine ⟨himages lastSlots, hnear, hrange, ?_, hslot, ?_⟩
  · exact hranges 0 5 hnear _ _ hrange _ _ rfl
  · exact (hslots _).2 hfar _ _ hslot _ _ rfl

/-- Slot 2^62 of a table at address zero would be at address 2^63, and 2^62 is an address as well, but the two are
reported as an overflow. -/
theorem overflow_of_addresses :
    (SlotTable.slotOffset nearSlots ⟨some 0, some 4⟩ 0x4000000000000000 ⟨0, #[], #[]⟩).1 =
        .error (.addressOverflow 0 0x4000000000000000) ∧
      (SlotTable.resolve nearSlots ⟨some 0, some 4⟩ 128 0x4000000000000000 ⟨0, #[], #[]⟩).1 =
        .error (.addressOverflow 0 0x4000000000000000) ∧
      (SlotTable.resolveRange nearSlots ⟨some 0, some 4⟩ 128 0x4000000000000000 0x4000000000000001
        ⟨0, #[], #[]⟩).1 = .error (.addressOverflow 0 0x4000000000000000) ∧
      ¬ (Failure.addressOverflow 0 0x4000000000000000).Truthful ∧
      0 + 0x4000000000000000 < addressSpace ∧ 0 + slotSize * 0x4000000000000000 < addressSpace := by
  refine ⟨by decide +kernel, by decide +kernel, by decide +kernel, ?_, by decide, by decide⟩
  intro h
  exact absurd (h 0 0x4000000000000000 rfl) (by decide)

end Correlation

import Correlation.Proofs.Logs
import Correlation.SlotTable
import Mathlib.Control.Monad.Basic
/-!
# Locality

A run depends on the bytes it reads, and on nothing else of the image but where it is mapped and how many bytes it
has. `Decoder.Local` says so of a decoder; it holds of fields and is kept by sequencing, and so it holds of decoding
and of resolving a slot, however these end (`resolve_of_same_bytes`).
-/

namespace Correlation

open Attempt Decoder Wire

/-! ## Images that agree -/

namespace Image

/-- The byte at an address, if there is one. -/
def byte? (image : Image) (address : Nat) : Option UInt8 :=
  if image.base ≤ address then image.bytes[address - image.base]? else none

/-- The image with its bytes edited, each by its address. -/
def edited (image : Image) (edit : Nat → UInt8 → UInt8) : Image :=
  { image with bytes := image.bytes.mapIdx fun i b => edit (image.base + i) b }

/-- The images are mapped alike, and the addresses have the same bytes in both. -/
structure AgreeOn (image image' : Image) (addresses : Nat → Prop) : Prop where
  base : image'.base = image.base
  size : image'.size = image.size
  bytes : ∀ a, addresses a → image'.byte? a = image.byte? a

variable {image image' : Image} {addresses : Nat → Prop}

theorem AgreeOn.mono {fewer : Nat → Prop} (h : image.AgreeOn image' addresses) (himp : ∀ a, fewer a → addresses a) :
    image.AgreeOn image' fewer :=
  ⟨h.base, h.size, fun a ha => h.bytes a (himp a ha)⟩

/-- Editing changes the bytes alone, and not at the addresses where the edit does nothing. -/
theorem agreeOn_edited (image : Image) {edit : Nat → UInt8 → UInt8} (h : ∀ a, addresses a → ∀ b, edit a b = b) :
    image.AgreeOn (image.edited edit) addresses where
  base := rfl
  size := by simp [edited, size]
  bytes := by
    intro a ha
    unfold byte? edited
    split
    · rename_i hbase
      have hindex : image.base + (a - image.base) = a := Nat.add_sub_cancel' hbase
      simp [hindex, h a ha]
    · rfl

/-- A read fails in both images, or reads the same in both when they agree on it. -/
theorem read_of_agreeOn {address count : Nat} (h : image.AgreeOn image' addresses)
    (hread : ∀ bytes, image.read address count = .ok bytes → ∀ a, address ≤ a → a < address + count → addresses a) :
    image'.read address count = image.read address count := by
  unfold read at *
  rw [h.base, h.size]
  by_cases hbounds : image.base ≤ address ∧ address - image.base + count ≤ image.size
  · rw [if_pos hbounds] at hread
    rw [if_pos hbounds, if_pos hbounds]
    congr 2
    apply Array.ext_getElem?
    intro i
    simp only [Array.getElem?_extract]
    have hsize : image'.bytes.size = image.bytes.size := h.size
    rw [hsize]
    split
    · rename_i hi
      have hbyte := h.bytes (address + i) (hread _ rfl _ (by omega) (by omega))
      have hindex : address + i - image.base = address - image.base + i := by omega
      rwa [byte?, byte?, h.base, if_pos (by omega), if_pos (by omega), hindex] at hbyte
    · rfl
  · rw [if_neg hbounds, if_neg hbounds]

end Image

/-! ## Bytes that were read -/

namespace Cursor

/-- The byte at the address was read, as one of those that a read found, on the way from `c` to `c'`. -/
def ReadSince (image : Image) (c c' : Cursor) (address : Nat) : Prop :=
  ∃ made : Array Span, c'.reads = c.reads ++ made ∧
    ∃ s ∈ made, (∃ bytes, image.read s.address s.size = .ok bytes) ∧ s.address ≤ address ∧ address < s.address + s.size

variable {image : Image} {c c₁ c₂ : Cursor} {a : Nat}

theorem ReadSince.go_on (h : c.ReadSince image c₁ a) (hlog : c₁.Begins c₂) : c.ReadSince image c₂ a := by
  obtain ⟨made, hmade, s, hs, hread⟩ := h
  obtain ⟨more, hmore⟩ := hlog.exists_reads
  refine ⟨made ++ more, ?_, s, Array.mem_append_left more hs, hread⟩
  rw [hmore, hmade, Array.append_assoc]

theorem ReadSince.begin_earlier (h : c₁.ReadSince image c₂ a) (hlog : c.Begins c₁) : c.ReadSince image c₂ a := by
  obtain ⟨made, hmade, s, hs, hread⟩ := h
  obtain ⟨before, hbefore⟩ := hlog.exists_reads
  refine ⟨before ++ made, ?_, s, Array.mem_append_right before hs, hread⟩
  rw [hmade, hbefore, Array.append_assoc]

end Cursor

namespace Decoder

variable {α β : Type}

/-- The log goes on, and images that agree on what is read in one of them give the same run. -/
structure Local (d : Image → Decoder α) : Prop where
  logs : ∀ image, Logs (d image)
  same : ∀ {image image' : Image} {c : Cursor}, image.AgreeOn image' (c.ReadSince image (d image c).2) →
    d image' c = d image c

/-! ## Local decoders -/

theorem local_const {x : Decoder α} (h : Logs x) : Local fun _ => x :=
  ⟨fun _ => h, fun _ => rfl⟩

theorem local_peek (count : Nat) : Local fun image => peek image count := by
  refine ⟨fun image => logs_peek image count, ?_⟩
  intro image image' c h
  have hread : image'.read c.position count = image.read c.position count := by
    refine Image.read_of_agreeOn h ?_
    intro bytes hbytes a hfrom hto
    exact ⟨#[⟨c.position, count⟩], by simp [peek], ⟨c.position, count⟩, by simp, ⟨bytes, hbytes⟩, hfrom, hto⟩
  rw [peek_ofImage, peek_ofImage, hread]

/-- What the first part reads, the whole has read, and likewise the second. -/
theorem Local.bind {x : Image → Decoder α} {f : Image → α → Decoder β} (hx : Local x)
    (hf : ∀ a, Local fun image => f image a) : Local fun image => x image >>= f image := by
  refine ⟨fun image => (hx.logs image).bind fun a => (hf a).logs image, ?_⟩
  intro image image' c h
  have hbegins := hx.logs image c
  match hrun : x image c with
  | (.ok a, c₁) =>
    rw [bind_of_ok hrun] at h
    rw [hrun] at hbegins
    have hfirst : x image' c = (.ok a, c₁) := by
      refine (hx.same (h.mono ?_)).trans hrun
      intro b hb
      rw [hrun] at hb
      exact hb.go_on ((hf a).logs image c₁)
    rw [bind_of_ok hrun, bind_of_ok hfirst]
    exact (hf a).same (h.mono fun b hb => hb.begin_earlier hbegins)
  | (.error e, c₁) =>
    have hfirst : x image' c = (.error e, c₁) := by
      rw [bind_of_error hrun] at h
      refine (hx.same (h.mono ?_)).trans hrun
      intro b hb
      rwa [hrun] at hb
    rw [bind_of_error hrun, bind_of_error hfirst]

theorem Local.times {x : Image → Decoder α} (h : Local x) (count : Nat) :
    Local fun image => times (x image) count := by
  induction count with
  | zero => exact local_const (logs_pure [])
  | succ count ih => exact h.bind fun a => ih.bind fun rest => local_const (logs_pure (a :: rest))

/-- Reads are logged the same wherever the cursor comes back to. -/
theorem Local.atAddress {x : Image → Decoder α} (h : Local x) (address : Nat) :
    Local fun image => atAddress address (x image) := by
  constructor
  · intro image c
    have hlog := h.logs image { c with position := address }
    exact ⟨hlog.reads, hlog.events⟩
  · intro image image' c hagree
    have hsame : x image' { c with position := address } = x image { c with position := address } := h.same hagree
    rw [Decoder.atAddress, hsame]
    rfl

theorem Straight.isLocal {n : Nat} {d : Source → Decoder α} (h : Straight n d) :
    Local fun image => d image := by
  induction h with
  | pure a => exact local_const (logs_pure a)
  | position => exact local_const Cursor.Begins.refl
  | note e => exact local_const (logs_note e)
  | take count _ =>
    refine (local_peek count).bind ?_
    intro bytes
    exact (local_const (logs_skip count)).bind fun _ => local_const (logs_pure bytes)
  | bind _ _ hx hf => exact hx.bind hf
  | weaken _ _ ih => exact ih

end Decoder

/-! ## Decoding and resolving -/

theorem Wire.local_descend (limit levels : Nat) : Local fun image => descend image limit levels := by
  induction levels with
  | zero => exact local_const (logs_fail _)
  | succ levels ih =>
    simp only [descend]
    refine Straight.position.isLocal.bind ?_
    intro start
    refine straight_head.isLocal.bind ?_
    intro h
    cases h with
    | leaf node => exact local_const (logs_report node _ _)
    | operator op field arity => exact (ih.times arity).bind fun args => local_const (logs_build op field args _ _)

namespace SlotTable

theorem local_slotOffset (table : SlotTable) (index : Int) : Local fun image => slotOffset image table index := by
  unfold slotOffset
  cases table.slots with
  | none => exact local_const (logs_pure none)
  | some base =>
    simp only
    split
    · exact local_const (logs_pure none)
    · split
      · exact local_const (logs_fail _)
      · refine (local_const (logs_ofExcept _)).bind ?_
        intro address
        refine ((straight_field Nat.two_pos _).isLocal.atAddress address).bind ?_
        intro offset
        exact local_const (logs_pure _)

theorem local_resolve (table : SlotTable) (limit : Nat) (index : Int) :
    Local fun image => resolve image table limit index := by
  unfold resolve
  cases table.buffer with
  | none => exact local_const (logs_pure _)
  | some buffer =>
    refine (local_slotOffset table index).bind ?_
    intro found
    cases found with
    | none => exact (local_const (logs_note _)).bind fun _ => local_const (logs_pure _)
    | some offset =>
      refine (local_const (logs_ofExcept _)).bind ?_
      intro address
      refine (local_const (logs_note _)).bind ?_
      intro _
      exact (local_descend limit (limit + 1)).atAddress address

/-! ## Main theorem -/

/-- A slot resolves to the same in every image that is mapped alike and has the bytes that resolving it has read,
whatever else is in it: to the same tree or to the same failure, with the same log. So no edit of other bytes, those
of other slots among them, changes what the slot resolves to. -/
theorem resolve_of_same_bytes (image : Image) (table : SlotTable) (limit : Nat) (index : Int) (c : Cursor) :
    (∀ image' : Image, image'.base = image.base → image'.size = image.size →
      (∀ a, c.ReadSince image (resolve image table limit index c).2 a → image'.byte? a = image.byte? a) →
        resolve image' table limit index c = resolve image table limit index c) ∧
      ∀ edit : Nat → UInt8 → UInt8,
        (∀ a, c.ReadSince image (resolve image table limit index c).2 a → ∀ b, edit a b = b) →
          resolve (image.edited edit) table limit index c = resolve image table limit index c := by
  have hlocal := local_resolve table limit index
  constructor
  · intro image' hbase hsize hbytes
    exact hlocal.same ⟨hbase, hsize, hbytes⟩
  · intro edit hedit
    exact hlocal.same (image.agreeOn_edited hedit)

/-- Two slots, the first of which leads past a padding byte to the negation of a variable. -/
def twoSlots : Image :=
  ⟨0x1000, #[0x01, 0x00, 0x00, 0x00, 0x05, 0x04, 0x02, 0x08, 0x00, 0x03, 0x08, 0x04, 0x00]⟩

/-- The same with a second slot that leads out of the image, and with the tag of an operator for the padding. -/
def rewritten : Image :=
  ⟨0x1000, #[0x01, 0x00, 0xff, 0x7f, 0x04, 0x04, 0x02, 0x08, 0x00, 0x03, 0x08, 0x04, 0x00]⟩

/-- Blanks out the second slot and the padding. -/
def blank (address : Nat) (b : UInt8) : UInt8 :=
  if 0x1002 ≤ address ∧ address < 0x1005 then 0xff else b

theorem resolve_of_same_bytes_sample :
    (∀ a, (⟨0, #[], #[]⟩ : Cursor).ReadSince twoSlots
      (resolve twoSlots ⟨some 0x1000, some 0x1004⟩ 128 0 ⟨0, #[], #[]⟩).2 a →
        rewritten.byte? a = twoSlots.byte? a ∧ ∀ b, blank a b = b) ∧
      (resolve twoSlots ⟨some 0x1000, some 0x1004⟩ 128 0 ⟨0, #[], #[]⟩).1 =
        .ok (.operator .unaryMinus 8 [.var 8 4]) ∧
      resolve rewritten ⟨some 0x1000, some 0x1004⟩ 128 0 ⟨0, #[], #[]⟩ =
        resolve twoSlots ⟨some 0x1000, some 0x1004⟩ 128 0 ⟨0, #[], #[]⟩ ∧
      resolve (twoSlots.edited blank) ⟨some 0x1000, some 0x1004⟩ 128 0 ⟨0, #[], #[]⟩ =
        resolve twoSlots ⟨some 0x1000, some 0x1004⟩ 128 0 ⟨0, #[], #[]⟩ := by
  have hreads : (resolve twoSlots ⟨some 0x1000, some 0x1004⟩ 128 0 ⟨0, #[], #[]⟩).2.reads =
      #[⟨0x1000, 2⟩, ⟨0x1005, 1⟩, ⟨0x1006, 1⟩, ⟨0x1007, 2⟩, ⟨0x1009, 1⟩, ⟨0x100a, 1⟩, ⟨0x100b, 2⟩] := by decide +kernel
  have hresult : (resolve twoSlots ⟨some 0x1000, some 0x1004⟩ 128 0 ⟨0, #[], #[]⟩).1 =
      .ok (.operator .unaryMinus 8 [.var 8 4]) := by decide +kernel
  have hunread : ∀ a, (⟨0, #[], #[]⟩ : Cursor).ReadSince twoSlots
      (resolve twoSlots ⟨some 0x1000, some 0x1004⟩ 128 0 ⟨0, #[], #[]⟩).2 a →
        rewritten.byte? a = twoSlots.byte? a ∧ ∀ b, blank a b = b := by
    rintro a ⟨made, hmade, s, hs, -, hfrom, hto⟩
    rw [hreads, Array.empty_append] at hmade
    -- No read touches the second slot or the padding.
    have hspan : ∀ s ∈ made, 0x1000 ≤ s.address ∧ s.address + s.size ≤ 0x1002 ∨
        0x1005 ≤ s.address ∧ s.address + s.size ≤ 0x100d := by
      rw [← hmade]
      decide
    have hsame : ∀ k < 13, k < 2 ∨ 5 ≤ k → rewritten.byte? (0x1000 + k) = twoSlots.byte? (0x1000 + k) := by decide
    have hinside := hspan s hs
    obtain ⟨k, rfl⟩ := Nat.exists_eq_add_of_le (show 0x1000 ≤ a by omega)
    exact ⟨hsame k (by omega) (by omega), fun b => if_neg (by omega)⟩
  have hbase : rewritten.base = twoSlots.base := rfl
  have hsize : rewritten.size = twoSlots.size := rfl
  obtain ⟨hagree, hedited⟩ := resolve_of_same_bytes twoSlots ⟨some 0x1000, some 0x1004⟩ 128 0 ⟨0, #[], #[]⟩
  refine ⟨hunread, hresult, hagree rewritten hbase hsize fun a ha => (hunread a ha).1, hedited blank ?_⟩
  intro a ha
  exact (hunread a ha).2

end SlotTable

end Correlation

import Correlation.Proofs.Stepwise
import Correlation.SlotTable
/-!
# Decoding does not look back

What a decoder gives, where it goes and what it adds to the log depend on where the cursor stands, and on nothing
that was read or reported before. A slot and its expression are looked for at addresses of their own, so a slot
resolves to the same wherever the cursor stands (`SlotTable.resolve_eq_answer`).
-/

namespace Correlation

open Attempt Decoder Wire

/-! ## Logs behind logs -/

namespace Cursor

/-- The same place, with nothing read or reported yet. -/
def fresh (c : Cursor) : Cursor :=
  ⟨c.position, #[], #[]⟩

/-- The log of `c'` behind that of `c`. -/
def followedBy (c c' : Cursor) : Cursor :=
  ⟨c'.position, c.reads ++ c'.reads, c.events ++ c'.events⟩

@[simp]
theorem followedBy_fresh (c : Cursor) : c.followedBy c.fresh = c := by
  simp [followedBy, fresh]

@[simp]
theorem fresh_followedBy (c c' : Cursor) : (c.followedBy c').fresh = c'.fresh :=
  rfl

theorem followedBy_assoc (c c' c'' : Cursor) : (c.followedBy c').followedBy c'' = c.followedBy (c'.followedBy c'') := by
  simp [followedBy, Array.append_assoc]

end Cursor

namespace Decoder

variable {α β : Type}

/-- What was logged before stays in front and changes nothing. -/
def Forgetful (d : Decoder α) : Prop :=
  ∀ c : Cursor, d c = ((d c.fresh).1, c.followedBy (d c.fresh).2)

theorem forgetful_pure (a : α) : Forgetful (pure a : Decoder α) := by
  intro c
  simp

theorem forgetful_fail (e : Failure) : Forgetful (fail e : Decoder α) := by
  intro c
  simp

theorem forgetful_position : Forgetful position := by
  intro c
  simp [position, Cursor.fresh, Cursor.followedBy]

theorem forgetful_note (e : Event) : Forgetful (note e) := by
  intro c
  simp [note, Cursor.fresh, Cursor.followedBy]

theorem Forgetful.bind {x : Decoder α} {f : α → Decoder β} (hx : Forgetful x) (hf : ∀ a, Forgetful (f a)) :
    Forgetful (x >>= f) := by
  intro c
  have hfirst := hx c
  match hrun : x c.fresh with
  | (.ok a, c₁) =>
    rw [hrun] at hfirst
    -- The second part starts behind both logs in one run and behind its own alone in the other.
    rw [bind_of_ok hfirst, bind_of_ok hrun, hf a (c.followedBy c₁), hf a c₁]
    simp only [Cursor.fresh_followedBy, Cursor.followedBy_assoc]
  | (.error e, c₁) =>
    rw [hrun] at hfirst
    rw [bind_of_error hfirst, bind_of_error hrun]

theorem forgetful_take (image : Image) (count : Nat) : Forgetful (take image count) := by
  have hpeek : Forgetful (peek image count) := by
    intro c
    simp [peek_ofImage, Cursor.fresh, Cursor.followedBy]
  have hskip : Forgetful (skip count) := by
    intro c
    by_cases hspace : c.position + count < addressSpace <;> simp [skip, Cursor.fresh, Cursor.followedBy, hspace]
  refine hpeek.bind ?_
  intro bytes
  exact hskip.bind fun _ => forgetful_pure bytes

theorem Stepwise.forgetful {image : Image} {fails : Failure → Prop} {d : Decoder α} (h : Stepwise image fails d) :
    Forgetful d := by
  induction h with
  | pure a => exact forgetful_pure a
  | fail _ => exact forgetful_fail _
  | position => exact forgetful_position
  | note e => exact forgetful_note e
  | take count => exact forgetful_take image count
  | bind _ _ hx hf => exact hx.bind hf

/-! ## Decoders at addresses of their own -/

/-- Wherever the cursor stands, it stays there, and result and log are the same. -/
def Fixed (d : Decoder α) : Prop :=
  ∃ result reads events, ∀ c : Cursor, d c = (result, ⟨c.position, c.reads ++ reads, c.events ++ events⟩)

theorem fixed_pure (a : α) : Fixed (pure a : Decoder α) :=
  ⟨.ok a, #[], #[], fun c => by simp⟩

theorem fixed_fail (e : Failure) : Fixed (fail e : Decoder α) :=
  ⟨.error e, #[], #[], fun c => by simp⟩

theorem fixed_ofExcept (r : Except Failure α) : Fixed (ofExcept r : Decoder α) := by
  cases r with
  | ok a => exact fixed_pure a
  | error e => exact fixed_fail e

theorem fixed_note (e : Event) : Fixed (note e) :=
  ⟨.ok (), #[], #[e], fun c => by simp [note]⟩

/-- At an address of its own, a decoder does what it does there with a fresh cursor. -/
theorem Forgetful.atAddress_eq {d : Decoder α} (h : Forgetful d) (address : Nat) (c : Cursor) :
    atAddress address d c = ((d ⟨address, #[], #[]⟩).1,
      ⟨c.position, c.reads ++ (d ⟨address, #[], #[]⟩).2.reads, c.events ++ (d ⟨address, #[], #[]⟩).2.events⟩) := by
  rw [Decoder.atAddress, h { c with position := address }]
  rfl

theorem Forgetful.fixed_atAddress {d : Decoder α} (h : Forgetful d) (address : Nat) : Fixed (atAddress address d) :=
  ⟨_, _, _, h.atAddress_eq address⟩

theorem Fixed.bind {x : Decoder α} {f : α → Decoder β} (hx : Fixed x) (hf : ∀ a, Fixed (f a)) : Fixed (x >>= f) := by
  obtain ⟨result, reads, events, hx⟩ := hx
  cases result with
  | error e => exact ⟨.error e, reads, events, fun c => bind_of_error (hx c)⟩
  | ok a =>
    obtain ⟨result, reads', events', hf⟩ := hf a
    refine ⟨result, reads ++ reads', events ++ events', ?_⟩
    intro c
    rw [bind_of_ok (hx c), hf]
    simp only [Array.append_assoc]

end Decoder

/-! ## Slots -/

namespace SlotTable

variable (image : Image) (table : SlotTable) (limit : Nat) (index : Int)

theorem fixed_slotOffset : Fixed (slotOffset image table index) := by
  unfold slotOffset
  cases table.slots with
  | none => exact fixed_pure none
  | some base =>
    simp only
    split
    · exact fixed_pure none
    · split
      · exact fixed_fail _
      · refine (fixed_ofExcept _).bind ?_
        intro address
        have hfield : Stepwise image (fun _ => False) (int16 image) := .of_straight (straight_field Nat.two_pos _)
        exact (hfield.forgetful.fixed_atAddress address).bind fun offset => fixed_pure _

theorem fixed_resolve : Fixed (resolve image table limit index) := by
  unfold resolve
  cases table.buffer with
  | none => exact fixed_pure _
  | some buffer =>
    refine (fixed_slotOffset image table index).bind ?_
    intro found
    cases found with
    | none => exact (fixed_note _).bind fun _ => fixed_pure _
    | some offset =>
      refine (fixed_ofExcept _).bind ?_
      intro address
      refine (fixed_note _).bind ?_
      intro _
      exact (stepwise_descend image limit (limit + 1)).forgetful.fixed_atAddress address

/-- What a slot resolves to. -/
def answer : Except Failure Expr :=
  (resolve image table limit index ⟨0, #[], #[]⟩).1

theorem resolve_eq_answer (c : Cursor) : (resolve image table limit index c).1 = answer image table limit index := by
  obtain ⟨result, reads, events, hrun⟩ := fixed_resolve image table limit index
  rw [answer, hrun, hrun]

end SlotTable

end Correlation

import Correlation.Proofs.Fields
import Correlation.Proofs.Forgetful
/-!
# Cursor sessions

A cursor is sent to addresses and reads fields, one step after the other, whether the steps before have failed or
not. `session_step` is the law of every step in every such session: when a read succeeds, with which number, and where
it leaves the cursor. One that fails changes nothing for the steps behind it.
-/

namespace Correlation

open Attempt Decoder

/-! ## Fields by their kind -/

/-- The kinds of fields. -/
inductive Field where
  | uint8
  | int8
  | int16
  | int32
  | int64
  deriving Repr, DecidableEq

namespace Field

/-- How many bytes a field has. -/
def width : Field → Nat
  | uint8 | int8 => 1
  | int16 => 2
  | int32 => 4
  | int64 => 8

/-- The number that bytes stand for, the least significant first: in two's complement, but for the unsigned byte. -/
def value : Field → List UInt8 → Int
  | uint8, bytes => littleEndian bytes
  | f, bytes => (littleEndian bytes : Int).bmod (256 ^ f.width)

/-- The number in the next field. -/
def read (image : Image) : Field → Decoder Int
  | uint8 => do return (← Decoder.uint8 image).toNat
  | int8 => do return (← Decoder.int8 image).toInt
  | int16 => do return (← Decoder.int16 image).toInt
  | int32 => do return (← Decoder.int32 image).toInt
  | int64 => do return (← Decoder.int64 image).toInt

/-- What is made of a field is made of its bytes. -/
theorem field_bind {α β : Type} {image : Image} {count : Nat} {f : List UInt8 → α} {g : α → β} {k : List UInt8 → β}
    (hk : ∀ bytes, bytes.length = count → g (f bytes) = k bytes) :
    (do return g (← (do return f (← take image count) : Decoder α)) : Decoder β) =
      do return k (← take image count) := by
  funext c
  match hrun : take image count c with
  | (.ok bytes, c') =>
    have hlength := (take_eq_ok_iff.1 hrun).1
    have hfield : (do return f (← take image count) : Decoder α) c = (.ok (f bytes), c') := bind_of_ok hrun
    rw [bind_of_ok hfield, bind_of_ok hrun, hk bytes hlength]
  | (.error e, c') =>
    have hfield : (do return f (← take image count) : Decoder α) c = (.error e, c') := bind_of_error hrun
    rw [bind_of_error hfield, bind_of_error hrun]

theorem read_eq (image : Image) (f : Field) : f.read image = do return f.value (← take image f.width) := by
  cases f with
  | uint8 =>
    refine field_bind fun bytes hlength => ?_
    have hlt : littleEndian bytes < 256 := by
      have h := Wire.littleEndian_lt bytes
      rwa [hlength] at h
    simp only [value, UInt8.toNat_ofNat']
    omega
  | int8 => exact field_bind fun bytes _ => by simp [value, width]
  | int16 => exact field_bind fun bytes _ => by simp [value, width]
  | int32 => exact field_bind fun bytes _ => by simp [value, width]
  | int64 => exact field_bind fun bytes _ => by simp [value, width]

theorem forgetful_read (image : Image) (f : Field) : Forgetful (f.read image) := by
  rw [read_eq]
  exact (forgetful_take image f.width).bind fun bytes => forgetful_pure _

/-! ## The law of a read -/

/-- What a read of the field at `start` comes to: it gives `r` and leaves the cursor at `stop`. -/
structure Answers (image : Image) (f : Field) (start : Nat) (r : Except Failure Int) (stop : Nat) : Prop where
  succeeds : (∃ v, r = .ok v) ↔ image.Available start f.width ∧ start + f.width ≤ Numeral.greatestWord
  value : ∀ v, r = .ok v →
    v = f.value (image.bytes.extract (start - image.base) (start - image.base + f.width)).toList ∧
      stop = start + f.width
  failure : ∀ e, r = .error e → stop = start ∧
    (¬ image.Available start f.width → e = .outOfBounds start f.width image.size) ∧
    (image.Available start f.width → e = .addressOverflow start f.width)

theorem answers_read (image : Image) (f : Field) (c : Cursor) :
    f.Answers image c.position (f.read image c).1 (f.read image c).2.position := by
  rw [read_eq]
  by_cases hthere : image.Available c.position f.width
  · rcases Nat.lt_or_ge (c.position + f.width) addressSpace with hspace | hspace
    · rw [bind_of_ok (take_of_available hthere hspace)]
      refine ⟨⟨fun _ => ⟨hthere, Nat.le_of_lt_succ hspace⟩, fun _ => ⟨_, rfl⟩⟩, ?_, nofun⟩
      rintro _ ⟨⟩
      exact ⟨rfl, rfl⟩
    · rw [bind_of_error (take_of_overrun hthere hspace)]
      refine ⟨⟨nofun, fun h => absurd (Nat.lt_succ_of_le h.2) (Nat.not_lt.2 hspace)⟩, nofun, ?_⟩
      rintro _ ⟨⟩
      exact ⟨rfl, fun h => absurd hthere h, fun _ => rfl⟩
  · rw [bind_of_error (take_of_missing hthere)]
    refine ⟨⟨nofun, fun h => absurd h.1 hthere⟩, nofun, ?_⟩
    rintro _ ⟨⟩
    exact ⟨rfl, fun _ => rfl, fun h => absurd h hthere⟩

end Field

/-! ## Steps in a row -/

namespace Session

/-- What is done with a cursor: it is sent to an address, or reads a field. -/
inductive Step where
  | seek (address : Nat)
  | read (field : Field)
  deriving Repr, DecidableEq

/-- What a step gives: the number that it reads, if it reads. -/
abbrev Outcome : Type :=
  Except Failure (Option Int)

def Step.run (image : Image) : Step → Decoder (Option Int)
  | seek address => fun c => (.ok none, { c with position := address })
  | read f => do return some (← f.read image)

/-- What the steps give one after the other, the failed ones too, and the cursor behind them. -/
def run (image : Image) : List Step → Cursor → List Outcome × Cursor
  | [], c => ([], c)
  | s :: rest, c =>
    let (r, c₁) := s.run image c
    let (rs, c₂) := run image rest c₁
    (r :: rs, c₂)

theorem run_append (image : Image) (xs ys : List Step) (c : Cursor) :
    run image (xs ++ ys) c =
      ((run image xs c).1 ++ (run image ys (run image xs c).2).1, (run image ys (run image xs c).2).2) := by
  induction xs generalizing c with
  | nil => rfl
  | cons s xs ih => simp only [List.cons_append, run, ih]

theorem run_read (image : Image) (f : Field) (c : Cursor) :
    (Step.read f).run image c = ((f.read image c).1.map some, (f.read image c).2) := by
  match hrun : f.read image c with
  | (.ok v, c') => exact bind_of_ok hrun
  | (.error e, c') => exact bind_of_error hrun

theorem forgetful_step (image : Image) (s : Step) : Forgetful (s.run image) := by
  cases s with
  | seek address =>
    intro c
    simp [Step.run, Cursor.fresh, Cursor.followedBy]
  | read f => exact (f.forgetful_read image).bind fun v => forgetful_pure _

/-- What steps give, and where they lead, depends on where the cursor stands alone. -/
theorem run_of_position_eq (image : Image) (steps : List Step) {c d : Cursor} (h : c.position = d.position) :
    (run image steps c).1 = (run image steps d).1 ∧
      (run image steps c).2.position = (run image steps d).2.position := by
  induction steps generalizing c d with
  | nil => exact ⟨rfl, h⟩
  | cons s rest ih =>
    have hfresh : c.fresh = d.fresh := by rw [Cursor.fresh, Cursor.fresh, h]
    have hresult : (s.run image c).1 = (s.run image d).1 := by
      rw [forgetful_step image s c, forgetful_step image s d, hfresh]
    have hposition : (s.run image c).2.position = (s.run image d).2.position := by
      rw [forgetful_step image s c, forgetful_step image s d, hfresh]
      rfl
    obtain ⟨hrest, hend⟩ := ih hposition
    exact ⟨congrArg₂ List.cons hresult hrest, hend⟩

/-- What a step at `start` comes to: it gives `r` and leaves the cursor at `stop`. -/
def Step.Obeys (image : Image) : Step → Nat → Outcome → Nat → Prop
  | seek address, _, r, stop => r = .ok none ∧ stop = address
  | read f, start, r, stop => ∃ number : Except Failure Int, r = number.map some ∧ f.Answers image start number stop

theorem obeys_run (image : Image) (s : Step) (c : Cursor) :
    s.Obeys image c.position (s.run image c).1 (s.run image c).2.position := by
  cases s with
  | seek address => exact ⟨rfl, rfl⟩
  | read f =>
    rw [run_read]
    exact ⟨_, rfl, f.answers_read image c⟩

/-- A step that fails leaves the cursor where it is. -/
theorem Step.Obeys.stop_eq {image : Image} {s : Step} {start stop : Nat} {e : Failure}
    (h : s.Obeys image start (.error e) stop) : stop = start := by
  cases s with
  | seek address => cases h.1
  | read f =>
    obtain ⟨number, hnumber, hanswers⟩ := h
    cases number with
    | ok v => cases hnumber
    | error e' => exact (hanswers.failure e' rfl).1

/-! ## Main theorem -/

/-- Any step in any session: what it gives and where it leaves the cursor is decided by where the cursor stands, and the
steps behind it go on from there. When it fails, they give what they give without it, and lead to the same place. -/
theorem session_step (image : Image) (before after : List Step) (s : Step) (c : Cursor) :
    ∃ earlier later c₁ r c₂ c₃,
      run image before c = (earlier, c₁) ∧ s.Obeys image c₁.position r c₂.position ∧
      run image after c₂ = (later, c₃) ∧
      run image (before ++ s :: after) c = (earlier ++ r :: later, c₃) ∧
      ∀ e, r = .error e →
        (run image (before ++ after) c).1 = earlier ++ later ∧
          (run image (before ++ after) c).2.position = c₃.position := by
  obtain ⟨earlier, c₁, hbefore⟩ : ∃ earlier c₁, run image before c = (earlier, c₁) := ⟨_, _, rfl⟩
  have hobeys : s.Obeys image c₁.position _ _ := obeys_run image s c₁
  refine ⟨earlier, _, c₁, _, _, _, hbefore, hobeys, rfl, ?_, ?_⟩
  · rw [run_append, hbefore]
    rfl
  · intro e he
    rw [he] at hobeys
    obtain ⟨hlater, hend⟩ := run_of_position_eq image after hobeys.stop_eq
    rw [run_append, hbefore]
    exact ⟨congrArg (earlier ++ ·) hlater.symm, hend.symm⟩

/-- Six bytes, the last of them at the last address. -/
def highWords : Image :=
  ⟨0xfffffffffffffffa, #[0xfe, 0xff, 0x80, 0x01, 0x7f, 0xff]⟩

/-- The 32-bit field is there, but the cursor cannot move past it; the steps behind it give the same without it. -/
theorem session_step_sample :
    (run highWords ([.seek 0xfffffffffffffffa, .read .int16] ++ .read .int32 :: [.read .int8, .read .int64, .read .uint8])
        ⟨0, #[], #[]⟩).1 =
      [.ok none, .ok (some (-2)), .error (.addressOverflow 0xfffffffffffffffc 4), .ok (some (-128)),
        .error (.outOfBounds 0xfffffffffffffffd 8 6), .ok (some 1)] ∧
      (run highWords ([.seek 0xfffffffffffffffa, .read .int16] ++ [.read .int8, .read .int64, .read .uint8])
        ⟨0, #[], #[]⟩).1 =
      [.ok none, .ok (some (-2)), .ok (some (-128)), .error (.outOfBounds 0xfffffffffffffffd 8 6), .ok (some 1)] := by
  have hall : (run highWords
      ([.seek 0xfffffffffffffffa, .read .int16] ++ .read .int32 :: [.read .int8, .read .int64, .read .uint8])
      ⟨0, #[], #[]⟩).1 =
      [.ok none, .ok (some (-2)), .error (.addressOverflow 0xfffffffffffffffc 4), .ok (some (-128)),
        .error (.outOfBounds 0xfffffffffffffffd 8 6), .ok (some 1)] := by decide +kernel
  obtain ⟨earlier, later, c₁, r, c₂, c₃, hbefore, -, -, hrun, hwithout⟩ :=
    session_step highWords [.seek 0xfffffffffffffffa, .read .int16] [.read .int8, .read .int64, .read .uint8]
      (.read .int32) ⟨0, #[], #[]⟩
  obtain rfl : [.ok none, .ok (some (-2))] = earlier := congrArg Prod.fst hbefore
  rw [hrun] at hall
  cases hall
  exact ⟨congrArg Prod.fst hrun, (hwithout _ rfl).1⟩

end Session

end Correlation

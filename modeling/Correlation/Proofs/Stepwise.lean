import Correlation.Proofs.Straight
/-!
# Decoding step by step

Decoding an expression is reading fields, reporting and giving up, one after the other, with nothing else in between
(`Wire.stepwise_descend`). What these steps have in common, and keep when one follows another, decoding has too.
-/

namespace Correlation

open Attempt Decoder

/-- Not an overflow of an address. -/
def Failure.NoOverflow (e : Failure) : Prop :=
  ∀ base offset, e ≠ addressOverflow base offset

open Failure (NoOverflow)

namespace Decoder

variable {α : Type} {source : Source}

/-- Made of fields, reports, and failures of a kind. -/
inductive Stepwise (source : Source) (fails : Failure → Prop) : {α : Type} → Decoder α → Prop
  | pure {α : Type} (a : α) : Stepwise source fails (pure a : Decoder α)
  | fail {α : Type} {e : Failure} : fails e → Stepwise source fails (fail e : Decoder α)
  | position : Stepwise source fails position
  | note (e : Event) : Stepwise source fails (note e)
  | take (count : Nat) : Stepwise source fails (take source count)
  | bind {α β : Type} {x : Decoder α} {f : α → Decoder β} :
    Stepwise source fails x → (∀ a, Stepwise source fails (f a)) → Stepwise source fails (x >>= f)

namespace Stepwise

variable {fails : Failure → Prop}

theorem ofExcept {r : Except Failure α} (h : ∀ e, r = .error e → fails e) :
    Stepwise source fails (ofExcept r : Decoder α) := by
  cases r with
  | ok a => exact .pure a
  | error e => exact .fail (h e rfl)

theorem times {x : Decoder α} (hx : Stepwise source fails x) (count : Nat) :
    Stepwise source fails (Attempt.times x count) := by
  induction count with
  | zero => exact .pure []
  | succ count ih =>
    refine hx.bind ?_
    intro a
    exact ih.bind fun rest => .pure (a :: rest)

theorem of_straight {n : Nat} {d : Source → Decoder α} (h : Straight n d) : Stepwise source fails (d source) := by
  induction h with
  | pure a => exact .pure a
  | position => exact .position
  | note e => exact .note e
  | take count _ => exact .take count
  | bind _ _ hx hf => exact hx.bind hf
  | weaken _ _ ih => exact ih

end Stepwise

end Decoder

/-- Decoding gives up for depth, or if an operator cannot be built; overflows come from its fields alone. -/
theorem Wire.stepwise_descend (source : Source) (limit levels : Nat) :
    Stepwise source NoOverflow (descend source limit levels) := by
  induction levels with
  | zero => exact .fail nofun
  | succ levels ih =>
    have hreport : ∀ node start, Stepwise source NoOverflow (do
        note (.decoded node start (limit - levels))
        return node) :=
      fun node start => (Stepwise.note _).bind fun _ => .pure node
    rw [descend]
    refine Stepwise.position.bind ?_
    intro start
    refine (Stepwise.of_straight straight_head).bind ?_
    intro h
    cases h with
    | leaf node => exact hreport node start
    | operator op field arity =>
      refine (ih.times arity).bind ?_
      intro args
      refine (Stepwise.ofExcept ?_).bind fun node => hreport node start
      rintro e he base offset rfl
      unfold Expr.combine at he
      split at he <;> cases he

end Correlation

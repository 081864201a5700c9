/-!
# Attempts

A computation on a state that may fail, and whose state is kept whether it fails or not: what was done
before a failure stays done.
-/

namespace Correlation

/-- A computation on a state `σ` with a result in `α` or a failure in `ε`. -/
def Attempt (σ ε α : Type) : Type :=
  σ → Except ε α × σ

namespace Attempt

variable {σ ε α β : Type}

@[inline]
protected def pure (a : α) : Attempt σ ε α :=
  fun s => (.ok a, s)

@[inline]
protected def bind (x : Attempt σ ε α) (f : α → Attempt σ ε β) : Attempt σ ε β :=
  fun s =>
    match x s with
    | (.ok a, s') => f a s'
    | (.error e, s') => (.error e, s')

instance : Monad (Attempt σ ε) where
  pure := Attempt.pure
  bind := Attempt.bind

/-- Give up. -/
def fail (e : ε) : Attempt σ ε α :=
  fun s => (.error e, s)

def ofExcept : Except ε α → Attempt σ ε α
  | .ok a => pure a
  | .error e => fail e

/-- The results of a number of runs, in order. -/
def times (x : Attempt σ ε α) : Nat → Attempt σ ε (List α)
  | 0 => pure []
  | n + 1 => do
    let a ← x
    let rest ← times x n
    return a :: rest

@[simp]
theorem pure_apply (a : α) (s : σ) : (pure a : Attempt σ ε α) s = (.ok a, s) :=
  rfl

@[simp]
theorem fail_apply (e : ε) (s : σ) : (fail e : Attempt σ ε α) s = (.error e, s) :=
  rfl

theorem bind_apply (x : Attempt σ ε α) (f : α → Attempt σ ε β) (s : σ) :
    (x >>= f) s = match x s with
      | (.ok a, s') => f a s'
      | (.error e, s') => (.error e, s') :=
  rfl

theorem bind_of_ok {x : Attempt σ ε α} {f : α → Attempt σ ε β} {s s' : σ} {a : α} (h : x s = (.ok a, s')) :
    (x >>= f) s = f a s' := by
  rw [bind_apply, h]

theorem bind_of_error {x : Attempt σ ε α} {f : α → Attempt σ ε β} {s s' : σ} {e : ε}
    (h : x s = (.error e, s')) : (x >>= f) s = (.error e, s') := by
  rw [bind_apply, h]

/-- A sequence succeeds when both parts do, the second from where the first ended. -/
theorem bind_eq_ok_iff {x : Attempt σ ε α} {f : α → Attempt σ ε β} {s t : σ} {b : β} :
    (x >>= f) s = (.ok b, t) ↔ ∃ a s', x s = (.ok a, s') ∧ f a s' = (.ok b, t) := by
  constructor
  · intro h
    rw [bind_apply] at h
    match hx : x s with
    | (.ok a, s') => exact ⟨a, s', rfl, by rwa [hx] at h⟩
    | (.error _, _) => rw [hx] at h; cases h
  · rintro ⟨a, s', hx, hf⟩
    rw [bind_of_ok hx, hf]

theorem length_of_times {x : Attempt σ ε α} {count : Nat} {s t : σ} {as : List α}
    (h : times x count s = (.ok as, t)) : as.length = count := by
  induction count generalizing s as with
  | zero =>
    cases h
    rfl
  | succ count ih =>
    obtain ⟨a, s', -, h⟩ := bind_eq_ok_iff.1 h
    obtain ⟨rest, s'', hrest, ⟨⟩⟩ := bind_eq_ok_iff.1 h
    rw [List.length_cons, ih hrest]

theorem ofExcept_eq_ok_iff {r : Except ε α} {s t : σ} {a : α} :
    (ofExcept r : Attempt σ ε α) s = (.ok a, t) ↔ r = .ok a ∧ t = s := by
  cases r <;> simp [ofExcept, eq_comm]

end Attempt

end Correlation

import Correlation.Proofs.Straight
/-!
# What decoding logs

Decoding never takes back a read or an event (`logs_decode`). Two runs of which one is cut short are compared
by `Decoder.Shortens`: the shorter one ends as the longer one does, or stops at a failure with a log that the
longer one goes on from.
-/

namespace Correlation

open Attempt Decoder

/-! ## Logs that go on -/

/-- The reads and events of `c` are the first ones of `c'`. -/
structure Cursor.Begins (c c' : Cursor) : Prop where
  reads : c.reads.toList <+: c'.reads.toList
  events : c.events.toList <+: c'.events.toList

namespace Cursor.Begins

theorem refl (c : Cursor) : c.Begins c :=
  ⟨List.prefix_refl _, List.prefix_refl _⟩

theorem trans {c c₁ c₂ : Cursor} (h : c.Begins c₁) (h' : c₁.Begins c₂) : c.Begins c₂ :=
  ⟨h.reads.trans h'.reads, h.events.trans h'.events⟩

/-- What was read since, as a list of its own. -/
theorem exists_reads {c c' : Cursor} (h : c.Begins c') : ∃ made : Array Span, c'.reads = c.reads ++ made := by
  obtain ⟨made, hmade⟩ := h.reads
  refine ⟨made.toArray, ?_⟩
  apply Array.toList_inj.1
  simpa using hmade.symm

end Cursor.Begins

namespace Decoder

variable {α β : Type}

/-- Whatever happens, the log goes on. -/
def Logs (d : Decoder α) : Prop :=
  ∀ c : Cursor, c.Begins (d c).2

/-! ## Decoders go on with the log -/

theorem logs_pure (a : α) : Logs (pure a : Decoder α) :=
  Cursor.Begins.refl

theorem logs_fail (e : Failure) : Logs (fail e : Decoder α) :=
  Cursor.Begins.refl

theorem logs_ofExcept (r : Except Failure α) : Logs (ofExcept r : Decoder α) := by
  cases r with
  | ok a => exact logs_pure a
  | error e => exact logs_fail e

theorem Logs.bind {x : Decoder α} {f : α → Decoder β} (hx : Logs x) (hf : ∀ a, Logs (f a)) : Logs (x >>= f) := by
  intro c
  have hfirst := hx c
  rw [bind_apply]
  match hrun : x c with
  | (.ok a, c₁) =>
    rw [hrun] at hfirst
    exact hfirst.trans (hf a c₁)
  | (.error e, c₁) => rwa [hrun] at hfirst

theorem Logs.times {x : Decoder α} (hx : Logs x) (count : Nat) : Logs (times x count) := by
  induction count with
  | zero => exact logs_pure []
  | succ count ih =>
    refine hx.bind ?_
    intro a
    exact ih.bind fun rest => logs_pure (a :: rest)

theorem logs_note (e : Event) : Logs (note e) := by
  intro c
  exact ⟨List.prefix_refl _, by simp [note]⟩

theorem logs_skip (count : Nat) : Logs (skip count) := by
  intro c
  unfold skip
  split
  · exact ⟨List.prefix_refl _, List.prefix_refl _⟩
  · exact Cursor.Begins.refl c

theorem logs_peek (source : Source) (count : Nat) : Logs (peek source count) := by
  intro c
  exact ⟨by simp [peek], List.prefix_refl _⟩

theorem logs_take (source : Source) (count : Nat) : Logs (take source count) := by
  refine (logs_peek source count).bind ?_
  intro bytes
  exact (logs_skip count).bind fun _ => logs_pure bytes

theorem Straight.logs {n : Nat} {d : Source → Decoder α} (h : Straight n d) (source : Source) : Logs (d source) := by
  induction h with
  | pure a => exact logs_pure a
  | position => exact Cursor.Begins.refl
  | note e => exact logs_note e
  | take count _ => exact logs_take source count
  | bind _ _ hx hf => exact hx.bind hf
  | weaken _ _ ih => exact ih

/-! ## Runs cut short -/

/-- The shorter run ends as the longer one does, or stops at a failure of some kind with a log that the longer
one goes on from. -/
def Shortens (stops : Failure → Prop) (x y : Decoder α) : Prop :=
  ∀ c : Cursor, x c = y c ∨ ∃ e c', stops e ∧ x c = (.error e, c') ∧ c'.Begins (y c).2

namespace Shortens

variable {stops : Failure → Prop} {x y : Decoder α}

theorem refl (x : Decoder α) : Shortens stops x x :=
  fun _ => .inl rfl

/-- Both runs do the same first, or the shorter one stops there; in the latter case the longer one goes on with
its second part, and with its log. -/
theorem bind {f g : α → Decoder β} (hx : Shortens stops x y) (hf : ∀ a, Shortens stops (f a) (g a))
    (hg : ∀ a, Logs (g a)) : Shortens stops (x >>= f) (y >>= g) := by
  intro c
  rcases hx c with heq | ⟨e, c', he, hrun, hlog⟩
  · match hy : y c with
    | (.ok a, c₁) =>
      rw [hy] at heq
      rw [bind_of_ok heq, bind_of_ok hy]
      exact hf a c₁
    | (.error e, c₁) =>
      rw [hy] at heq
      rw [bind_of_error heq, bind_of_error hy]
      exact .inl rfl
  · refine .inr ⟨e, c', he, bind_of_error hrun, hlog.trans ?_⟩
    match hy : y c with
    | (.ok a, c₁) =>
      rw [bind_of_ok hy]
      exact hg a c₁
    | (.error e, c₁) =>
      rw [bind_of_error hy]
      exact .refl c₁

/-- Both runs do the same first. -/
theorem after (x : Decoder α) {f g : α → Decoder β} (hf : ∀ a, Shortens stops (f a) (g a)) :
    Shortens stops (x >>= f) (x >>= g) := by
  intro c
  match hx : x c with
  | (.ok a, c₁) =>
    rw [bind_of_ok hx, bind_of_ok hx]
    exact hf a c₁
  | (.error e, c₁) =>
    rw [bind_of_error hx, bind_of_error hx]
    exact .inl rfl

theorem times (hx : Shortens stops x y) (hy : Logs y) (count : Nat) :
    Shortens stops (Attempt.times x count) (Attempt.times y count) := by
  induction count with
  | zero => exact refl _
  | succ count ih =>
    refine hx.bind ?_ ?_
    · intro a
      exact ih.bind (fun rest => refl _) fun rest => logs_pure (a :: rest)
    · intro a
      exact (hy.times count).bind fun rest => logs_pure (a :: rest)

end Shortens

end Decoder

namespace Wire

theorem logs_report (node : Expr) (start depth : Nat) :
    Logs (do
      note (.decoded node start depth)
      return node) :=
  (logs_note _).bind fun _ => logs_pure node

/-- An operator is built, if it can be, and then reported. -/
theorem logs_build (op : Operator) (field : Int16) (args : List Expr) (start depth : Nat) :
    Logs (do
      let node ← ofExcept (Expr.combine op field args)
      note (.decoded node start depth)
      return node) :=
  (logs_ofExcept _).bind fun node => logs_report node start depth

theorem logs_descend (source : Source) (limit levels : Nat) : Logs (descend source limit levels) := by
  induction levels with
  | zero => exact logs_fail _
  | succ levels ih =>
    rw [descend]
    refine (Straight.position.logs source).bind ?_
    intro start
    refine (straight_head.logs source).bind ?_
    intro h
    cases h with
    | leaf node => exact logs_report node _ _
    | operator op field arity => exact (ih.times arity).bind fun args => logs_build op field args _ _

theorem logs_decode (source : Source) (limit : Nat) : Logs (decode source limit) :=
  logs_descend source limit (limit + 1)

/-- One level of two descents that give a node the same depth: the shorter one may stop in the head or in an
argument. -/
theorem shortens_descend_succ {stops : Failure → Prop} {source source' : Source} {limit limit' levels levels' : Nat}
    (hdepth : limit - levels = limit' - levels') (hhead : Shortens stops (head source) (head source'))
    (hargs : Shortens stops (descend source limit levels) (descend source' limit' levels')) :
    Shortens stops (descend source limit (levels + 1)) (descend source' limit' (levels' + 1)) := by
  have hlogs := logs_descend source' limit' levels'
  rw [descend, descend, hdepth]
  refine .after position ?_
  intro start
  refine hhead.bind ?_ ?_
  · intro h
    cases h with
    | leaf node => exact .refl _
    | operator op field arity =>
      exact (hargs.times hlogs arity).bind (fun args => .refl _) fun args => logs_build op field args _ _
  · intro h
    cases h with
    | leaf node => exact logs_report node _ _
    | operator op field arity => exact (hlogs.times arity).bind fun args => logs_build op field args _ _

end Wire

end Correlation

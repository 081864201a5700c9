import Correlation.Proofs.Slots
/-!
# Ranges of slots

Slots are resolved one after the other, until all are done or one fails. So a range resolves to what its slots resolve
to, in order, or fails as the first of them does that fails, and nothing is read for the slots behind that one
(`resolveRange_cases`).
-/

namespace Correlation

open Attempt Decoder

namespace SlotTable

variable {image : Image} {table : SlotTable} {limit : Nat}

/-! ## What is read for slots -/

/-- What is read for a slot. -/
def asked (image : Image) (table : SlotTable) (limit : Nat) (index : Int) : Array Span :=
  (resolve image table limit index ⟨0, #[], #[]⟩).2.reads

/-- What is read for so many slots from an index on. -/
def askedFrom (image : Image) (table : SlotTable) (limit : Nat) (index : Int) : Nat → Array Span
  | 0 => #[]
  | count + 1 => asked image table limit index ++ askedFrom image table limit (index + 1) count

/-- Wherever the cursor stands, the same is read and the same comes out. -/
theorem resolve_of_answer {index : Int} {r : Except Failure Expr} (h : answer image table limit index = r)
    (c : Cursor) :
    ∃ c', resolve image table limit index c = (r, c') ∧ c'.reads = c.reads ++ asked image table limit index := by
  obtain ⟨result, reads, events, hrun⟩ := fixed_resolve image table limit index
  rw [answer, hrun] at h
  rw [asked, hrun, hrun, ← h, Array.empty_append]
  exact ⟨_, rfl, rfl⟩

/-! ## Slots in a row -/

/-- So many slots from an index on resolve to these trees: all of them, or those in front of the first that fails. -/
inductive Resolves (image : Image) (table : SlotTable) (limit : Nat) :
    Int → Nat → List Expr → Option Failure → Prop where
  | done (index : Int) : Resolves image table limit index 0 [] none
  | failed {index : Int} {f : Failure} (count : Nat) : answer image table limit index = .error f →
    Resolves image table limit index (count + 1) [] (some f)
  | next {index : Int} {e : Expr} {count : Nat} {es : List Expr} {stop : Option Failure} :
    answer image table limit index = .ok e → Resolves image table limit (index + 1) count es stop →
    Resolves image table limit index (count + 1) (e :: es) stop

theorem exists_resolves (image : Image) (table : SlotTable) (limit : Nat) (index : Int) (count : Nat) :
    ∃ es stop, Resolves image table limit index count es stop := by
  induction count generalizing index with
  | zero => exact ⟨[], none, .done index⟩
  | succ count ih =>
    match hfirst : answer image table limit index with
    | .error f => exact ⟨[], some f, .failed count hfirst⟩
    | .ok e =>
      obtain ⟨es, stop, hrest⟩ := ih (index + 1)
      exact ⟨e :: es, stop, .next hfirst hrest⟩

namespace Resolves

variable {index : Int} {count : Nat} {es : List Expr} {stop : Option Failure}

theorem answer_getElem (h : Resolves image table limit index count es stop) {i : Nat} (hi : i < es.length) :
    answer image table limit (index + i) = .ok es[i] := by
  induction h generalizing i with
  | done index => exact absurd hi (Nat.not_lt_zero i)
  | failed count _ => exact absurd hi (Nat.not_lt_zero i)
  | next hfirst _ ih =>
    cases i with
    | zero => simpa using hfirst
    | succ i =>
      have hrest := ih (Nat.lt_of_succ_lt_succ hi)
      rw [Int.add_assoc, Int.add_comm 1, ← Int.natCast_succ] at hrest
      exact hrest

/-- All slots are done, or the one behind the last tree fails. -/
theorem ends (h : Resolves image table limit index count es stop) :
    es.length = count ∧ stop = none ∨
      ∃ f, es.length < count ∧ answer image table limit (index + es.length) = .error f ∧ stop = some f := by
  induction h with
  | done index => exact .inl ⟨rfl, rfl⟩
  | failed count hfirst => exact .inr ⟨_, Nat.succ_pos count, by simpa using hfirst, rfl⟩
  | next _ _ ih =>
    rcases ih with ⟨hlength, hstop⟩ | ⟨f, hlength, hanswer, hstop⟩
    · exact .inl ⟨congrArg Nat.succ hlength, hstop⟩
    · refine .inr ⟨f, Nat.succ_lt_succ hlength, ?_, hstop⟩
      rw [Int.add_assoc, Int.add_comm 1, ← Int.natCast_succ] at hanswer
      exact hanswer

/-- Collecting the slots gives their trees, or the failure. -/
theorem resolveFrom_eq (h : Resolves image table limit index count es stop) (found : Array Expr) (c : Cursor) :
    (resolveFrom image table limit found index count c).1 = stop.elim (.ok (found ++ es.toArray)) .error := by
  induction h generalizing found c with
  | done index => simp [resolveFrom]
  | @failed index f count hfirst =>
    obtain ⟨c', hrun, -⟩ := resolve_of_answer hfirst c
    rw [resolveFrom, bind_of_error hrun]
    rfl
  | @next index e count es stop hfirst _ ih =>
    obtain ⟨c', hrun, -⟩ := resolve_of_answer hfirst c
    have hfound : found.push e ++ es.toArray = found ++ (e :: es).toArray := by simp
    rw [resolveFrom, bind_of_ok hrun, ih, hfound]

/-- The slots in front of the first that fails are read for, and that one. -/
theorem reads_resolveFrom (h : Resolves image table limit index count es stop) (found : Array Expr) (c : Cursor) :
    (resolveFrom image table limit found index count c).2.reads =
      c.reads ++ askedFrom image table limit index (es.length + stop.toList.length) := by
  induction h generalizing found c with
  | done index => simp [resolveFrom, askedFrom]
  | @failed index f count hfirst =>
    obtain ⟨c', hrun, hreads⟩ := resolve_of_answer hfirst c
    rw [resolveFrom, bind_of_error hrun, hreads]
    simp [askedFrom]
  | @next index e count es stop hfirst _ ih =>
    obtain ⟨c', hrun, hreads⟩ := resolve_of_answer hfirst c
    rw [resolveFrom, bind_of_ok hrun, ih, hreads, List.length_cons, Nat.add_right_comm, askedFrom, Array.append_assoc]

/-- Further slots are resolved behind the last one that is done. -/
theorem append {more : Nat} {fs : List Expr} (h : Resolves image table limit index count es none)
    (h' : Resolves image table limit (index + count) more fs stop) :
    Resolves image table limit index (count + more) (es ++ fs) stop := by
  generalize hnone : (none : Option Failure) = first at h
  induction h with
  | done index => simpa using h'
  | failed count hfirst => cases hnone
  | @next index e count es first hfirst _ ih =>
    have hindex : index + (count + 1 : Nat) = index + 1 + count := by omega
    rw [hindex] at h'
    rw [Nat.add_right_comm]
    exact .next hfirst (ih h' hnone)

/-- Behind a slot that fails, it does not matter how many there are. -/
theorem longer {f : Failure} (h : Resolves image table limit index count es (some f)) (more : Nat) :
    Resolves image table limit index (count + more) es (some f) := by
  generalize hsome : some f = first at h
  induction h with
  | done index => cases hsome
  | @failed index f' count hfirst =>
    rw [Nat.add_right_comm]
    exact .failed _ hfirst
  | @next index e count es first hfirst _ ih =>
    rw [Nat.add_right_comm]
    exact .next hfirst (ih hsome)

end Resolves

/-! ## Main theorem -/

variable {start middle stop : Int}

theorem resolveRange_of_resolves {es : List Expr} {first : Option Failure}
    (h : Resolves image table limit start (stop - start).toNat es first) (c : Cursor) :
    (resolveRange image table limit start stop c).1 = first.elim (.ok es.toArray) .error := by
  rw [resolveRange, h.resolveFrom_eq, Array.empty_append]

/-- A range is resolved from its first part and its second. -/
theorem resolveRange_split (hmiddle : start ≤ middle) (hstop : middle ≤ stop) (c : Cursor) :
    (resolveRange image table limit start stop c).1 = do
      let es ← (resolveRange image table limit start middle c).1
      let fs ← (resolveRange image table limit middle stop c).1
      return es ++ fs := by
  obtain ⟨es, first, hes⟩ := exists_resolves image table limit start (middle - start).toNat
  obtain ⟨fs, second, hfs⟩ := exists_resolves image table limit middle (stop - middle).toNat
  have hcount : (stop - start).toNat = (middle - start).toNat + (stop - middle).toNat := by omega
  have hindex : middle = start + (middle - start).toNat := by omega
  rw [resolveRange_of_resolves hes, resolveRange_of_resolves hfs]
  cases first with
  | some f =>
    have hall := hes.longer (stop - middle).toNat
    rw [← hcount] at hall
    rw [resolveRange_of_resolves hall]
    rfl
  | none =>
    have hall := hes.append (by rwa [← hindex])
    rw [← hcount] at hall
    rw [resolveRange_of_resolves hall]
    cases second with
    | none => simp [pure, Except.pure, bind, Except.bind]
    | some f => rfl

/-- A range resolves exactly if all its slots do, and then to their trees, in order; else it fails as the first slot does
that fails. What is read is what is read for the slots up to there, in order, and nothing for those behind it. So a
range that is split resolves to the trees of its first part and those of its second, or fails as the first of the two
does that fails. -/
theorem resolveRange_cases (image : Image) (table : SlotTable) (limit : Nat) (start stop : Int) (c : Cursor) :
    ∃ r c', resolveRange image table limit start stop c = (r, c') ∧
      ((∃ found, r = .ok found) ↔
        ∀ index, start ≤ index → index < stop → ∃ e, answer image table limit index = .ok e) ∧
      (∀ found, r = .ok found →
        (found.size : Int) = max 0 (stop - start) ∧
          (∀ i (hi : i < found.size), answer image table limit (start + i) = .ok found[i]) ∧
          c'.reads = c.reads ++ askedFrom image table limit start found.size) ∧
      (∀ f, r = .error f →
        ∃ before : Nat, start + before < stop ∧
          (∀ i < before, ∃ e, answer image table limit (start + i) = .ok e) ∧
          answer image table limit (start + before) = .error f ∧
          c'.reads = c.reads ++ askedFrom image table limit start (before + 1)) ∧
      ∀ middle, start ≤ middle → middle ≤ stop →
        r = do
          let es ← (resolveRange image table limit start middle c).1
          let fs ← (resolveRange image table limit middle stop c).1
          return es ++ fs := by
  obtain ⟨es, first, hes⟩ := exists_resolves image table limit start (stop - start).toNat
  obtain ⟨r, c', hrun⟩ : ∃ r c', resolveRange image table limit start stop c = (r, c') := ⟨_, _, rfl⟩
  have hresult : (resolveRange image table limit start stop c).1 = _ := resolveRange_of_resolves hes c
  have hreads : (resolveRange image table limit start stop c).2.reads = _ := hes.reads_resolveFrom #[] c
  rw [hrun] at hresult hreads
  obtain rfl : r = _ := hresult
  refine ⟨_, c', hrun, ?_, ?_, ?_, fun middle hmiddle hstop => ?_⟩
  · rcases hes.ends with ⟨hlength, rfl⟩ | ⟨f, hlength, hanswer, rfl⟩
    · refine ⟨fun _ index hfrom hto => ?_, fun _ => ⟨_, rfl⟩⟩
      obtain ⟨i, rfl⟩ := Int.le.dest hfrom
      exact ⟨_, hes.answer_getElem (i := i) (by omega)⟩
    · refine ⟨nofun, fun hall => ?_⟩
      obtain ⟨e, he⟩ := hall (start + es.length) (by omega) (by omega)
      exact absurd (hanswer.symm.trans he) nofun
  · rintro found hfound
    rcases hes.ends with ⟨hlength, rfl⟩ | ⟨f, -, -, rfl⟩
    · obtain rfl : es.toArray = found := Except.ok.inj hfound
      refine ⟨?_, fun i hi => hes.answer_getElem hi, hreads⟩
      rw [List.size_toArray]
      omega
    · cases hfound
  · rintro f hf
    rcases hes.ends with ⟨-, rfl⟩ | ⟨f', hlength, hanswer, rfl⟩
    · cases hf
    · cases hf
      exact ⟨es.length, by omega, fun i hi => ⟨_, hes.answer_getElem hi⟩, hanswer, hreads⟩
  · rw [← resolveRange_split hmiddle hstop c, hrun]

/-- Slot 2 leads nowhere. So the range around the slots in front of it fails there, and what is read are those slots,
the one before the table among them, and slot 2. -/
theorem resolveRange_cases_sample :
    (resolveRange nearSlots ⟨some 0, some 4⟩ 128 (-1) 2 ⟨0, #[], #[]⟩).1 = .ok #[.absent, .var 8 0x20, .absent] ∧
      (resolveRange nearSlots ⟨some 0, some 4⟩ 128 2 5 ⟨0, #[], #[]⟩).1 = .error (.outOfBounds 0x807 1 8) ∧
      ∃ (c : Cursor) (before : Nat),
        resolveRange nearSlots ⟨some 0, some 4⟩ 128 (-1) 5 ⟨0, #[], #[]⟩ = (.error (.outOfBounds 0x807 1 8), c) ∧
        -1 + (before : Int) < 5 ∧
        (∀ i < before, ∃ e, answer nearSlots ⟨some 0, some 4⟩ 128 (-1 + i) = .ok e) ∧
        answer nearSlots ⟨some 0, some 4⟩ 128 (-1 + before) = .error (.outOfBounds 0x807 1 8) ∧
        c.reads = #[] ++ askedFrom nearSlots ⟨some 0, some 4⟩ 128 (-1) (before + 1) := by
  have hfront : (resolveRange nearSlots ⟨some 0, some 4⟩ 128 (-1) 2 ⟨0, #[], #[]⟩).1 =
      .ok #[.absent, .var 8 0x20, .absent] := by decide +kernel
  have hback : (resolveRange nearSlots ⟨some 0, some 4⟩ 128 2 5 ⟨0, #[], #[]⟩).1 =
      .error (.outOfBounds 0x807 1 8) := by decide +kernel
  obtain ⟨r, c, hrun, -, -, hfailed, hsplit⟩ :=
    resolveRange_cases nearSlots ⟨some 0, some 4⟩ 128 (-1) 5 ⟨0, #[], #[]⟩
  have hr := hsplit 2 (by decide) (by decide)
  rw [hfront, hback] at hr
  obtain rfl : r = .error (.outOfBounds 0x807 1 8) := hr
  obtain ⟨before, hbefore⟩ := hfailed _ rfl
  exact ⟨hfront, hback, c, before, hrun, hbefore⟩

end SlotTable

end Correlation

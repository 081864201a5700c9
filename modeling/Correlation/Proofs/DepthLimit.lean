import Correlation.Proofs.Logs
import Correlation.Proofs.RoundTrip
/-!
# The depth limit

What raising the limit changes (`decode_of_limit_le`): nothing, unless the limit was what ended the run. Then
the run under the higher limit goes on from there, and a tree that it ends with has more levels than the lower
limit allows.
-/

namespace Correlation

open Attempt Decoder

namespace Wire

/-- The same descent under a higher limit, with so many more levels to go, is only cut short by the lower one. -/
theorem shortens_descend (image : Image) (limit levels extra : Nat) :
    Shortens (· = .tooDeep limit) (descend image limit levels) (descend image (limit + extra) (levels + extra)) := by
  induction levels with
  | zero =>
    intro c
    exact .inr ⟨.tooDeep limit, c, rfl, rfl, logs_descend image _ _ c⟩
  | succ levels ih =>
    rw [Nat.add_right_comm]
    exact shortens_descend_succ (Nat.add_sub_add_right ..).symm (.refl _) ih

theorem shortens_decode (image : Image) {limit limit' : Nat} (h : limit ≤ limit') :
    Shortens (· = .tooDeep limit) (decode image limit) (decode image limit') := by
  obtain ⟨extra, rfl⟩ := Nat.exists_eq_add_of_le h
  have hrun := shortens_descend image limit (limit + 1) extra
  rwa [Nat.add_right_comm] at hrun

/-! ## Main theorem -/

/-- Under a higher limit: a run that the lower limit did not end is the same, result, position and log alike;
whatever is read under the lower limit is read first; and a tree comes out under the lower limit too when it has
few enough levels, and is refused for its depth when it has not. -/
theorem decode_of_limit_le (image : Image) {limit limit' : Nat} (h : limit ≤ limit') (c : Cursor) :
    ((∀ l, (decode image limit c).1 ≠ .error (.tooDeep l)) → decode image limit' c = decode image limit c) ∧
      (∃ made more : Array Span, (decode image limit c).2.reads = c.reads ++ made ∧
        (decode image limit' c).2.reads = c.reads ++ made ++ more) ∧
      ∀ t, (decode image limit' c).1 = .ok t →
        (t.depth ≤ limit + 1 → (decode image limit c).1 = .ok t) ∧
          (limit + 1 < t.depth → (decode image limit c).1 = .error (.tooDeep limit)) := by
  refine ⟨?_, ?_, ?_⟩
  · intro hshallow
    rcases shortens_decode image h c with heq | ⟨_, c', rfl, hrun, -⟩
    · exact heq.symm
    · exact absurd (congrArg Prod.fst hrun) (hshallow limit)
  · obtain ⟨made, hmade⟩ := (logs_decode image limit c).exists_reads
    have hbegins : (decode image limit c).2.Begins (decode image limit' c).2 := by
      rcases shortens_decode image h c with heq | ⟨_, c', -, hrun, hlog⟩
      · rw [heq]
        exact .refl _
      · rwa [hrun]
    obtain ⟨more, hmore⟩ := hbegins.exists_reads
    exact ⟨made, more, hmade, by rw [hmore, hmade]⟩
  · intro t ht
    obtain ⟨⟨hrep, -⟩, hbytes, -⟩ := decode_eq_ok_iff.1 (Prod.ext ht rfl : decode image limit' c = (.ok t, _))
    have hrun : (decode image limit c).1 = if t.depth ≤ limit + 1 then .ok t else .error (.tooDeep limit) :=
      decode_of_readable hrep hbytes
    constructor
    · intro hdepth
      rwa [if_pos hdepth] at hrun
    · intro hdepth
      rwa [if_neg (Nat.not_le_of_lt hdepth)] at hrun

/-- A tree of three levels comes out under limit 2, where the default limit changes nothing, and is cut short
under limit 1. -/
theorem decode_of_limit_le_sample :
    (1 ≤ 2 ∧ 2 ≤ defaultDepthLimit) ∧
      (decode (Image.ofBytes sampleBytes) 2 ⟨2, #[], #[]⟩).1 = .ok sample ∧
      decode (Image.ofBytes sampleBytes) defaultDepthLimit ⟨2, #[], #[]⟩ =
        decode (Image.ofBytes sampleBytes) 2 ⟨2, #[], #[]⟩ ∧
      (decode (Image.ofBytes sampleBytes) 1 ⟨2, #[], #[]⟩).1 = .error (.tooDeep 1) ∧
      ∃ made more : Array Span, (decode (Image.ofBytes sampleBytes) 1 ⟨2, #[], #[]⟩).2.reads = #[] ++ made ∧
        (decode (Image.ofBytes sampleBytes) 2 ⟨2, #[], #[]⟩).2.reads = #[] ++ made ++ more := by
  have hlow : 1 ≤ 2 := by decide
  have hhigh : 2 ≤ defaultDepthLimit := by decide
  have hok : (decode (Image.ofBytes sampleBytes) 2 ⟨2, #[], #[]⟩).1 = .ok sample := by
    rw [decode_eq_ok_iff.2 ⟨⟨representable_sample, Nat.le_of_eq depth_sample⟩, readable_sample, rfl⟩]
  have hshallow : ∀ l, (decode (Image.ofBytes sampleBytes) 2 ⟨2, #[], #[]⟩).1 ≠ .error (.tooDeep l) := by
    intro l
    rw [hok]
    exact nofun
  obtain ⟨hsame, -, -⟩ := decode_of_limit_le (.ofBytes sampleBytes) hhigh ⟨2, #[], #[]⟩
  obtain ⟨-, hreads, hcut⟩ := decode_of_limit_le (.ofBytes sampleBytes) hlow ⟨2, #[], #[]⟩
  have hdeep : 1 + 1 < sample.depth := by
    rw [depth_sample]
    decide
  exact ⟨⟨hlow, hhigh⟩, hok, hsame hshallow, (hcut sample hok).2 hdeep, hreads⟩

end Wire

end Correlation

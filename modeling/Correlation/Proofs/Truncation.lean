import Correlation.Proofs.Endings
import Correlation.Proofs.Logs
/-!
# Truncated images

An image that is cut off decodes as the whole one does, up to the first read that asks for a byte behind the cut. So
an expression that is cut off is reported as such, at the field that the first missing byte belongs to
(`decode_truncated`).
-/

namespace Correlation

open Attempt Decoder Wire

/-! ## Bytes in front of a cut -/

namespace Image

/-- The first bytes of an image, mapped at the same base. -/
def truncated (image : Image) (kept : Nat) : Image :=
  { image with bytes := image.bytes.take kept }

theorem size_truncated (image : Image) (kept : Nat) : (image.truncated kept).size = min kept image.size := by
  simp [truncated, size]

theorem holds_truncated {image : Image} {kept a : Nat} :
    (image.truncated kept).Holds a ↔ image.Holds a ∧ a < image.base + kept := by
  have hbase : (image.truncated kept).base = image.base := rfl
  unfold Holds
  rw [size_truncated, hbase]
  omega

theorem stores_of_truncated {image : Image} {kept address : Nat} {bytes : List UInt8}
    (h : (image.truncated kept).Stores address bytes) : image.Stores address bytes := by
  obtain ⟨before, after, hbytes, haddress⟩ := h
  refine ⟨before, after ++ image.bytes.toList.drop kept, ?_, haddress⟩
  rw [← List.append_assoc, ← hbytes]
  simp [truncated]

/-- What a read finds in front of the cut, it finds in the whole image. -/
theorem read_of_truncated {image : Image} {kept address count : Nat} {bytes : List UInt8}
    (h : (image.truncated kept).read address count = .ok bytes) : image.read address count = .ok bytes := by
  obtain ⟨hlength, hstores⟩ := read_eq_ok_iff.1 h
  exact read_eq_ok_iff.2 ⟨hlength, stores_of_truncated hstores⟩

end Image

/-- Asks for bytes of an image that has only so many. -/
def Failure.Missing (available : Nat) (e : Failure) : Prop :=
  ∃ address size, e = outOfBounds address size available

open Failure (Missing)

/-! ## Decoding in front of a cut -/

namespace Decoder

theorem shortens_peek (image : Image) (kept count : Nat) :
    Shortens (Missing (image.truncated kept).size) (peek (image.truncated kept) count) (peek image count) := by
  intro c
  match hread : (image.truncated kept).read c.position count with
  | .ok bytes =>
    left
    rw [peek_ofImage, peek_ofImage, hread, Image.read_of_truncated hread]
  | .error e =>
    have he : Missing (image.truncated kept).size e := ⟨_, _, Image.outOfBounds_of_read hread⟩
    have hpeek : peek (image.truncated kept) count c = (.error e, (peek image count c).2) := by
      rw [peek_ofImage, hread]
      rfl
    exact .inr ⟨e, _, he, hpeek, .refl _⟩

/-- Straight readers stop for missing bytes alone. -/
theorem Straight.shortens {α : Type} {n : Nat} {d : Source → Decoder α} (h : Straight n d) (image : Image)
    (kept : Nat) : Shortens (Missing (image.truncated kept).size) (d (image.truncated kept)) (d image) := by
  induction h with
  | pure a => exact .refl _
  | position => exact .refl _
  | note e => exact .refl _
  | take count _ =>
    refine (shortens_peek image kept count).bind (fun bytes => .refl _) ?_
    intro bytes
    exact (logs_skip count).bind fun _ => logs_pure bytes
  | bind _ hf ihx ihf => exact ihx.bind ihf fun a => (hf a).logs image
  | weaken _ _ ih => exact ih

end Decoder

namespace Wire

theorem shortens_descend_truncated (image : Image) (kept limit levels : Nat) :
    Shortens (Missing (image.truncated kept).size) (descend (image.truncated kept) limit levels)
      (descend image limit levels) := by
  induction levels with
  | zero => exact .refl _
  | succ levels ih => exact shortens_descend_succ rfl (straight_head.shortens image kept) ih

/-- Decoding ends within the bytes, and below the last address. -/
theorem position_le_of_decode {bytes : Array UInt8} {limit : Nat} {c c' : Cursor} {t : Expr}
    (h : decode (Image.ofBytes bytes) limit c = (.ok t, c')) : c'.position ≤ bytes.size ∧ c'.position < addressSpace := by
  obtain ⟨-, hbytes, rfl⟩ := decode_eq_ok_iff.1 h
  rw [position_walk]
  exact ⟨(extract_of_stores hbytes.stores).1, hbytes.past⟩

/-! ## Main theorem -/

/-- Where an expression is cut off, decoding it reports the first bytes that are missing: those of a field that is
read when all bytes are there, and the byte behind the cut is one of them. -/
theorem decode_truncated {bytes : Array UInt8} {limit kept : Nat} {c c' : Cursor} {t : Expr}
    (h : decode (Image.ofBytes bytes) limit c = (.ok t, c')) (hfrom : c.position ≤ kept) (hto : kept < c'.position) :
    ∃ address size cut,
      decode (Image.ofBytes (bytes.take kept)) limit c = (.error (.outOfBounds address size kept), cut) ∧
        cut.position = address ∧ c.position ≤ address ∧ address ≤ kept ∧ kept < address + size ∧
        ∃ made : Array Span, ⟨address, size⟩ ∈ made ∧ c'.reads = c.reads ++ made := by
  obtain ⟨hbytes, hend⟩ := position_le_of_decode h
  have hsize : ((Image.ofBytes bytes).truncated kept).size = kept := by
    rw [Image.size_truncated]
    exact Nat.min_eq_left (show kept ≤ bytes.size by omega)
  have hcut := shortens_descend_truncated (.ofBytes bytes) kept limit (limit + 1) c
  rw [← decode, ← decode, hsize] at hcut
  rcases hcut with hsame | ⟨_, cut, ⟨address, size, rfl⟩, hrun, hlog⟩
  · -- The whole tree does not fit in front of the cut.
    have hkept : c'.position ≤ ((Image.ofBytes bytes).truncated kept).size :=
      (position_le_of_decode (hsame.trans h)).1
    omega
  · have hspace : 0 + ((Image.ofBytes bytes).truncated kept).size < addressSpace := by omega
    obtain ⟨-, hposition, hstart, hthere, ⟨a, hlow, hhigh, hmissing⟩, made, hmade⟩ := missing_of_decode hspace hrun
    have hfirst : address ≤ kept := by
      refine Nat.le_of_not_lt fun hbehind => ?_
      have hheld := (Image.holds_truncated.1 (hthere kept hfrom hbehind)).2
      simp only [Image.ofBytes] at hheld
      omega
    have hlast : kept < address + size := by
      refine Nat.lt_of_not_le fun hbefore => hmissing (Image.holds_truncated.2 ?_)
      simp only [Image.Holds, Image.ofBytes, Image.size]
      omega
    obtain ⟨more, hmore⟩ := hlog.exists_reads
    rw [h, hmade, Array.append_assoc] at hmore
    exact ⟨address, size, cut, hrun, hposition, hstart, hfirst, hlast, _, by simp, hmore⟩

/-- Cut off within the value of its 64-bit constant, the sample lacks that value. -/
theorem decode_truncated_sample :
    (decode (Image.ofBytes (sampleBytes.take 14)) 2 ⟨2, #[], #[]⟩).1 = .error (.outOfBounds 10 8 14) ∧
      ∃ c', decode (Image.ofBytes sampleBytes) 2 ⟨2, #[], #[]⟩ = (.ok sample, c') ∧ 2 ≤ 14 ∧ 14 < c'.position ∧
        ∃ address size cut,
          decode (Image.ofBytes (sampleBytes.take 14)) 2 ⟨2, #[], #[]⟩ = (.error (.outOfBounds address size 14), cut) ∧
            cut.position = address ∧ 2 ≤ address ∧ address ≤ 14 ∧ 14 < address + size ∧
            ∃ made : Array Span, ⟨address, size⟩ ∈ made ∧ c'.reads = #[] ++ made := by
  have hrun : decode (Image.ofBytes sampleBytes) 2 ⟨2, #[], #[]⟩ = (.ok sample, Cursor.walk ⟨2, #[], #[]⟩ 0 sample) :=
    decode_eq_ok_iff.2 ⟨⟨representable_sample, Nat.le_of_eq depth_sample⟩, readable_sample, rfl⟩
  have hfrom : 2 ≤ 14 := by decide
  have hto : 14 < (Cursor.walk ⟨2, #[], #[]⟩ 0 sample).position := by
    rw [position_walk]
    decide
  exact ⟨by decide +kernel, _, hrun, hfrom, hto, decode_truncated hrun hfrom hto⟩

end Wire

end Correlation

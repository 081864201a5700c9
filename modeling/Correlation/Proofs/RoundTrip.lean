import Correlation.Proofs.Reading
/-!
# Decoding and encoding undo each other

`decode_encode`: the bytes of a representable tree decode to that tree, whatever stands around them.
`encode_of_decode`: whatever decodes is the bytes of the tree that comes out. Both hold for every limit that the
tree respects, and both are readings of `decode_eq_ok_iff`.
-/

namespace Correlation

namespace Wire

theorem readable_between (before bytes after : List UInt8)
    (hsize : (before ++ bytes ++ after).length ≤ Image.greatestSize) :
    (Image.ofBytes (before ++ bytes ++ after).toArray).Readable before.length bytes := by
  have hspace : Image.greatestSize < addressSpace := by decide
  have hpast : 0 + (before ++ bytes ++ after).toArray.size < addressSpace := by
    rw [List.size_toArray]
    omega
  have hbytes : (Image.ofBytes (before ++ bytes ++ after).toArray).bytes.toList = before ++ bytes ++ after := rfl
  have h := Image.readable_of_eq hbytes hpast
  rwa [Image.ofBytes, Nat.zero_add] at h

/-- The bytes that stand at an address, cut out again. -/
theorem extract_of_stores {bytes : Array UInt8} {address : Nat} {found : List UInt8}
    (h : (Image.ofBytes bytes).Stores address found) :
    address + found.length ≤ bytes.size ∧ (bytes.extract address (address + found.length)).toList = found := by
  obtain ⟨before, after, hbytes, haddress⟩ := h
  obtain rfl : bytes = (before ++ found ++ after).toArray := by
    apply Array.toList_inj.1
    simpa [Image.ofBytes] using hbytes
  obtain rfl : address = before.length := by simpa [Image.ofBytes] using haddress
  exact ⟨by simp, by simp⟩

theorem ownSize_pos {e : Expr} (h : Representable e) : 0 < ownSize e := by
  cases h <;> exact Nat.succ_pos _

theorem length_encode_pos {e : Expr} (h : Representable e) : 0 < (encode e).length := by
  have hown := ownSize_pos h
  rw [encode_eq, List.length_append, length_ownBytes]
  omega

/-! ## Main theorems -/

/-- A representable tree of few enough levels, written between any other bytes, is decoded from there, and the
cursor ends past its last byte. -/
theorem decode_encode {t : Expr} (ht : Representable t) {limit : Nat} (hdepth : t.depth ≤ limit + 1)
    (before after : List UInt8) (hsize : (before ++ encode t ++ after).length ≤ Image.greatestSize)
    (c : Cursor) (hc : c.position = before.length) :
    ∃ c', decode (Image.ofBytes (before ++ encode t ++ after).toArray) limit c = (.ok t, c') ∧
      c'.position = before.length + (encode t).length := by
  refine ⟨c.walk 0 t, decode_eq_ok_iff.2 ⟨⟨ht, hdepth⟩, ?_, rfl⟩, ?_⟩
  · rw [hc]
    exact readable_between before _ after hsize
  · rw [position_walk, hc]

/-- A ternary operator over a negative 64-bit constant, an operator whose code has no arity, and a difference of
a variable and a negative 32-bit constant. -/
def sample : Expr :=
  .operator .conditional 0
    [.const .bits64 0x0b 0 (-7), .invalid (.unsupportedOperator 0x29 0x1234),
      .operator .minus (-2) [.var 0x08 (-4), .const32 0x08 0 (-1)]]

theorem representable_sample : Representable sample := by
  refine .operator _ _ _ rfl ?_
  simp only [List.forall_mem_cons]
  refine ⟨.const64 _ _ _, .unsupportedOperator _ _ (by decide), .operator _ _ _ rfl ?_, nofun⟩
  simp only [List.forall_mem_cons]
  exact ⟨.var _ _, .const32 _ _ _, nofun⟩

theorem depth_sample : sample.depth = 3 := by
  rw [Expr.depth_eq_height]
  rfl

/-- The bytes of `sample`, behind two bytes that look like tags and before a padding byte. -/
def sampleBytes : Array UInt8 :=
  #[0x04, 0x01,
    0x04, 0x2b, 0x00, 0x00,
    0x02, 0x0b, 0x00, 0x00, 0xf9, 0xff, 0xff, 0xff, 0xff, 0xff, 0xff, 0xff,
    0x04, 0x29, 0x34, 0x12,
    0x04, 0x0f, 0xfe, 0xff, 0x03, 0x08, 0xfc, 0xff, 0x01, 0x08, 0x00, 0x00, 0xff, 0xff, 0xff, 0xff,
    0x05]

theorem sampleBytes_eq : sampleBytes = ([0x04, 0x01] ++ encode sample ++ [0x05]).toArray := by
  decide

theorem readable_sample : (Image.ofBytes sampleBytes).Readable 2 (encode sample) := by
  rw [sampleBytes_eq]
  exact readable_between [0x04, 0x01] (encode sample) [0x05] (by decide)

theorem decode_encode_sample :
    Representable sample ∧ sample.depth ≤ 2 + 1 ∧
      ([0x04, 0x01] ++ encode sample ++ [0x05]).length ≤ Image.greatestSize ∧
      ∃ c', decode (Image.ofBytes sampleBytes) 2 ⟨2, #[], #[]⟩ = (.ok sample, c') ∧ c'.position = 38 := by
  have hdepth : sample.depth ≤ 2 + 1 := Nat.le_of_eq depth_sample
  have hsize : ([0x04, 0x01] ++ encode sample ++ [0x05]).length ≤ Image.greatestSize := by decide
  rw [sampleBytes_eq]
  exact ⟨representable_sample, hdepth, hsize,
    decode_encode representable_sample hdepth [0x04, 0x01] [0x05] hsize ⟨2, #[], #[]⟩ rfl⟩

/-- What decodes is representable and within the limit, and the bytes that were passed are its encoding. -/
theorem encode_of_decode {bytes : Array UInt8} {limit : Nat} {c c' : Cursor} {t : Expr}
    (h : decode (Image.ofBytes bytes) limit c = (.ok t, c')) :
    c.position < c'.position ∧ c'.position ≤ bytes.size ∧
      (bytes.extract c.position c'.position).toList = encode t ∧ t.depth ≤ limit + 1 ∧ Representable t := by
  obtain ⟨⟨ht, hdepth⟩, hbytes, rfl⟩ := decode_eq_ok_iff.1 h
  obtain ⟨hsize, hextract⟩ := extract_of_stores hbytes.stores
  have hpos := length_encode_pos ht
  rw [position_walk]
  exact ⟨by omega, hsize, hextract, hdepth, ht⟩

theorem encode_of_decode_sample :
    ∃ c', decode (Image.ofBytes sampleBytes) 2 ⟨2, #[], #[]⟩ = (.ok sample, c') ∧
      2 < c'.position ∧ c'.position ≤ sampleBytes.size ∧
      (sampleBytes.extract 2 c'.position).toList = encode sample ∧ sample.depth ≤ 2 + 1 ∧
      Representable sample := by
  have hbytes : (Image.ofBytes sampleBytes).Readable 2 (encode sample) := by
    rw [sampleBytes_eq]
    exact readable_between [0x04, 0x01] (encode sample) [0x05] (by decide)
  have hrun : decode (Image.ofBytes sampleBytes) 2 ⟨2, #[], #[]⟩ =
      (.ok sample, Cursor.walk ⟨2, #[], #[]⟩ 0 sample) :=
    decode_eq_ok_iff.2 ⟨⟨representable_sample, Nat.le_of_eq depth_sample⟩, hbytes, rfl⟩
  exact ⟨_, hrun, encode_of_decode hrun⟩

end Wire

end Correlation

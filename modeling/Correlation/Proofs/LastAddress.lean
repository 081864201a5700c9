import Correlation.Proofs.Overflow
import Correlation.Proofs.Relocation
import Correlation.Proofs.Truncation
/-!
# The last address

An image can fill the address space up to the last address, and the byte there can be read. It is the one byte of an
image that is not contained (`contains_iff_readable`), for want of an address behind it that could be the image's
limit, and the one byte that no field can end with, for want of an address behind it that a cursor could move to. So an
expression that ends at the last address is not decoded there, and every other one is (`decode_below_last`).
-/

namespace Correlation

open Attempt Decoder Wire

/-! ## What an image contains -/

namespace Image

variable {image : Image} {address : Nat}

theorem read_one {i : Nat} (hi : i < image.bytes.size) : image.read (image.base + i) 1 = .ok [image.bytes[i]] := by
  have hread : image.read (image.base + i) 1 = .ok _ :=
    if_pos ⟨Nat.le_add_right _ _, by rw [Nat.add_sub_cancel_left]; exact hi⟩
  have hlength : i < image.bytes.toList.length := hi
  rw [hread, Nat.add_sub_cancel_left, Array.toList_extract, List.extract_eq_take_drop, Nat.add_sub_cancel_left,
    List.drop_eq_getElem_cons hlength]
  rfl

theorem exists_read_one_iff : (∃ b, image.read address 1 = .ok [b]) ↔ image.Holds address := by
  constructor
  · rintro ⟨b, hread⟩
    exact holds_of_read hread (Nat.le_refl _) (Nat.lt_succ_self _)
  · rintro ⟨hbase, hend⟩
    obtain ⟨i, rfl⟩ := Nat.exists_eq_add_of_le hbase
    exact ⟨_, read_one (Nat.lt_of_add_lt_add_left hend)⟩

theorem contains_iff_holds : image.contains address = true ↔ image.Holds address ∧ address < Numeral.greatestWord := by
  simp only [contains, limit, Holds, addressSpace, Nat.add_sub_cancel, Bool.and_eq_true, decide_eq_true_eq, Nat.lt_min,
    and_assoc]

/-- An address is contained exactly when its byte can be read and it is not the last address. So every byte of an
image can be read where it is mapped, and in front of the last address it is contained too. -/
theorem contains_iff_readable (image : Image) :
    (∀ address, image.contains address = true ↔
      (∃ b, image.read address 1 = .ok [b]) ∧ address < Numeral.greatestWord) ∧
    ∀ i (hi : i < image.bytes.size),
      image.read (image.base + i) 1 = .ok [image.bytes[i]] ∧
        (image.base + i < Numeral.greatestWord → image.contains (image.base + i) = true) := by
  constructor
  · intro address
    rw [exists_read_one_iff, contains_iff_holds]
  · intro i hi
    refine ⟨read_one hi, fun hlast => contains_iff_holds.2 ⟨⟨Nat.le_add_right _ _, ?_⟩, hlast⟩⟩
    exact Nat.add_lt_add_left hi _

/-- Two equal variables, the second of which ends at the last address. -/
def lastVariables : Image :=
  ⟨0xfffffffffffffff8, #[0x03, 0x08, 0x20, 0x00, 0x03, 0x08, 0x20, 0x00]⟩

/-- The last byte but one can be read and is contained. -/
theorem contains_iff_readable_sample :
    (lastVariables.contains 0xfffffffffffffffe = true ↔
        (∃ b, lastVariables.read 0xfffffffffffffffe 1 = .ok [b]) ∧ 0xfffffffffffffffe < Numeral.greatestWord) ∧
      6 < lastVariables.bytes.size ∧ lastVariables.base + 6 < Numeral.greatestWord ∧
      lastVariables.read (lastVariables.base + 6) 1 = .ok [0x20] ∧
      lastVariables.contains (lastVariables.base + 6) = true := by
  obtain ⟨haddress, hindex⟩ := contains_iff_readable lastVariables
  have hsize : 6 < lastVariables.bytes.size := by decide
  have hlast : lastVariables.base + 6 < Numeral.greatestWord := by decide
  obtain ⟨hread, hcontains⟩ := hindex 6 hsize
  exact ⟨haddress _, hsize, hlast, hread, hcontains hlast⟩

/-- The byte at the last address can be read, and is not contained. -/
theorem last_byte_not_contained :
    lastVariables.base + 7 = Numeral.greatestWord ∧ lastVariables.read Numeral.greatestWord 1 = .ok [0x00] ∧
      lastVariables.contains Numeral.greatestWord = false := by
  decide

end Image

/-! ## Fields at the last address -/

/-- If it is an overflow, it is that of a field whose bytes are all there, the last of them at the last address. -/
def Failure.Overruns (image : Image) (e : Failure) : Prop :=
  ∀ address offset, e = addressOverflow address offset →
    ∃ size : Nat, offset = size ∧ image.Available address size ∧ address + size = addressSpace

open Failure (Overruns)

namespace Decoder

variable {image : Image}

theorem overruns_take (hspace : image.base + image.size ≤ addressSpace) (count : Nat) :
    FailsWith (Overruns image) (take image count) := by
  rintro c e h address offset rfl
  rcases fst_take_eq_error_iff.1 h with ⟨-, ⟨⟩⟩ | ⟨hthere, hpast, ⟨⟩⟩
  obtain ⟨hbase, hend⟩ := id hthere
  exact ⟨count, rfl, hthere, by omega⟩

/-- Nothing but a field at the last address overflows while an expression is decoded. -/
theorem overruns_decode (hspace : image.base + image.size ≤ addressSpace) (limit : Nat) :
    FailsWith (Overruns image) (decode image limit) :=
  (stepwise_descend image limit (limit + 1)).failsWith
    (fun _ he address offset hoverflow => absurd hoverflow (he address offset)) (overruns_take hspace)

end Decoder

/-! ## Expressions at the last address -/

namespace Wire

open Image (lastVariables)

variable {bytes : Array UInt8} {base limit : Nat} {c c' : Cursor} {t : Expr}

/-- What decodes in plain bytes decodes where they are mapped exactly if there is an address behind it. -/
theorem ok_moved_iff (h : decode (Image.ofBytes bytes) limit c = (.ok t, c')) :
    (∃ c₁, decode (⟨base, bytes⟩ : Image) limit (c.moved base) = (.ok t, c₁)) ↔ base + c'.position < addressSpace := by
  obtain ⟨htree, hbytes, rfl⟩ := decode_eq_ok_iff.1 h
  have hmoved : (c.moved base).position = c.position + base := rfl
  rw [position_walk]
  constructor
  · rintro ⟨c₁, hrun⟩
    have hpast := (decode_eq_ok_iff.1 hrun).2.1.past
    omega
  · intro hpast
    obtain ⟨before, after, hsplit, hposition⟩ := hbytes.stores
    have hstores : Image.Stores ⟨base, bytes⟩ (c.moved base).position (encode t) := by
      refine ⟨before, after, hsplit, ?_⟩
      simp only [hmoved, hposition, Image.ofBytes]
      omega
    exact ⟨_, decode_eq_ok_iff.2 ⟨htree, ⟨hstores, by omega⟩, rfl⟩⟩

/-- In an image all of whose bytes have addresses, what decodes in the plain bytes decodes where they are mapped, with
the same tree, unless it ends at the last address. Then its last field is there, but the cursor cannot move past it. -/
theorem decode_below_last (hspace : base + bytes.size ≤ addressSpace)
    (h : decode (Image.ofBytes bytes) limit c = (.ok t, c')) :
    (base + c'.position < addressSpace →
      decode (⟨base, bytes⟩ : Image) limit (c.moved base) = (.ok t, c'.moved base)) ∧
    (addressSpace ≤ base + c'.position →
      base + c'.position = addressSpace ∧ ∃ address size : Nat,
        (decode (⟨base, bytes⟩ : Image) limit (c.moved base)).1 = .error (.addressOverflow address size) ∧
          Image.Available ⟨base, bytes⟩ address size ∧ address + size = addressSpace) := by
  have himage : (⟨base, bytes⟩ : Image) = (Image.ofBytes bytes).moved base := by simp [Image.moved, Image.ofBytes]
  have hdecode : Moves base (decode (Image.ofBytes bytes) limit) (decode (⟨base, bytes⟩ : Image) limit) := by
    rw [himage]
    exact moves_descend _ limit (limit + 1)
  have hmoves := hdecode c
  rw [h, movedRun_ok] at hmoves
  constructor
  · intro hpast
    obtain ⟨c₁, hok⟩ := (ok_moved_iff h).2 hpast
    rcases hmoves with ⟨address, offset, hoverflow⟩ | hsame
    · rw [hok] at hoverflow
      cases hoverflow
    · exact hsame
  · intro hend
    obtain ⟨hsize, -⟩ := position_le_of_decode h
    refine ⟨by omega, ?_⟩
    rcases hmoves with ⟨address, offset, hoverflow⟩ | hsame
    · obtain ⟨size, rfl, hthere, hlast⟩ := overruns_decode hspace limit _ _ hoverflow address offset rfl
      exact ⟨address, size, hoverflow, hthere, hlast⟩
    · exact absurd ((ok_moved_iff h).1 ⟨_, hsame⟩) (Nat.not_lt.2 hend)

/-- The first variable decodes, with an address behind it; the second one has none. -/
theorem decode_below_last_sample :
    0xfffffffffffffff8 + lastVariables.bytes.size ≤ addressSpace ∧
      ∃ first second,
        decode (Image.ofBytes lastVariables.bytes) 128 ⟨0, #[], #[]⟩ = (.ok (.var 8 0x20), first) ∧
        0xfffffffffffffff8 + first.position < addressSpace ∧
        decode lastVariables 128 ⟨0xfffffffffffffff8, #[], #[]⟩ =
          (.ok (.var 8 0x20), first.moved 0xfffffffffffffff8) ∧
        decode (Image.ofBytes lastVariables.bytes) 128 ⟨4, #[], #[]⟩ = (.ok (.var 8 0x20), second) ∧
        addressSpace ≤ 0xfffffffffffffff8 + second.position ∧
        ∃ address size : Nat,
          (decode lastVariables 128 ⟨0xfffffffffffffffc, #[], #[]⟩).1 = .error (.addressOverflow address size) ∧
            lastVariables.Available address size ∧ address + size = addressSpace := by
  have hspace : 0xfffffffffffffff8 + lastVariables.bytes.size ≤ addressSpace := by decide
  have hfirst : decode (Image.ofBytes lastVariables.bytes) 128 ⟨0, #[], #[]⟩ = (.ok (.var 8 0x20), _) :=
    Prod.ext (by decide +kernel) rfl
  have hsecond : decode (Image.ofBytes lastVariables.bytes) 128 ⟨4, #[], #[]⟩ = (.ok (.var 8 0x20), _) :=
    Prod.ext (by decide +kernel) rfl
  have hbelow : 0xfffffffffffffff8 + (decode (Image.ofBytes lastVariables.bytes) 128 ⟨0, #[], #[]⟩).2.position <
      addressSpace := by decide +kernel
  have hlast : addressSpace ≤
      0xfffffffffffffff8 + (decode (Image.ofBytes lastVariables.bytes) 128 ⟨4, #[], #[]⟩).2.position := by decide +kernel
  have hdecoded := (decode_below_last hspace hfirst).1 hbelow
  obtain ⟨-, address, size, hoverflow, hthere, hend⟩ := (decode_below_last hspace hsecond).2 hlast
  simp only [Cursor.moved_start, Nat.zero_add, Nat.reduceAdd] at hdecoded hoverflow
  exact ⟨hspace, _, _, hfirst, hbelow, hdecoded, hsecond, hlast, address, size, hoverflow, hthere, hend⟩

/-- The second variable's last field has its two bytes at the last two addresses, and is refused. -/
theorem last_variable_undecoded :
    lastVariables.base + lastVariables.size = addressSpace ∧
      (decode (Image.ofBytes lastVariables.bytes) 128 ⟨4, #[], #[]⟩).1 = .ok (.var 8 0x20) ∧
      lastVariables.read 0xfffffffffffffffe 2 = .ok [0x20, 0x00] ∧
      (decode lastVariables 128 ⟨0xfffffffffffffffc, #[], #[]⟩).1 =
        .error (.addressOverflow 0xfffffffffffffffe 2) := by
  decide +kernel

end Wire

end Correlation

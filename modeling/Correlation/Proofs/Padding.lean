import Correlation.Proofs.RoundTrip
import Correlation.Proofs.Straight
/-!
# Padded bytes

Whatever the bytes are, enough zero bytes behind them complete an expression (`decode_padded`). A zero byte is a
node by itself, so the padding can close every operator that the bytes have opened. How much of it that takes is
counted by `demand`, which no node raises.
-/

namespace Correlation

open Attempt Decoder

/-! ## Enough bytes -/

namespace Decoder

variable {image : Image} {c : Cursor}

theorem take_of_le (hspace : image.base + image.size < addressSpace) {count : Nat}
    (hfrom : image.base ≤ c.position) (hto : c.position + count ≤ image.base + image.size) :
    ∃ bytes, take image count c = (.ok bytes, c.past count) := by
  obtain ⟨bytes, hread⟩ : ∃ bytes, image.read c.position count = .ok bytes := by
    rw [Image.read, if_pos (by omega)]
    exact ⟨_, rfl⟩
  obtain ⟨hlength, hstores⟩ := Image.read_eq_ok_iff.1 hread
  exact ⟨bytes, take_eq_ok_iff.2 ⟨hlength, ⟨hstores, by omega⟩, rfl⟩⟩

/-- A straight reader succeeds where as many bytes are left as it may ask for. -/
theorem Straight.succeeds (hspace : image.base + image.size < addressSpace) {α : Type} {n : Nat}
    {d : Source → Decoder α} (h : Straight n d) (hfrom : image.base ≤ c.position)
    (hto : c.position + n ≤ image.base + image.size) :
    ∃ a c', d image c = (.ok a, c') ∧ c.position ≤ c'.position ∧ c'.position ≤ c.position + n := by
  induction h generalizing c with
  | pure a => exact ⟨a, c, rfl, Nat.le_refl _, Nat.le_refl _⟩
  | position => exact ⟨c.position, c, rfl, Nat.le_refl _, Nat.le_refl _⟩
  | note e => exact ⟨(), c.noted e, rfl, Nat.le_refl _, Nat.le_refl _⟩
  | take count _ =>
    obtain ⟨bytes, hrun⟩ := take_of_le hspace hfrom hto
    exact ⟨bytes, _, hrun, Nat.le_add_right _ _, Nat.le_refl _⟩
  | bind _ _ hx hf =>
    obtain ⟨a, c₁, hrun, hmin, hmax⟩ := hx hfrom (by omega)
    obtain ⟨b, c₂, hrun', hmin', hmax'⟩ := hf a (c := c₁) (by omega) (by omega)
    exact ⟨b, c₂, bind_eq_ok_iff.2 ⟨a, c₁, hrun, hrun'⟩, by omega, by omega⟩
  | weaken _ hle ih =>
    obtain ⟨a, c₁, hrun, hmin, hmax⟩ := ih hfrom (by omega)
    exact ⟨a, c₁, hrun, hmin, by omega⟩

end Decoder

namespace Wire

/-! ## The demand for padding -/

/-- How far the bytes have to go, seen from a position, for a number of nodes that are still to come. Three bytes
are set aside for each byte of the content ahead, a third of what a ternary operator needs, and eight more for a
node that only begins in the content. -/
def demand (content position pending : Nat) : Nat :=
  position + 3 * (content - position) + 8 * min 1 (content - position) + pending

theorem demand_leaf (pending : Nat) {content position own : Nat} (h : position < content) (hmin : 1 ≤ own)
    (hmax : own ≤ const64Size) : demand content (position + own) pending ≤ demand content position (pending + 1) := by
  simp only [const64Size] at hmax
  simp only [demand]
  omega

theorem demand_operator (pending : Nat) {content position arity : Nat} (h : position < content) (harity : arity ≤ 3) :
    demand content (position + operatorHeaderSize) (pending + arity) ≤ demand content position (pending + 1) := by
  simp only [demand, operatorHeaderSize]
  omega

theorem demand_padding {content position pending : Nat} (h : content ≤ position) :
    demand content (position + 1) pending = demand content position (pending + 1) := by
  simp only [demand]
  omega

/-! ## Padded images -/

/-- The bytes with a number of zero bytes behind them. -/
def padded (bytes : List UInt8) (n : Nat) : Image :=
  .ofBytes (bytes ++ List.replicate n 0).toArray

section

variable {bytes : List UInt8} {n : Nat} {c : Cursor}

theorem size_padded (bytes : List UInt8) (n : Nat) : (padded bytes n).size = bytes.length + n := by
  simp [padded, Image.ofBytes, Image.size]

theorem space_padded (hsize : bytes.length + n ≤ Image.greatestSize) :
    (padded bytes n).base + (padded bytes n).size < addressSpace := by
  have hspace : Image.greatestSize < addressSpace := by decide
  have hbase : (padded bytes n).base = 0 := rfl
  rw [size_padded, hbase]
  omega

theorem readable_padding (hsize : bytes.length + n ≤ Image.greatestSize) {position : Nat}
    (hfrom : bytes.length ≤ position) (hto : position < bytes.length + n) :
    (padded bytes n).Readable position [0] := by
  obtain ⟨before, rfl⟩ := Nat.exists_eq_add_of_le hfrom
  obtain ⟨behind, rfl⟩ : ∃ behind, n = before + (1 + behind) := ⟨n - before - 1, by omega⟩
  have hsplit : bytes ++ List.replicate (before + (1 + behind)) 0 =
      (bytes ++ List.replicate before 0) ++ [0] ++ List.replicate behind 0 := by
    rw [← List.replicate_append_replicate, ← List.replicate_append_replicate]
    simp
  have hread := readable_between (bytes ++ List.replicate before 0) [0] (List.replicate behind 0)
    (by rw [← hsplit]; simpa using hsize)
  rw [← hsplit] at hread
  simpa [padded] using hread

/-- How many arguments a head still awaits. -/
def Head.awaits : Head → Nat
  | .leaf _ => 0
  | .operator _ _ arity => arity

/-- A head is read wherever the demand for one more node is met, and the demand for what it awaits is met behind
it. Operators begin in the content only. -/
theorem head_padded (hsize : bytes.length + n ≤ Image.greatestSize) {pending : Nat}
    (hroom : demand bytes.length c.position (pending + 1) ≤ bytes.length + n) :
    ∃ h c₁, head (padded bytes n) c = (.ok h, c₁) ∧ c.position < c₁.position ∧
      demand bytes.length c₁.position (pending + h.awaits) ≤ bytes.length + n ∧
      (c.position < bytes.length ∨ ∃ e, h = .leaf e) := by
  by_cases hcontent : c.position < bytes.length
  · have hleft : c.position + const64Size ≤ (padded bytes n).base + (padded bytes n).size := by
      have hbase : (padded bytes n).base = 0 := rfl
      rw [size_padded, hbase]
      simp only [demand] at hroom
      simp only [const64Size]
      omega
    obtain ⟨h, c₁, hhead, -, hmax⟩ := straight_head.succeeds (space_padded hsize) (Nat.zero_le _) hleft
    obtain ⟨hsound, -, rfl⟩ := head_eq_ok_iff.1 hhead
    rw [Cursor.position_pastOwn] at hmax
    refine ⟨h, _, hhead, ?_⟩
    rw [Cursor.position_pastOwn]
    cases hsound with
    | leaf e hrep _ =>
      have hmin := ownSize_pos hrep
      have hdemand := demand_leaf pending hcontent hmin (Nat.le_of_add_le_add_left hmax)
      exact ⟨Nat.lt_add_of_pos_right hmin, Nat.le_trans hdemand hroom, .inl hcontent⟩
    | operator op field arity harity =>
      have hdemand := demand_operator pending hcontent (Arity.count_le_three harity)
      exact ⟨Nat.lt_add_of_pos_right (Nat.succ_pos _), Nat.le_trans hdemand hroom, .inl hcontent⟩
  · have hpast : bytes.length ≤ c.position := Nat.le_of_not_lt hcontent
    have hleft : c.position < bytes.length + n := by
      simp only [demand] at hroom
      omega
    have hhead := head_of_readable (.leaf _ (.unknownTag 0 (by decide)) rfl) (readable_padding hsize hpast hleft)
    refine ⟨_, _, hhead, ?_, ?_, .inr ⟨_, rfl⟩⟩
    · rw [Cursor.position_pastOwn]
      exact Nat.lt_succ_self _
    · rw [Cursor.position_pastOwn]
      exact Nat.le_trans (Nat.le_of_eq (demand_padding hpast)) hroom

/-! ## Padded trees -/

/-- From `start` on, a tree is read wherever the demand for one more node is met, and the demand without it is met
behind the tree. -/
def Completes (content total start : Nat) (read : Decoder Expr) : Prop :=
  ∀ c pending, start ≤ c.position → demand content c.position (pending + 1) ≤ total →
    ∃ e c', read c = (.ok e, c') ∧ c.position ≤ c'.position ∧ demand content c'.position pending ≤ total

theorem times_padded {content total start : Nat} {read : Decoder Expr} (hread : Completes content total start read)
    {count pending : Nat} (hstart : start ≤ c.position)
    (hroom : demand content c.position (pending + count) ≤ total) :
    ∃ es c', times read count c = (.ok es, c') ∧ c.position ≤ c'.position ∧
      demand content c'.position pending ≤ total := by
  induction count generalizing c with
  | zero => exact ⟨[], c, rfl, Nat.le_refl _, hroom⟩
  | succ count ih =>
    obtain ⟨e, c₁, hfirst, hpos, hroom⟩ := hread c (pending + count) hstart hroom
    obtain ⟨es, c₂, hrest, hpos', hroom⟩ := ih (Nat.le_trans hstart hpos) hroom
    have hrun : times read (count + 1) c = (.ok (e :: es), c₂) := by
      rw [times, bind_of_ok hfirst, bind_of_ok hrest]
      rfl
    exact ⟨e :: es, c₂, hrun, Nat.le_trans hpos hpos', hroom⟩

/-- A descent needs no more levels than there are bytes of the content ahead, as every operator takes some. -/
theorem descend_padded (hsize : bytes.length + n ≤ Image.greatestSize) {limit levels start : Nat}
    (hlevels : bytes.length - start < levels) :
    Completes bytes.length (bytes.length + n) start (descend (padded bytes n) limit levels) := by
  induction levels generalizing start with
  | zero => omega
  | succ levels ih =>
    intro c pending hstart hroom
    obtain ⟨h, c₁, hhead, hpos, hbehind, hopens⟩ := head_padded hsize hroom
    cases h with
    | leaf e =>
      obtain ⟨hsound, -, -⟩ := head_eq_ok_iff.1 hhead
      have hargs : e.args = [] := by cases hsound; assumption
      rw [← head_of_leaf hsound] at hhead
      have hrun : descend (padded bytes n) limit (levels + 1) c = (.ok e, _) :=
        descend_succ_eq_ok_iff.2 ⟨c₁, c₁, hhead, by rw [hargs]; rfl, rfl⟩
      exact ⟨e, _, hrun, Nat.le_of_lt hpos, hbehind⟩
    | operator op field arity =>
      have hcontent : c.position < bytes.length := by
        rcases hopens with hcontent | ⟨e, he⟩
        · exact hcontent
        · cases he
      -- The header was content, so there is less of it ahead, and one level less will do.
      have hread : Completes bytes.length (bytes.length + n) c₁.position (descend (padded bytes n) limit levels) :=
        ih (by omega)
      rw [Head.awaits] at hbehind
      obtain ⟨args, c₂, hargs, hpos', hmet⟩ := times_padded hread (Nat.le_refl _) hbehind
      have hlength : args.length = arity := length_of_times hargs
      have hrun : descend (padded bytes n) limit (levels + 1) c = (.ok (.operator op field args), _) :=
        descend_succ_eq_ok_iff.2 ⟨c₁, c₂, by rw [Head.of, hlength, hhead], by rw [Expr.args, hlength, hargs], rfl⟩
      exact ⟨.operator op field args, _, hrun, Nat.le_trans (Nat.le_of_lt hpos) hpos', hmet⟩

end

/-! ## Main theorem -/

/-- Under a limit of at least their number, any bytes with three times as many zero bytes and twelve more behind
them decode: to a representable tree, so that what is no known tag and no known operator has become an invalid
leaf, and from the very bytes of that tree. -/
theorem decode_padded (bytes : List UInt8) {limit n : Nat} (hlimit : bytes.length ≤ limit)
    (hn : 3 * bytes.length + 12 ≤ n) (hsize : (bytes ++ List.replicate n 0).length ≤ Image.greatestSize)
    (c : Cursor) (hc : c.position = 0) :
    ∃ t c', decode (Image.ofBytes (bytes ++ List.replicate n 0).toArray) limit c = (.ok t, c') ∧
      Representable t ∧ (bytes ++ List.replicate n 0).take c'.position = encode t := by
  rw [List.length_append, List.length_replicate] at hsize
  have hlevels : bytes.length - 0 < limit + 1 := Nat.lt_succ_of_le hlimit
  have hroom : demand bytes.length c.position (0 + 1) ≤ bytes.length + n := by
    simp only [demand, hc]
    omega
  obtain ⟨t, c', hrun, -⟩ := descend_padded hsize hlevels c 0 (Nat.zero_le _) hroom
  obtain ⟨⟨hrep, -⟩, hbytes, hc'⟩ := decode_eq_ok_iff.1 hrun
  refine ⟨t, c', hrun, hrep, ?_⟩
  obtain ⟨-, hextract⟩ := extract_of_stores hbytes.stores
  rw [hc, Nat.zero_add] at hextract
  rw [hc', position_walk, hc, Nat.zero_add, ← hextract]
  simp

/-- A ternary operator over an unknown tag, an operator without an arity, and a 64-bit constant of which only the
tag is there. -/
def cutShort : List UInt8 :=
  [0x04, 0x2b, 0x00, 0x00, 0x07, 0x04, 0x29, 0x01, 0x00, 0x02]

theorem decode_padded_sample :
    cutShort.length ≤ 10 ∧ 3 * cutShort.length + 12 ≤ 42 ∧
      (cutShort ++ List.replicate 42 0).length ≤ Image.greatestSize ∧
      ∃ t c', decode (Image.ofBytes (cutShort ++ List.replicate 42 0).toArray) 10 ⟨0, #[], #[]⟩ = (.ok t, c') ∧
        Representable t ∧ (cutShort ++ List.replicate 42 0).take c'.position = encode t := by
  have hlimit : cutShort.length ≤ 10 := by decide
  have hn : 3 * cutShort.length + 12 ≤ 42 := by decide
  have hsize : (cutShort ++ List.replicate 42 0).length ≤ Image.greatestSize := by decide
  exact ⟨hlimit, hn, hsize, decode_padded cutShort hlimit hn hsize ⟨0, #[], #[]⟩ rfl⟩

end Wire

end Correlation

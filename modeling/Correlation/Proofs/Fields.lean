import Correlation.Cursor
import Correlation.Wire.Writer
import Mathlib.Algebra.Group.Nat.Defs
import Mathlib.Control.Monad.Basic
/-!
# Fields

When a read succeeds, what it returns, and where it leaves the cursor: a field is read exactly when its
bytes stand at the cursor and the address after them exists. The statements are equivalences, so that both
directions of every law about decoding come from the same lemmas.
-/

namespace Correlation

/-! ## Stored bytes -/

namespace Image

/-- The greatest number of bytes in one piece of memory, and so in an image. -/
def greatestSize : Nat :=
  Numeral.greatestSigned

/-- The bytes stand in the image, the first of them at the address. -/
def Stores (image : Image) (address : Nat) (bytes : List UInt8) : Prop :=
  ∃ before after, image.bytes.toList = before ++ bytes ++ after ∧ address = image.base + before.length

/-- The image has all of the `count` bytes at the address. -/
def Available (image : Image) (address count : Nat) : Prop :=
  image.base ≤ address ∧ address - image.base + count ≤ image.size

/-- The bytes stand at the address, and so does a cursor that has moved past them. -/
structure Readable (image : Image) (address : Nat) (bytes : List UInt8) : Prop where
  stores : image.Stores address bytes
  past : address + bytes.length < addressSpace

theorem stores_append_iff {image : Image} {address : Nat} {xs ys : List UInt8} :
    image.Stores address (xs ++ ys) ↔ image.Stores address xs ∧ image.Stores (address + xs.length) ys := by
  constructor
  · rintro ⟨before, after, hbytes, rfl⟩
    refine ⟨⟨before, ys ++ after, by simpa using hbytes, rfl⟩, before ++ xs, after, by simpa using hbytes, ?_⟩
    simp [Nat.add_assoc]
  · rintro ⟨⟨before, after, hbytes, rfl⟩, before', after', hbytes', haddress⟩
    have hlength : (before ++ xs).length = before'.length := by
      simp only [List.length_append]
      omega
    have hsplit : (before ++ xs) ++ after = before' ++ (ys ++ after') := by
      rw [← List.append_assoc before', ← hbytes', hbytes]
    obtain ⟨rfl, rfl⟩ := List.append_inj hsplit hlength
    exact ⟨before, after', by simpa using hbytes, rfl⟩

theorem readable_append_iff {image : Image} {address : Nat} {xs ys : List UInt8} :
    image.Readable address (xs ++ ys) ↔ image.Readable address xs ∧ image.Readable (address + xs.length) ys := by
  constructor
  · rintro ⟨hstores, hpast⟩
    rw [stores_append_iff] at hstores
    rw [List.length_append] at hpast
    exact ⟨⟨hstores.1, by omega⟩, hstores.2, by omega⟩
  · rintro ⟨⟨hxs, -⟩, hys, hpast⟩
    refine ⟨stores_append_iff.2 ⟨hxs, hys⟩, ?_⟩
    rw [List.length_append]
    omega

theorem readable_cons_iff {image : Image} {address : Nat} {b : UInt8} {bytes : List UInt8} :
    image.Readable address (b :: bytes) ↔ image.Readable address [b] ∧ image.Readable (address + 1) bytes := by
  rw [← List.singleton_append, readable_append_iff]
  rfl

/-- Any part of an image that ends below the last address is readable. -/
theorem readable_of_eq {image : Image} {before bytes after : List UInt8}
    (hbytes : image.bytes.toList = before ++ bytes ++ after) (hpast : image.base + image.size < addressSpace) :
    image.Readable (image.base + before.length) bytes := by
  have hsize : image.size = before.length + bytes.length + after.length := by
    simp [size, ← Array.length_toList, hbytes, Nat.add_assoc]
  exact ⟨⟨before, after, hbytes, rfl⟩, by omega⟩

/-- Past readable bytes, no bytes are readable. -/
theorem Readable.nil_past {image : Image} {address : Nat} {bytes : List UInt8}
    (h : image.Readable address bytes) : image.Readable (address + bytes.length) [] := by
  rw [← List.append_nil bytes, readable_append_iff] at h
  exact h.2

/-- A read returns the bytes that stand at the address. -/
theorem read_eq_ok_iff {image : Image} {address count : Nat} {bytes : List UInt8} :
    image.read address count = .ok bytes ↔ bytes.length = count ∧ image.Stores address bytes := by
  constructor
  · intro h
    refine ⟨length_of_read h, ?_⟩
    unfold read at h
    split at h
    case isFalse => cases h
    case isTrue hbounds =>
      cases h
      refine ⟨image.bytes.toList.take (address - image.base),
        image.bytes.toList.drop (address - image.base + count), ?_, ?_⟩
      · simp [← List.drop_drop]
      · simp only [size] at hbounds
        simp
        omega
  · rintro ⟨rfl, before, after, hbytes, rfl⟩
    have hsize : image.size = before.length + bytes.length + after.length := by
      simp [size, ← Array.length_toList, hbytes, Nat.add_assoc]
    rw [read, if_pos (by omega)]
    simp [hbytes]

end Image

/-! ## Cursors that moved -/

namespace Cursor

/-- The cursor after a read of `count` bytes. -/
def past (c : Cursor) (count : Nat) : Cursor :=
  { c with position := c.position + count, reads := c.reads.push ⟨c.position, count⟩ }

/-- The cursor after a report. -/
def noted (c : Cursor) (e : Event) : Cursor :=
  { c with events := c.events.push e }

@[simp]
theorem position_noted (c : Cursor) (e : Event) : (c.noted e).position = c.position :=
  rfl

end Cursor

/-! ## Words -/

namespace Wire

open Decoder

theorem littleEndian_lt (bytes : List UInt8) : littleEndian bytes < 256 ^ bytes.length := by
  induction bytes with
  | nil => simp [littleEndian]
  | cons b bytes ih =>
    have hb := b.toNat_lt
    simp only [littleEndian, List.length_cons, Nat.pow_succ]
    omega

theorem littleEndianBytes_littleEndian (bytes : List UInt8) :
    littleEndianBytes bytes.length (littleEndian bytes) = bytes := by
  induction bytes with
  | nil => rfl
  | cons b bytes ih =>
    have hb := b.toNat_lt
    have hrest : (b.toNat + 256 * littleEndian bytes) / 256 = littleEndian bytes := by omega
    simp [littleEndian, littleEndianBytes, hrest, ih]

theorem littleEndian_littleEndianBytes {count n : Nat} (h : n < 256 ^ count) :
    littleEndian (littleEndianBytes count n) = n := by
  induction count generalizing n with
  | zero =>
    simp only [Nat.pow_zero] at h
    simp only [littleEndianBytes, littleEndian]
    omega
  | succ count ih =>
    rw [Nat.pow_succ] at h
    simp only [littleEndianBytes, littleEndian, ih (n := n / 256) (by omega), UInt8.toNat_ofNat']
    omega

end Wire

/-! ## Fields -/

namespace Decoder

open Attempt Wire

variable {image : Image} {c c' : Cursor}

theorem peek_eq_ok_iff {count : Nat} {bytes : List UInt8} :
    peek image count c = (.ok bytes, c') ↔
      bytes.length = count ∧ image.Stores c.position bytes ∧
        c' = { c with reads := c.reads.push ⟨c.position, count⟩ } := by
  rw [peek_ofImage, Prod.mk.injEq, Image.read_eq_ok_iff, and_assoc, eq_comm (b := c')]

theorem skip_eq_ok_iff {count : Nat} :
    skip count c = (.ok (), c') ↔
      c.position + count < addressSpace ∧ c' = { c with position := c.position + count } := by
  unfold skip
  split
  case isTrue h => simp [h, eq_comm]
  case isFalse h => simp [h]

theorem take_eq_ok_iff {count : Nat} {bytes : List UInt8} :
    take image count c = (.ok bytes, c') ↔
      bytes.length = count ∧ image.Readable c.position bytes ∧ c' = c.past count := by
  constructor
  · intro h
    obtain ⟨found, c₁, hpeek, h⟩ := bind_eq_ok_iff.1 h
    obtain ⟨_, c₂, hskip, h⟩ := bind_eq_ok_iff.1 h
    obtain ⟨hlength, hstores, rfl⟩ := peek_eq_ok_iff.1 hpeek
    obtain ⟨hpast, rfl⟩ := skip_eq_ok_iff.1 hskip
    cases h
    exact ⟨hlength, ⟨hstores, by rwa [hlength]⟩, rfl⟩
  · rintro ⟨rfl, ⟨hstores, hpast⟩, rfl⟩
    have hskip : skip bytes.length { c with reads := c.reads.push ⟨c.position, bytes.length⟩ } =
        (.ok (), c.past bytes.length) := skip_eq_ok_iff.2 ⟨hpast, rfl⟩
    rw [take, bind_of_ok (peek_eq_ok_iff.2 ⟨rfl, hstores, rfl⟩), bind_of_ok hskip]
    rfl

/-- Bytes that are there, with an address behind them, are returned, and the cursor moves past them. -/
theorem take_of_available {count : Nat} (h : image.Available c.position count)
    (hspace : c.position + count < addressSpace) :
    take image count c =
      (.ok (image.bytes.extract (c.position - image.base) (c.position - image.base + count)).toList, c.past count) := by
  obtain ⟨hlength, hstores⟩ := Image.read_eq_ok_iff.1 (if_pos h : image.read c.position count = .ok _)
  exact take_eq_ok_iff.2 ⟨hlength, ⟨hstores, by rwa [hlength]⟩, rfl⟩

/-- Bytes that are not all there are asked for, and the cursor stays. -/
theorem take_of_missing {count : Nat} (h : ¬ image.Available c.position count) :
    take image count c =
      (.error (.outOfBounds c.position count image.size), { c with reads := c.reads.push ⟨c.position, count⟩ }) := by
  have hread : image.read c.position count = .error (.outOfBounds c.position count image.size) := if_neg h
  have hpeek : peek image count c = (.error (.outOfBounds c.position count image.size),
      { c with reads := c.reads.push ⟨c.position, count⟩ }) := by rw [peek_ofImage, hread]
  rw [take, bind_of_error hpeek]

/-- Bytes that are there without an address behind them are fetched, but the cursor cannot move past them and
stays. -/
theorem take_of_overrun {count : Nat} (h : image.Available c.position count)
    (hspace : addressSpace ≤ c.position + count) :
    take image count c =
      (.error (.addressOverflow c.position count), { c with reads := c.reads.push ⟨c.position, count⟩ }) := by
  obtain ⟨hlength, hstores⟩ := Image.read_eq_ok_iff.1 (if_pos h : image.read c.position count = .ok _)
  have hskip : skip count { c with reads := c.reads.push ⟨c.position, count⟩ } =
      (.error (.addressOverflow c.position count), { c with reads := c.reads.push ⟨c.position, count⟩ }) :=
    if_neg (Nat.not_lt.2 hspace)
  rw [take, bind_of_ok (peek_eq_ok_iff.2 ⟨hlength, hstores, rfl⟩), bind_of_error hskip]

/-- Either bytes are missing, or they are there and no address is behind them. -/
theorem fst_take_eq_error_iff {count : Nat} {e : Failure} :
    (take image count c).1 = .error e ↔
      (¬ image.Available c.position count ∧ e = .outOfBounds c.position count image.size) ∨
        (image.Available c.position count ∧ addressSpace ≤ c.position + count ∧
          e = .addressOverflow c.position count) := by
  by_cases hthere : image.Available c.position count
  · rcases Nat.lt_or_ge (c.position + count) addressSpace with hspace | hspace
    · simp [take_of_available hthere hspace, hthere, Nat.not_le_of_lt hspace]
    · simp [take_of_overrun hthere hspace, hthere, hspace, eq_comm]
  · simp [take_of_missing hthere, hthere, eq_comm]

/-- A word of `count` bytes, for a type whose values are the numbers below `256 ^ count`. -/
theorem word_eq_ok_iff {α : Type} {count : Nat} (ofNat : Nat → α) (toNat : α → Nat)
    (hlt : ∀ a, toNat a < 256 ^ count) (hof : ∀ a, ofNat (toNat a) = a)
    (hto : ∀ n < 256 ^ count, toNat (ofNat n) = n) {a : α} :
    (do return ofNat (littleEndian (← take image count))) c = (.ok a, c') ↔
      image.Readable c.position (littleEndianBytes count (toNat a)) ∧ c' = c.past count := by
  constructor
  · intro h
    obtain ⟨bytes, c₁, htake, h⟩ := bind_eq_ok_iff.1 h
    obtain ⟨rfl, hreadable, rfl⟩ := take_eq_ok_iff.1 htake
    cases h
    rw [hto _ (littleEndian_lt bytes), littleEndianBytes_littleEndian]
    exact ⟨hreadable, rfl⟩
  · rintro ⟨hreadable, rfl⟩
    rw [bind_of_ok (take_eq_ok_iff.2 ⟨length_littleEndianBytes count _, hreadable, rfl⟩),
      littleEndian_littleEndianBytes (hlt a), hof]
    rfl

theorem uint8_eq_ok_iff {v : UInt8} :
    uint8 image c = (.ok v, c') ↔ image.Readable c.position [v] ∧ c' = c.past 1 := by
  have hv : [v] = littleEndianBytes 1 v.toNat := by simp [littleEndianBytes]
  rw [hv]
  exact word_eq_ok_iff UInt8.ofNat UInt8.toNat (fun v => v.toNat_lt) (fun v => by simp)
    (fun n hn => UInt8.toNat_ofNat_of_lt' hn)

theorem int16_eq_ok_iff {v : Int16} :
    int16 image c = (.ok v, c') ↔ image.Readable c.position (bytes16 v) ∧ c' = c.past 2 :=
  word_eq_ok_iff (fun n => (UInt16.ofNat n).toInt16) (fun v => v.toUInt16.toNat)
    (fun v => v.toUInt16.toNat_lt) (fun v => by simp) (fun n hn => UInt16.toNat_ofNat_of_lt' hn)

theorem int32_eq_ok_iff {v : Int32} :
    int32 image c = (.ok v, c') ↔ image.Readable c.position (bytes32 v) ∧ c' = c.past 4 :=
  word_eq_ok_iff (fun n => (UInt32.ofNat n).toInt32) (fun v => v.toUInt32.toNat)
    (fun v => v.toUInt32.toNat_lt) (fun v => by simp) (fun n hn => UInt32.toNat_ofNat_of_lt' hn)

theorem int64_eq_ok_iff {v : Int64} :
    int64 image c = (.ok v, c') ↔ image.Readable c.position (bytes64 v) ∧ c' = c.past 8 :=
  word_eq_ok_iff (fun n => (UInt64.ofNat n).toInt64) (fun v => v.toUInt64.toNat)
    (fun v => v.toUInt64.toNat_lt) (fun v => by simp) (fun n hn => UInt64.toNat_ofNat_of_lt' hn)

/-- A field is asked for once, whether its bytes are there or not, and nothing is reported. -/
theorem log_take (source : Source) (count : Nat) (c : Cursor) :
    (take source count c).2.reads = c.reads.push ⟨c.position, count⟩ ∧ (take source count c).2.events = c.events := by
  cases hread : source.answer c.reads ⟨c.position, count⟩ with
  | error e => simp [take, bind_apply, peek, hread, Except.map]
  | ok bytes =>
    by_cases hspace : c.position + count < addressSpace <;>
      simp [take, bind_apply, peek, skip, hread, hspace, Except.map]

/-- What is made of its bytes does not change where a field leaves the cursor. -/
theorem snd_field {α : Type} (source : Source) (count : Nat) (f : List UInt8 → α) (c : Cursor) :
    ((do return f (← take source count) : Decoder α) c).2 = (take source count c).2 := by
  match hrun : take source count c with
  | (.ok bytes, c') => rw [bind_of_ok hrun, pure_apply]
  | (.error e, c') => rw [bind_of_error hrun]

/-- What happens at another address, seen from here. -/
theorem atAddress_of_eq {α : Type} {d : Decoder α} {address : Nat} {r : Except Failure α}
    (h : d { c with position := address } = (r, c')) :
    atAddress address d c = (r, { c' with position := c.position }) := by
  rw [atAddress, h]

end Decoder

end Correlation

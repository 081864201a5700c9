import Correlation.Address
import Correlation.Proofs.Numerals
import Mathlib.Data.Nat.Digits.Defs
/-!
# Which texts are addresses

An address text is read as what its digits stand for, and every other text is refused for a reason that can be told from
the text: there is nothing to read, the digits in front are too many already, or something is no digit
(`answer_cases`).
-/

namespace Correlation

namespace Numeral

/-! ## Digits and their values -/

/-- The digits up to base sixteen, each at the place of its value. -/
def lowerDigits : List Char :=
  ['0', '1', '2', '3', '4', '5', '6', '7', '8', '9', 'a', 'b', 'c', 'd', 'e', 'f']

def upperDigits : List Char :=
  ['0', '1', '2', '3', '4', '5', '6', '7', '8', '9', 'A', 'B', 'C', 'D', 'E', 'F']

/-- The character is the digit of a base that stands for `d`, in either case. -/
def IsDigit (base : Nat) (c : Char) (d : Nat) : Prop :=
  d < base ∧ (lowerDigits[d]? = some c ∨ upperDigits[d]? = some c)

/-- The characters are digits of a base, the most significant one first, and their positional value is `n`. -/
def Spells (base : Nat) (cs : List Char) (n : Nat) : Prop :=
  ∃ ds : List Nat, List.Forall₂ (IsDigit base) cs ds ∧ n = Nat.ofDigits base ds.reverse

variable {base limit value n d : Nat} {c : Char} {cs : List Char}

/-- A character is so many places behind any one that is not greater. -/
theorem eq_ofNat_add {first : Char} (h : first ≤ c) : c = Char.ofNat (first.toNat + (c.toNat - first.toNat)) := by
  rw [Char.le_def, UInt32.le_iff_toNat_le, Char.toNat_val, Char.toNat_val] at h
  rw [Nat.add_sub_cancel' h, Char.ofNat_toNat]

theorem digitValue?_of_isDigit (h : IsDigit 16 c d) : digitValue? 16 c = some d := by
  have hlower : ∀ d < 16, lowerDigits[d]?.bind (digitValue? 16) = some d := by decide
  have hupper : ∀ d < 16, upperDigits[d]?.bind (digitValue? 16) = some d := by decide
  rcases h with ⟨hd, hplace | hplace⟩
  · simpa only [hplace, Option.bind_some] using hlower d hd
  · simpa only [hplace, Option.bind_some] using hupper d hd

theorem isDigit_of_digitValue? (h : digitValue? 16 c = some d) : IsDigit 16 c d := by
  have hdecimal : ∀ k < 10, lowerDigits[k]? = some (Char.ofNat ('0'.toNat + k)) := by decide
  have hlower : ∀ k < 6, lowerDigits[k + 10]? = some (Char.ofNat ('a'.toNat + k)) := by decide
  have hupper : ∀ k < 6, upperDigits[k + 10]? = some (Char.ofNat ('A'.toNat + k)) := by decide
  rw [digitValue?, Option.filter_eq_some_iff, decide_eq_true_iff] at h
  obtain ⟨hvalue, hd⟩ := h
  refine ⟨hd, ?_⟩
  split at hvalue
  case isTrue hrange =>
    cases hvalue
    have hlast : c.toNat ≤ '9'.toNat := by
      simpa only [Char.le_def, UInt32.le_iff_toNat_le, Char.toNat_val] using hrange.2
    have hten : '9'.toNat < '0'.toNat + 10 := by decide
    left
    rw [hdecimal _ (by omega), ← eq_ofNat_add hrange.1]
  case isFalse =>
    split at hvalue
    case isTrue hrange =>
      cases hvalue
      left
      rw [hlower _ (by omega), ← eq_ofNat_add hrange.1]
    case isFalse =>
      split at hvalue
      case isTrue hrange =>
        cases hvalue
        right
        rw [hupper _ (by omega), ← eq_ofNat_add hrange.1]
      case isFalse => cases hvalue

theorem digitValue?_eq_some_iff (hbase : base ≤ 16) : digitValue? base c = some d ↔ IsDigit base c d := by
  have hfilter : digitValue? base c = some d ↔ d < base ∧ digitValue? 16 c = some d := by
    simp only [digitValue?, Option.filter_eq_some_iff, decide_eq_true_iff]
    constructor
    · rintro ⟨hvalue, hd⟩
      exact ⟨hd, hvalue, by omega⟩
    · rintro ⟨hd, hvalue, -⟩
      exact ⟨hvalue, hd⟩
  rw [hfilter]
  constructor
  · rintro ⟨hd, hvalue⟩
    exact ⟨hd, (isDigit_of_digitValue? hvalue).2⟩
  · rintro ⟨hd, hplace⟩
    exact ⟨hd, digitValue?_of_isDigit ⟨by omega, hplace⟩⟩

/-! ## The scan -/

/-- What the scan makes of digits behind a value. -/
def shifted (base : Nat) (value : Nat) (ds : List Nat) : Nat :=
  ds.foldl (fun value d => base * value + d) value

theorem shifted_eq_ofDigits (base : Nat) (ds : List Nat) : shifted base 0 ds = Nat.ofDigits base ds.reverse := by
  rw [Nat.ofDigits_eq_foldr, List.foldr_reverse, shifted]
  simp only [Nat.cast_id, Nat.add_comm]

/-- More digits make no smaller number. -/
theorem le_shifted (hbase : 0 < base) (ds : List Nat) : value ≤ shifted base value ds := by
  induction ds generalizing value with
  | nil => exact Nat.le_refl value
  | cons d ds ih =>
    have hstep : value ≤ base * value + d := Nat.le_add_right_of_le (Nat.le_mul_of_pos_left value hbase)
    exact Nat.le_trans hstep ih

theorem scan_eq_ok_iff (hbase : 0 < base) (hsixteen : base ≤ 16) (hvalue : value ≤ limit) :
    scan base limit value cs = .ok n ↔
      ∃ ds, List.Forall₂ (IsDigit base) cs ds ∧ n = shifted base value ds ∧ n ≤ limit := by
  -- The value of the digits so far is within the limit, as the scan stops before it is not.
  induction cs generalizing value with
  | nil =>
    constructor
    · rintro ⟨⟩
      exact ⟨[], .nil, rfl, hvalue⟩
    · rintro ⟨_, ⟨⟩, rfl, -⟩
      rfl
  | cons c cs ih =>
    rw [scan]
    constructor
    · intro h
      split at h
      case h_1 => cases h
      case h_2 d hd =>
        split at h
        case isTrue hnext =>
          obtain ⟨ds, hds, hn⟩ := (ih hnext).1 h
          exact ⟨d :: ds, .cons ((digitValue?_eq_some_iff hsixteen).1 hd) hds, hn⟩
        case isFalse => cases h
    · rintro ⟨_, ⟨⟩, rfl, hn⟩
      case cons d ds hd hds =>
        have hnext : base * value + d ≤ limit := Nat.le_trans (le_shifted hbase ds) hn
        rw [(digitValue?_eq_some_iff hsixteen).2 hd]
        simp only [hnext, if_true]
        exact (ih hnext).2 ⟨ds, hds, rfl, hn⟩

theorem scan_eq_tooLarge_iff (hsixteen : base ≤ 16) (hvalue : value ≤ limit) :
    scan base limit value cs = .error .tooLarge ↔
      ∃ front rest ds, cs = front ++ rest ∧ List.Forall₂ (IsDigit base) front ds ∧ limit < shifted base value ds := by
  induction cs generalizing value with
  | nil =>
    constructor
    · rintro ⟨⟩
    · rintro ⟨front, rest, ds, hcs, hds, hn⟩
      obtain ⟨rfl, rfl⟩ := List.append_eq_nil_iff.1 hcs.symm
      obtain ⟨⟩ := hds
      exact absurd hvalue (Nat.not_le_of_lt hn)
  | cons c cs ih =>
    rw [scan]
    constructor
    · intro h
      split at h
      case h_1 => cases h
      case h_2 d hd =>
        have hdigit := (digitValue?_eq_some_iff hsixteen).1 hd
        split at h
        case isTrue hnext =>
          obtain ⟨front, rest, ds, rfl, hds, hn⟩ := (ih hnext).1 h
          exact ⟨c :: front, rest, d :: ds, rfl, .cons hdigit hds, hn⟩
        case isFalse hfar => exact ⟨[c], cs, [d], rfl, .cons hdigit .nil, Nat.lt_of_not_le hfar⟩
    · rintro ⟨front, rest, ds, hcs, hds, hn⟩
      cases hds with
      | nil => exact absurd hvalue (Nat.not_le_of_lt hn)
      | @cons c' d front ds hd hds =>
        obtain ⟨rfl, rfl⟩ := List.cons.inj hcs
        rw [(digitValue?_eq_some_iff hsixteen).2 hd]
        by_cases hnext : base * value + d ≤ limit
        · simp only [hnext, if_true]
          exact (ih hnext).2 ⟨front, rest, ds, rfl, hds, hn⟩
        · simp only [hnext, if_false]

theorem scan_ne_empty : scan base limit value cs ≠ .error .empty := by
  induction cs generalizing value with
  | nil => rintro ⟨⟩
  | cons c cs ih =>
    rw [scan]
    split
    · rintro ⟨⟩
    · split
      · exact ih
      · rintro ⟨⟩

/-- Some digits in front stand for too great a number. -/
def Exceeds (base limit : Nat) (cs : List Char) : Prop :=
  ∃ front rest n, cs = front ++ rest ∧ Spells base front n ∧ limit < n

theorem scan_eq_ok_iff_spells (hbase : 0 < base) (hsixteen : base ≤ 16) :
    scan base limit 0 cs = .ok n ↔ Spells base cs n ∧ n ≤ limit := by
  simp only [scan_eq_ok_iff hbase hsixteen (Nat.zero_le limit), shifted_eq_ofDigits, Spells]
  constructor
  · rintro ⟨ds, hds, hn, hlimit⟩
    exact ⟨⟨ds, hds, hn⟩, hlimit⟩
  · rintro ⟨⟨ds, hds, hn⟩, hlimit⟩
    exact ⟨ds, hds, hn, hlimit⟩

theorem scan_eq_tooLarge_iff_exceeds (hsixteen : base ≤ 16) :
    scan base limit 0 cs = .error .tooLarge ↔ Exceeds base limit cs := by
  simp only [scan_eq_tooLarge_iff hsixteen (Nat.zero_le limit), shifted_eq_ofDigits, Exceeds, Spells]
  constructor
  · rintro ⟨front, rest, ds, hcs, hds, hn⟩
    exact ⟨front, rest, _, hcs, ⟨ds, hds, rfl⟩, hn⟩
  · rintro ⟨front, rest, _, hcs, ⟨ds, hds, rfl⟩, hn⟩
    exact ⟨front, rest, ds, hcs, hds, hn⟩

/-- What stops the scan at a character that is no digit spells nothing and exceeds nothing. -/
theorem not_spells_of_scan (hbase : 0 < base) (hsixteen : base ≤ 16)
    (h : ∀ limit, scan base limit 0 cs = .error .invalidDigit) : ¬ Spells base cs n := by
  intro hspells
  have hscan := (scan_eq_ok_iff_spells hbase hsixteen).2 ⟨hspells, Nat.le_refl n⟩
  rw [h] at hscan
  cases hscan

theorem not_exceeds_of_scan (hsixteen : base ≤ 16) (h : scan base limit 0 cs = .error .invalidDigit) :
    ¬ Exceeds base limit cs := by
  intro hexceeds
  rw [← scan_eq_tooLarge_iff_exceeds hsixteen, h] at hexceeds
  cases hexceeds

theorem scan_sign (base limit : Nat) (rest : List Char) : scan base limit 0 ('+' :: rest) = .error .invalidDigit := by
  simp [scan, digitValue?]

/-! ## Signs -/

/-- At most one plus. -/
def IsSign (cs : List Char) : Prop :=
  cs = [] ∨ cs = ['+']

/-- The characters behind the sign. -/
def unsigned : List Char → List Char
  | '+' :: rest => rest
  | cs => cs

/-- There is one way only to take a sign off what does not go on with one. -/
theorem exists_sign_iff {Q : List Char → Prop} (hQ : ∀ rest, ¬ Q ('+' :: rest)) :
    (∃ sign rest, IsSign sign ∧ cs = sign ++ rest ∧ Q rest) ↔ Q (unsigned cs) := by
  constructor
  · rintro ⟨_, rest, rfl | rfl, rfl, hrest⟩
    · unfold unsigned
      split
      · exact absurd hrest (hQ _)
      · exact hrest
    · exact hrest
  · intro h
    unfold unsigned at h
    split at h
    case h_1 rest => exact ⟨['+'], rest, .inr rfl, rfl, h⟩
    case h_2 => exact ⟨[], cs, .inl rfl, rfl, h⟩

/-- A number is scanned behind its sign, unless nothing is there. -/
theorem natural_eq (base limit : Nat) (cs : List Char) :
    natural base limit cs =
      if cs = [] then .error .empty
      else if unsigned cs = [] then .error .invalidDigit
      else scan base limit 0 (unsigned cs) := by
  unfold natural
  split
  case h_1 => rfl
  case h_2 rest => cases rest <;> rfl
  case h_3 hcs hsign =>
    have hunsigned : unsigned cs = cs := by
      unfold unsigned
      split
      · exact absurd rfl (hsign _)
      · rfl
    rw [hunsigned, if_neg hcs, if_neg hcs, digits_eq_scan hcs]

theorem natural_eq_ok_iff (hbase : 0 < base) (hsixteen : base ≤ 16) :
    natural base limit cs = .ok n ↔ (unsigned cs ≠ [] ∧ Spells base (unsigned cs) n) ∧ n ≤ limit := by
  rw [natural_eq]
  split
  case isTrue hcs =>
    subst hcs
    simp [unsigned]
  case isFalse =>
    split
    case isTrue hnone => simp [hnone]
    case isFalse hsome => simp only [scan_eq_ok_iff_spells hbase hsixteen, hsome, ne_eq, not_false_eq_true, true_and]

theorem natural_eq_tooLarge_iff (hsixteen : base ≤ 16) :
    natural base limit cs = .error .tooLarge ↔ Exceeds base limit (unsigned cs) := by
  have hnothing : ¬ Exceeds base limit [] := by
    rw [← scan_eq_tooLarge_iff_exceeds hsixteen]
    exact nofun
  rw [natural_eq]
  split
  case isTrue hcs =>
    subst hcs
    simp [unsigned, hnothing]
  case isFalse =>
    split
    case isTrue hnone => simp [hnone, hnothing]
    case isFalse => exact scan_eq_tooLarge_iff_exceeds hsixteen

theorem natural_eq_empty_iff : natural base limit cs = .error .empty ↔ cs = [] := by
  rw [natural_eq]
  split
  case isTrue hcs => simp [hcs]
  case isFalse hcs =>
    split
    case isTrue => simp [hcs]
    case isFalse => simp [hcs, scan_ne_empty]

end Numeral

namespace Address

open Numeral

/-! ## Texts -/

/-- What an address text begins with, and the base of the digits that follow. -/
inductive Opening : Nat → List Char → Prop
  | decimal : Opening 10 []
  | lower : Opening 16 ['0', 'x']
  | upper : Opening 16 ['0', 'X']

/-- Behind an opening and at most one plus, the text goes on with characters of a kind. -/
def GoesOn (text : String) (kind : Nat → List Char → Prop) : Prop :=
  ∃ base opening sign rest,
    Opening base opening ∧ IsSign sign ∧ text.toList = opening ++ (sign ++ rest) ∧ kind base rest

/-- The text has nothing but an opening. -/
def Bare (text : String) : Prop :=
  ∃ base opening, Opening base opening ∧ text.toList = opening

/-- The text has digits behind its opening, which stand for `n`. -/
def Denotes (text : String) (n : Nat) : Prop :=
  GoesOn text fun base digits => digits ≠ [] ∧ Spells base digits n

/-- The text has digits behind its opening that stand for no address, whatever follows. -/
def Overflows (text : String) : Prop :=
  GoesOn text fun base rest => Exceeds base greatestWord rest

/-- The openings are those of bases that have digits for all values. -/
theorem base_of_opening {base : Nat} {opening : List Char} (h : Opening base opening) : 0 < base ∧ base ≤ 16 := by
  cases h <;> decide

theorem opening_split (cs : List Char) : ∃ opening, Opening (split cs).1 opening ∧ cs = opening ++ (split cs).2 := by
  unfold split
  split
  · exact ⟨_, .lower, rfl⟩
  · exact ⟨_, .upper, rfl⟩
  · exact ⟨_, .decimal, rfl⟩

theorem base_of_split (cs : List Char) : 0 < (split cs).1 ∧ (split cs).1 ≤ 16 := by
  obtain ⟨opening, hopening, -⟩ := opening_split cs
  exact base_of_opening hopening

/-- There is one way only to take an opening and a sign off a text, if what is left begins with neither. -/
theorem goesOn_iff {text : String} {kind : Nat → List Char → Prop}
    (hsign : ∀ base, 0 < base → base ≤ 16 → ∀ rest, ¬ kind base ('+' :: rest))
    (hopening : ∀ x, x = 'x' ∨ x = 'X' → ∀ rest, ¬ kind 10 ('0' :: x :: rest)) :
    GoesOn text kind ↔ kind (split text.toList).1 (unsigned (split text.toList).2) := by
  obtain ⟨hbase, hsixteen⟩ := base_of_split text.toList
  rw [← exists_sign_iff (hsign _ hbase hsixteen)]
  constructor
  · rintro ⟨base, opening, sign, rest, hbegin, hsigned, htext, hrest⟩
    rw [htext]
    cases hbegin with
    | lower => exact ⟨sign, rest, hsigned, rfl, hrest⟩
    | upper => exact ⟨sign, rest, hsigned, rfl, hrest⟩
    | decimal =>
      unfold split
      split
      -- Decimal digits cannot begin as the openings of hexadecimal ones do.
      case h_1 digits hbegin =>
        obtain rfl | rfl := hsigned
        · obtain rfl : rest = '0' :: 'x' :: digits := hbegin
          exact absurd hrest (hopening 'x' (.inl rfl) digits)
        · cases hbegin
      case h_2 digits hbegin =>
        obtain rfl | rfl := hsigned
        · obtain rfl : rest = '0' :: 'X' :: digits := hbegin
          exact absurd hrest (hopening 'X' (.inr rfl) digits)
        · cases hbegin
      case h_3 => exact ⟨sign, rest, hsigned, rfl, hrest⟩
  · rintro ⟨sign, rest, hsigned, hcs, hrest⟩
    obtain ⟨opening, hbegin, htext⟩ := opening_split text.toList
    exact ⟨_, opening, sign, rest, hbegin, hsigned, by rw [← hcs, ← htext], hrest⟩

theorem scan_opening (limit : Nat) {x : Char} (hx : x = 'x' ∨ x = 'X') (rest : List Char) :
    scan 10 limit 0 ('0' :: x :: rest) = .error .invalidDigit := by
  rcases hx with rfl | rfl <;> simp [scan, digitValue?, Option.filter]

theorem denotes_iff {text : String} {n : Nat} :
    Denotes text n ↔
      unsigned (split text.toList).2 ≠ [] ∧ Spells (split text.toList).1 (unsigned (split text.toList).2) n := by
  refine goesOn_iff ?_ ?_
  · rintro base hbase hsixteen rest ⟨-, hspells⟩
    exact not_spells_of_scan hbase hsixteen (fun limit => scan_sign base limit rest) hspells
  · rintro x hx rest ⟨-, hspells⟩
    exact not_spells_of_scan (by decide) (by decide) (fun limit => scan_opening limit hx rest) hspells

theorem overflows_iff {text : String} :
    Overflows text ↔ Exceeds (split text.toList).1 greatestWord (unsigned (split text.toList).2) := by
  refine goesOn_iff ?_ ?_
  · intro base _ hsixteen rest
    exact not_exceeds_of_scan hsixteen (scan_sign base greatestWord rest)
  · intro x hx rest
    exact not_exceeds_of_scan (by decide) (scan_opening greatestWord hx rest)

theorem bare_iff {text : String} : Bare text ↔ (split text.toList).2 = [] := by
  constructor
  · rintro ⟨base, opening, hbegin, htext⟩
    rw [htext]
    cases hbegin <;> rfl
  · intro h
    obtain ⟨opening, hbegin, htext⟩ := opening_split text.toList
    exact ⟨_, opening, hbegin, by rw [htext, h, List.append_nil]⟩

theorem ofText_eq_ok_iff {text : String} {n : Nat} : ofText text = .ok n ↔ Denotes text n ∧ n ≤ greatestWord := by
  obtain ⟨hbase, hsixteen⟩ := base_of_split text.toList
  rw [denotes_iff]
  exact natural_eq_ok_iff hbase hsixteen

theorem ofText_eq_tooLarge_iff {text : String} : ofText text = .error .tooLarge ↔ Overflows text := by
  rw [overflows_iff]
  exact natural_eq_tooLarge_iff (base_of_split text.toList).2

theorem ofText_eq_empty_iff {text : String} : ofText text = .error .empty ↔ Bare text := by
  rw [bare_iff]
  exact natural_eq_empty_iff

/-- One outcome is left. -/
theorem ofText_eq_invalidDigit_iff {text : String} :
    ofText text = .error .invalidDigit ↔
      (¬ ∃ n ≤ greatestWord, Denotes text n) ∧ ¬ Bare text ∧ ¬ Overflows text := by
  rw [← ofText_eq_empty_iff, ← ofText_eq_tooLarge_iff]
  constructor
  · intro h
    refine ⟨?_, by simp [h], by simp [h]⟩
    rintro ⟨n, hn, hdenotes⟩
    have hok := ofText_eq_ok_iff.2 ⟨hdenotes, hn⟩
    rw [h] at hok
    cases hok
  · rintro ⟨hnumber, hempty, hlarge⟩
    match h : ofText text with
    | .ok n =>
      obtain ⟨hdenotes, hn⟩ := ofText_eq_ok_iff.1 h
      exact absurd ⟨n, hn, hdenotes⟩ hnumber
    | .error .empty => exact absurd h hempty
    | .error .tooLarge => exact absurd h hlarge
    | .error .invalidDigit => rfl

/-- Digits that are written spell what they are written for. -/
theorem spells_of_scan {base n : Nat} {cs : List Char} (hbase : 0 < base) (hsixteen : base ≤ 16)
    (h : scan base n 0 cs = .ok n) : Spells base cs n :=
  ((scan_eq_ok_iff_spells hbase hsixteen).1 h).1

theorem denotes_decimal (n : Nat) : Denotes (decimal n) n :=
  ⟨10, [], [], _, .decimal, .inl rfl, rfl, decimal_ne_nil n,
    spells_of_scan (by decide) (by decide) (scan_decimal (Nat.le_refl n))⟩

theorem denotes_hex (n : Nat) : Denotes (hex n) n := by
  obtain ⟨count, htext⟩ := toList_hexPadded 1 n
  refine ⟨16, ['0', 'x'], [], List.replicate count '0' ++ Nat.toDigits 16 n, .lower, .inl rfl, htext, ?_, ?_⟩
  · simp [Nat.toDigits_ne_nil]
  · refine spells_of_scan (by decide) (by decide) ?_
    rw [scan_replicate_zero (by decide) (by decide), scan_toDigits (by decide) (by decide) (Nat.le_refl n)]

/-! ## What is said about texts -/

/-- Different faults are told apart by what is said about them. -/
theorem faultMessage_inj {text : String} {f g : Fault} (h : faultMessage text f = faultMessage text g) : f = g := by
  have hmessage : f.message = g.message := (String.append_right_inj _).1 h
  revert hmessage
  cases f <;> cases g <;> decide

theorem answer_eq_error_iff {text : String} {f : Fault} :
    answer text = .error (faultMessage text f) ↔ ofText text = .error f := by
  unfold answer
  cases ofText text with
  | ok n => simp [Except.mapError]
  | error g =>
    simp only [Except.mapError, Except.error.injEq]
    exact ⟨faultMessage_inj, fun h => by rw [h]⟩

theorem answer_eq_ok_iff {text : String} {n : Nat} : answer text = .ok n ↔ ofText text = .ok n := by
  unfold answer
  cases ofText text <;> simp [Except.mapError]

/-! ## Main theorem -/

/-- A text is read as `n` exactly when it is digits that stand for `n`, behind their opening and at most one plus, and
`n` is an address. Otherwise it is refused: there is nothing behind the opening, or the digits in front stand for no
address, or the text has something in it that does not belong there. Every address is read from its hexadecimal and
from its decimal text. -/
theorem answer_cases (text : String) :
    (∀ n, answer text = .ok n ↔ Denotes text n ∧ n ≤ greatestWord) ∧
      (answer text = .error ("invalid address `" ++ text ++ "`: cannot parse integer from empty string") ↔
        Bare text) ∧
      (answer text = .error ("invalid address `" ++ text ++ "`: number too large to fit in target type") ↔
        Overflows text) ∧
      (answer text = .error ("invalid address `" ++ text ++ "`: invalid digit found in string") ↔
        (¬ ∃ n ≤ greatestWord, Denotes text n) ∧ ¬ Bare text ∧ ¬ Overflows text) ∧
      ∀ w : UInt64, answer (hex w.toNat) = .ok w.toNat ∧ answer (decimal w.toNat) = .ok w.toNat := by
  have hsaid : ∀ f said, "`: " ++ f.message = said → "invalid address `" ++ text ++ said = faultMessage text f := by
    rintro f _ rfl
    rw [← String.append_assoc]
    rfl
  rw [hsaid .empty "`: cannot parse integer from empty string" (by decide),
    hsaid .tooLarge "`: number too large to fit in target type" (by decide),
    hsaid .invalidDigit "`: invalid digit found in string" (by decide)]
  simp only [answer_eq_ok_iff, answer_eq_error_iff]
  refine ⟨fun n => ofText_eq_ok_iff, ofText_eq_empty_iff, ofText_eq_tooLarge_iff, ofText_eq_invalidDigit_iff, ?_⟩
  intro w
  have hw : w.toNat ≤ greatestWord := Nat.le_of_lt_succ w.toNat_lt
  exact ⟨ofText_eq_ok_iff.2 ⟨denotes_hex _, hw⟩, ofText_eq_ok_iff.2 ⟨denotes_decimal _, hw⟩⟩

/-- Digits that are too many are refused before what comes behind them. -/
example : ofText "18446744073709551616z" = .error .tooLarge ∧ ofText "1844674407370955161z" = .error .invalidDigit := by
  decide

end Address

end Correlation

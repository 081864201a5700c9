import Correlation.Numeral
/-!
# Written numbers

A number that is written is read back (`natural_hexPadded`, `integer?_signed`), so no two numbers are written alike.
-/

namespace Correlation

namespace Numeral

variable {base limit : Nat}

/-! ## Digits -/

/-- The digits that are written are read as what they stand for. -/
theorem digitValue?_digitChar {d : Nat} (hd : d < base) (hbase : base ≤ 16) :
    digitValue? base d.digitChar = some d := by
  have hwritten : ∀ d < 16, digitValue? 16 (Nat.digitChar d) = some d := by decide
  have hvalue := hwritten d (by omega)
  rw [digitValue?, Option.filter_eq_some_iff] at hvalue ⊢
  exact ⟨hvalue.1, by simpa using hd⟩

theorem scan_append (value : Nat) (xs ys : List Char) :
    scan base limit value (xs ++ ys) = (scan base limit value xs).bind fun value' => scan base limit value' ys := by
  induction xs generalizing value with
  | nil => rfl
  | cons c xs ih =>
    simp only [List.cons_append, scan]
    split
    · rfl
    · split
      · exact ih _
      · rfl

/-- The digits of a number are read as the number. -/
theorem scan_toDigits {n : Nat} (hbase : 1 < base) (hsixteen : base ≤ 16) (hn : n ≤ limit) :
    scan base limit 0 (Nat.toDigits base n) = .ok n := by
  induction n using Nat.strongRecOn with
  | ind n ih =>
    rw [Nat.toDigits_eq_if hbase]
    split
    case isTrue hlow =>
      rw [scan, digitValue?_digitChar hlow hsixteen]
      simp [scan, hn]
    case isFalse hhigh =>
      have hless : n / base < n := Nat.div_lt_self (by omega) hbase
      have hlast : n % base < base := Nat.mod_lt n (by omega)
      rw [scan_append, ih (n / base) hless (by omega)]
      show scan base limit (n / base) [(n % base).digitChar] = .ok n
      rw [scan, digitValue?_digitChar hlast hsixteen]
      simp [scan, Nat.div_add_mod, hn]

/-- Leading zeros do not count. -/
theorem scan_replicate_zero (hbase : 0 < base) (hsixteen : base ≤ 16) (count : Nat) (cs : List Char) :
    scan base limit 0 (List.replicate count '0' ++ cs) = scan base limit 0 cs := by
  induction count with
  | zero => rfl
  | succ count ih =>
    have hzero : digitValue? base '0' = some 0 := digitValue?_digitChar hbase hsixteen
    rw [List.replicate_succ, List.cons_append, scan, hzero]
    simpa using ih

/-- A text that is read to its end has nothing but digits. -/
theorem isSome_of_scan {value n : Nat} {cs : List Char} (h : scan base limit value cs = .ok n) :
    ∀ c ∈ cs, (digitValue? base c).isSome := by
  induction cs generalizing value with
  | nil => exact nofun
  | cons c cs ih =>
    rw [scan] at h
    split at h
    case h_1 => cases h
    case h_2 d hd =>
      split at h
      case isTrue => exact List.forall_mem_cons.2 ⟨by simp [hd], ih h⟩
      case isFalse => cases h

theorem digits_eq_scan {cs : List Char} (hcs : cs ≠ []) : digits base limit cs = scan base limit 0 cs := by
  cases cs with
  | nil => exact absurd rfl hcs
  | cons c rest => rfl

/-- What is read to its end does not begin with a sign. -/
theorem head_ne_sign {n : Nat} {c : Char} {rest : List Char} (h : scan base limit 0 (c :: rest) = .ok n) :
    c ≠ '+' ∧ c ≠ '-' := by
  have hdigit := isSome_of_scan h c List.mem_cons_self
  constructor
  · rintro rfl
    exact absurd hdigit (by simp [digitValue?])
  · rintro rfl
    exact absurd hdigit (by simp [digitValue?])

/-- Digits need no sign. -/
theorem natural_of_scan {n : Nat} {cs : List Char} (hcs : cs ≠ []) (h : scan base limit 0 cs = .ok n) :
    natural base limit cs = .ok n := by
  match cs, hcs, h with
  | c :: rest, hcs, h =>
    rw [natural, digits_eq_scan hcs, h]
    · exact nofun
    · rintro _ ⟨⟩
      exact (head_ne_sign h).1 rfl

/-! ## Numbers -/

theorem toList_decimal (n : Nat) : (decimal n).toList = Nat.toDigits 10 n :=
  String.toList_ofList

theorem scan_decimal {n : Nat} (hn : n ≤ limit) : scan 10 limit 0 (decimal n).toList = .ok n := by
  rw [toList_decimal]
  exact scan_toDigits (by decide) (by decide) hn

theorem decimal_ne_nil (n : Nat) : (decimal n).toList ≠ [] := by
  rw [toList_decimal]
  exact Nat.toDigits_ne_nil

/-- Hexadecimal digits stand behind the prefix. -/
theorem toList_hexPadded (width n : Nat) : ∃ count,
    (hexPadded width n).toList = '0' :: 'x' :: (List.replicate count '0' ++ Nat.toDigits 16 n) :=
  ⟨width - (Nat.toDigits 16 n).length, by simp [hexPadded]⟩

theorem natural_hexPadded {n : Nat} (hn : n ≤ limit) (width : Nat) :
    natural 16 limit ((hexPadded width n).toList.drop 2) = .ok n := by
  obtain ⟨count, htext⟩ := toList_hexPadded width n
  rw [htext, List.drop_succ_cons, List.drop_succ_cons, List.drop_zero]
  refine natural_of_scan ?_ ?_
  · simp [Nat.toDigits_ne_nil]
  · rw [scan_replicate_zero (by decide) (by decide), scan_toDigits (by decide) (by decide) hn]

theorem integer?_signed {lower upper : Nat} {i : Int} (hlower : -lower ≤ i) (hupper : i ≤ upper) :
    integer? lower upper (signed i).toList = some i := by
  rw [signed]
  split
  case isTrue hneg =>
    have hdigits : digits 10 lower (decimal i.natAbs).toList = .ok i.natAbs := by
      rw [digits_eq_scan (decimal_ne_nil _), scan_decimal (by omega)]
    have htext : ("-" ++ decimal i.natAbs).toList = '-' :: (decimal i.natAbs).toList := by simp
    have hvalue : -(i.natAbs : Int) = i := by omega
    rw [htext, integer?, hdigits]
    exact congrArg some hvalue
  case isFalse hpos =>
    have hscan : scan 10 upper 0 (decimal i.natAbs).toList = .ok i.natAbs := scan_decimal (by omega)
    have hread : natural 10 upper (decimal i.natAbs).toList = .ok i.natAbs :=
      natural_of_scan (decimal_ne_nil _) hscan
    match htext : (decimal i.natAbs).toList, decimal_ne_nil i.natAbs with
    | c :: rest, _ =>
      rw [htext] at hscan hread
      have hvalue : (i.natAbs : Int) = i := by omega
      rw [integer?, hread]
      · exact congrArg some hvalue
      · rintro _ ⟨⟩
        exact (head_ne_sign hscan).2 rfl

/-! ## No two numbers are written alike -/

theorem hexPadded_inj {width m n : Nat} (h : hexPadded width m = hexPadded width n) : m = n := by
  have hm := natural_hexPadded (Nat.le_max_left m n) width
  have hn := natural_hexPadded (Nat.le_max_right m n) width
  rw [h, hn] at hm
  exact (Except.ok.inj hm).symm

theorem signed_inj {i j : Int} (h : signed i = signed j) : i = j := by
  have hi : integer? (max i.natAbs j.natAbs) (max i.natAbs j.natAbs) (signed i).toList = some i :=
    integer?_signed (by omega) (by omega)
  have hj : integer? (max i.natAbs j.natAbs) (max i.natAbs j.natAbs) (signed j).toList = some j :=
    integer?_signed (by omega) (by omega)
  rw [h, hj] at hi
  exact (Option.some.inj hi).symm

end Numeral

end Correlation

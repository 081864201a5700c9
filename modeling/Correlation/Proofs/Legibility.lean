import Correlation.Proofs.Lines
import Correlation.Proofs.Numerals
/-!
# Listings can be read back

A listing shows all there is of a tree (`render_eq_iff`). Lines end where line ends stand, since there is none within a
line, and words are what stands between blanks; from its words a node is known but for its arguments. Those follow it
one level further in, up to the next line that is not.
-/

namespace Correlation

namespace Listing

open Correlation.Expr (placed placedAll sizeAll)
open Numeral

/-! ## Words -/

/-- Neither blanks nor line ends. -/
def Unbroken (text : String) : Prop :=
  ∀ c ∈ text.toList, c ≠ ' ' ∧ c ≠ '\n'

instance (text : String) : Decidable (Unbroken text) :=
  List.decidableBAll (fun c => c ≠ ' ' ∧ c ≠ '\n') text.toList

theorem Unbroken.append {s t : String} (hs : Unbroken s) (ht : Unbroken t) : Unbroken (s ++ t) := by
  intro c hc
  rw [String.toList_append] at hc
  rcases List.mem_append.1 hc with hc | hc
  · exact hs c hc
  · exact ht c hc

/-- Digits are neither blanks nor line ends. -/
theorem unbroken_of_scan {base limit n : Nat} {digits : List Char} (h : scan base limit 0 digits = .ok n) :
    Unbroken (String.ofList digits) := by
  intro c hc
  rw [String.toList_ofList] at hc
  have hdigit := isSome_of_scan h c hc
  constructor
  · rintro rfl
    exact absurd hdigit (by simp [digitValue?])
  · rintro rfl
    exact absurd hdigit (by simp [digitValue?])

theorem unbroken_hexPadded (width n : Nat) : Unbroken (hexPadded width n) := by
  have hopening : Unbroken "0x" := by decide
  have hdigits : scan 16 n 0 (Nat.toDigits 16 n) = .ok n := scan_toDigits (by decide) (by decide) (Nat.le_refl n)
  rw [← scan_replicate_zero (by decide) (by decide)] at hdigits
  exact hopening.append (unbroken_of_scan hdigits)

theorem unbroken_decimal (n : Nat) : Unbroken (decimal n) :=
  unbroken_of_scan (scan_toDigits (by decide) (by decide) (Nat.le_refl n))

theorem unbroken_signed (i : Int) : Unbroken (signed i) := by
  have hminus : Unbroken "-" := by decide
  unfold signed
  split
  · exact hminus.append (unbroken_decimal _)
  · exact unbroken_decimal _

theorem unbroken_operator (op : Operator) : Unbroken op.name := by
  cases op <;> decide

/-- The words of the line of a node. -/
def words : Expr → List String
  | .invalid .absent => ["invalid:", "absent"]
  | .invalid (.unknownTag tag) => ["invalid:", "unknown", "tag", byteText tag]
  | .invalid (.unsupportedOperator code field) =>
    ["invalid:", "unsupported", "operator", byteText code, "raw=" ++ fieldText field]
  | .const .bits32 format offset value =>
    ["const32", signed value.toInt, "fc=" ++ byteText format, "offset=" ++ signed offset.toInt]
  | .const .bits64 format offset value =>
    ["const64", signed value.toInt, "fc=" ++ byteText format, "offset=" ++ signed offset.toInt]
  | .var format offset => ["var", "fc=" ++ byteText format, "offset=" ++ signed offset.toInt]
  | .operator op field _ =>
    ["op", op.name, "(" ++ op.group.name ++ ")", "fc=" ++ byteText field.toUInt16.toUInt8, "raw=" ++ fieldText field]

/-- A line is its words with a blank between any two. -/
theorem toList_line (e : Expr) : (line e).toList = [' '].intercalate ((words e).map String.toList) := by
  fun_cases words e <;>
    simp only [line.eq_def, placeText, String.toList_append, List.map_cons, List.map_nil, List.intercalate_cons_cons,
      List.intercalate_singleton, List.append_assoc] <;>
    rfl

theorem unbroken_words (e : Expr) : ∀ w ∈ words e, Unbroken w := by
  have hbyte : ∀ b, Unbroken (byteText b) := fun b => unbroken_hexPadded 2 _
  have hformat : ∀ b, Unbroken ("fc=" ++ byteText b) := fun b => Unbroken.append (by decide) (hbyte b)
  have hoffset : ∀ i, Unbroken ("offset=" ++ signed i) := fun i => Unbroken.append (by decide) (unbroken_signed i)
  have hraw : ∀ field, Unbroken ("raw=" ++ fieldText field) :=
    fun field => Unbroken.append (by decide) (unbroken_hexPadded 4 _)
  have hgroup : ∀ g : OperatorGroup, Unbroken ("(" ++ g.name ++ ")") := by
    intro g
    cases g <;> decide
  fun_cases words e <;>
    simp only [List.forall_mem_cons, List.not_mem_nil, false_implies, implies_true, and_true, hbyte, hformat, hoffset,
      hraw, hgroup, unbroken_signed, unbroken_operator] <;>
    decide

/-- The words of a line stand between its blanks. -/
theorem splitOn_line (e : Expr) : (line e).toList.splitOn ' ' = (words e).map String.toList := by
  rw [toList_line, List.splitOn_intercalate]
  · simp only [List.forall_mem_map]
    intro w hw hblank
    exact (unbroken_words e w hw ' ' hblank).1 rfl
  · fun_cases words e <;> exact nofun

theorem operator_eq_of_name {p q : Operator} (h : p.name = q.name) : p = q := by
  have hfound : ∀ op : Operator, Operator.all.find? (·.name == op.name) = some op := by
    intro op
    cases op <;> rfl
  have hp := hfound p
  rw [h, hfound q] at hp
  exact (Option.some.inj hp).symm

/-- A node is known from its words and its arguments. -/
theorem eq_of_words {e f : Expr} (hwords : words e = words f) (hargs : e.args = f.args) : e = f := by
  have hbyte : ∀ {b b' : UInt8}, byteText b = byteText b' ↔ b = b' := by
    intro b b'
    exact ⟨fun h => UInt8.toNat_inj.1 (hexPadded_inj h), fun h => by rw [h]⟩
  have hfield : ∀ {x y : Int16}, fieldText x = fieldText y ↔ x = y := by
    intro x y
    refine ⟨fun h => ?_, fun h => by rw [h]⟩
    rw [← Int16.toInt16_toUInt16 x, ← Int16.toInt16_toUInt16 y, UInt16.toNat_inj.1 (hexPadded_inj h)]
  have hsigned : ∀ {i j : Int}, signed i = signed j ↔ i = j := ⟨signed_inj, fun h => by rw [h]⟩
  have hname : ∀ {p q : Operator}, p.name = q.name ↔ p = q := ⟨operator_eq_of_name, fun h => by rw [h]⟩
  -- Different kinds of nodes differ in a first word or in the number of words.
  fun_cases words e <;> fun_cases words f <;>
    simp_all [words, String.append_right_inj, Int16.toInt_inj, Int64.toInt_inj, Expr.args]

theorem eq_of_line {e f : Expr} (hline : line e = line f) (hargs : e.args = f.args) : e = f := by
  have hwords := splitOn_line e
  rw [hline, splitOn_line f] at hwords
  have hsame := congrArg (List.map String.ofList) hwords
  simp only [List.map_map, Function.comp_def, String.ofList_toList, List.map_id'] at hsame
  exact eq_of_words hsame.symm hargs

/-! ## Lines -/

/-- The depth and the text of an indented line. -/
def unindent (cs : List Char) : Nat × String :=
  ((cs.takeWhile (· = ' ')).length / 2, String.ofList (cs.dropWhile (· = ' ')))

/-- The lines of a listing, each with its depth. -/
def readLines (text : String) : List (Nat × String) :=
  (text.toList.splitOn '\n').dropLast.map unindent

theorem line_begins (e : Expr) : ∃ c rest, (line e).toList = c :: rest ∧ c ≠ ' ' := by
  rw [toList_line]
  fun_cases words e <;> exact ⟨_, _, rfl, by decide⟩

theorem mem_intercalate {c : Char} {separator : List Char} {parts : List (List Char)}
    (h : c ∈ separator.intercalate parts) : c ∈ separator ∨ ∃ part ∈ parts, c ∈ part := by
  match parts with
  | [] => cases h
  | [part] =>
    rw [List.intercalate_singleton] at h
    exact .inr ⟨part, List.mem_cons_self, h⟩
  | part :: next :: rest =>
    rw [List.intercalate_cons_cons, List.mem_append, List.mem_append] at h
    rcases h with (h | h) | h
    · exact .inr ⟨part, List.mem_cons_self, h⟩
    · exact .inl h
    · rcases mem_intercalate h with h | ⟨found, hfound, h⟩
      · exact .inl h
      · exact .inr ⟨found, List.mem_cons_of_mem part hfound, h⟩

/-- There is no line end within a line. -/
theorem newline_not_mem_line (e : Expr) : '\n' ∉ (line e).toList := by
  intro h
  rw [toList_line] at h
  rcases mem_intercalate h with h | ⟨part, hpart, h⟩
  · exact absurd h (by decide)
  · obtain ⟨w, hw, rfl⟩ := List.mem_map.1 hpart
    exact (unbroken_words e w hw _ h).2 rfl

theorem unindent_indented (depth : Nat) (e : Expr) :
    unindent (List.replicate (2 * depth) ' ' ++ (line e).toList) = (depth, line e) := by
  obtain ⟨c, rest, hline, hc⟩ := line_begins e
  have hblanks : ∀ a ∈ List.replicate (2 * depth) ' ', decide (a = ' ') = true := by
    intro a ha
    simpa using List.eq_of_mem_replicate ha
  have htext : String.ofList (c :: rest) = line e := by rw [← hline, String.ofList_toList]
  rw [unindent, List.takeWhile_append_of_pos hblanks, List.dropWhile_append_of_pos hblanks, hline]
  simp [hc, htext]

theorem newline_not_mem_placedLine (node : Nat × Expr) : '\n' ∉ (placedLine node).toList := by
  rw [placedLine, String.toList_append, String.toList_ofList, List.mem_append]
  rintro (h | h)
  · exact absurd (List.eq_of_mem_replicate h) (by decide)
  · exact newline_not_mem_line node.2 h

theorem splitOn_lines (nodes : List (Nat × Expr)) :
    (lines nodes).toList.splitOn '\n' =
      nodes.map (fun node => List.replicate (2 * node.1) ' ' ++ (line node.2).toList) ++ [[]] := by
  rw [lines_eq_unlines, splitOn_unlines (List.forall_mem_map.2 fun node _ => newline_not_mem_placedLine node),
    List.map_map]
  simp [placedLine, Function.comp_def]

/-! ## Trees -/

/-- The next line, if there is one, is not as far in as `depth`. -/
def Returns (depth : Nat) (rest : List (Nat × String)) : Prop :=
  ∀ next ∈ rest.head?, next.1 < depth

/-- The lines of trees. -/
def shown (depth : Nat) (es : List Expr) : List (Nat × String) :=
  (placedAll depth es).map fun node => (node.1, line node.2)

/-- The lines of a tree are read back from its listing. -/
theorem readLines_render (e : Expr) : readLines e.render = shown 0 [e] := by
  rw [readLines, render_eq_lines, splitOn_lines, List.dropLast_concat, List.map_map, shown, placedAll, placedAll,
    List.append_nil]
  exact List.map_congr_left fun node _ => unindent_indented node.1 node.2

theorem shown_cons (depth : Nat) (e : Expr) (es : List Expr) :
    shown depth (e :: es) = (depth, line e) :: (shown (depth + 1) e.args ++ shown depth es) := by
  simp [shown, placedAll, Expr.placed_eq]

theorem Returns.ne_shown {depth : Nat} {rest rest' : List (Nat × String)} (h : Returns depth rest) {e : Expr}
    {es : List Expr} : rest ≠ shown depth (e :: es) ++ rest' := by
  rintro rfl
  rw [shown_cons] at h
  exact Nat.lt_irrefl depth (h (depth, line e) rfl)

/-- What comes behind the arguments of a node is not as far in as they are. -/
theorem returns_shown {depth : Nat} {rest : List (Nat × String)} (h : Returns depth rest) (es : List Expr) :
    Returns (depth + 1) (shown depth es ++ rest) := by
  cases es with
  | nil =>
    intro next hnext
    exact Nat.lt_succ_of_lt (h next hnext)
  | cons e es =>
    rw [shown_cons]
    rintro next ⟨⟩
    exact Nat.lt_succ_self depth

/-- Trees are known from their lines, and these end where the next line is not as far in as the trees. -/
theorem eq_of_shown {depth : Nat} (es fs : List Expr) {rest rest' : List (Nat × String)} (hrest : Returns depth rest)
    (hrest' : Returns depth rest') (h : shown depth es ++ rest = shown depth fs ++ rest') : es = fs ∧ rest = rest' := by
  match es, fs with
  | [], [] => exact ⟨rfl, h⟩
  | e :: es, [] => exact absurd h.symm hrest'.ne_shown
  | [], f :: fs => exact absurd h hrest.ne_shown
  | e :: es, f :: fs =>
    simp only [shown_cons, List.cons_append, List.append_assoc, List.cons.injEq, Prod.mk.injEq, true_and] at h
    obtain ⟨hline, hbehind⟩ := h
    -- The lines behind the first one belong to its arguments as long as they are further in.
    obtain ⟨hargs, htail⟩ := eq_of_shown e.args f.args (returns_shown hrest es) (returns_shown hrest' fs) hbehind
    obtain ⟨rfl, rfl⟩ := eq_of_shown es fs hrest hrest' htail
    rw [eq_of_line hline hargs]
    exact ⟨rfl, rfl⟩
termination_by sizeAll es
decreasing_by
  all_goals simp only [sizeAll, Expr.size_eq]
  all_goals omega

end Listing

/-! ## Main theorem -/

/-- No two trees have the same listing, whether or not they keep the arity rule. -/
theorem Expr.render_eq_iff {a b : Expr} : a.render = b.render ↔ a = b := by
  refine ⟨fun h => ?_, fun h => by rw [h]⟩
  have hshown : Listing.shown 0 [a] = Listing.shown 0 [b] := by
    rw [← Listing.readLines_render, ← Listing.readLines_render, h]
  have hends : Listing.Returns 0 [] := nofun
  obtain ⟨htrees, -⟩ := Listing.eq_of_shown [a] [b] hends hends (by rw [hshown])
  exact (List.cons.inj htrees).1

end Correlation

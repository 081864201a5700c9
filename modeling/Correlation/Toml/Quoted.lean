import Correlation.Numeral
/-!
# TOML strings

The four kinds of quoted text. Each reader starts after the opening quotes and returns the text and what
follows the closing ones. Control characters other than tab have to be escaped, and line ends may only
stand in the kinds with three quotes.
-/

namespace Correlation

namespace Toml

/-- A character that may stand for itself in comments and quoted text. -/
def isPrintable (c : Char) : Bool :=
  c = '\t' || (' ' ≤ c && c ≠ '\x7f')

def isBlank (c : Char) : Bool :=
  c = ' ' || c = '\t'

/-- The character with a code, unless there is none. -/
def character? (digits : List Char) : Option Char := do
  let values ← digits.mapM (Numeral.digitValue? 16)
  let code := values.foldl (16 * · + ·) 0
  if code.isValidChar then some (Char.ofNat code) else none

/-- The characters with an escape of one letter. -/
def letterEscapes : List (Char × Char) :=
  [('b', '\x08'), ('t', '\t'), ('n', '\n'), ('f', '\x0c'), ('r', '\r'), ('e', '\x1b'), ('"', '"'), ('\\', '\\')]

/-- How many hexadecimal digits follow the letters that introduce a code. -/
def codeLengths : List (Char × Nat) :=
  [('x', 2), ('u', 4), ('U', 8)]

/-- The character that an escape stands for, and what follows it; the backslash is gone already. -/
def escape : List Char → Option (Char × List Char)
  | [] => none
  | letter :: rest =>
    match letterEscapes.lookup letter with
    | some c => some (c, rest)
    | none =>
      match codeLengths.lookup letter with
      | some count =>
        if rest.length < count then none else (character? (rest.take count)).map (·, rest.drop count)
      | none => none

theorem length_lt_of_escape {cs rest : List Char} {c : Char} (h : escape cs = some (c, rest)) :
    rest.length < cs.length := by
  unfold escape at h
  split at h
  · cases h
  · split at h
    · cases h
      simp
    · split at h
      · split at h
        · cases h
        · obtain ⟨_, _, h⟩ := Option.map_eq_some_iff.1 h
          cases h
          simp only [List.length_drop, List.length_cons]
          omega
      · cases h

/-- Text in double quotes, on one line. -/
def basic (cs : List Char) : Option (List Char × List Char) :=
  match cs with
  | [] => none
  | '"' :: rest => some ([], rest)
  | '\\' :: rest =>
    match _h : escape rest with
    | none => none
    | some (c, rest') => (basic rest').map fun (text, after) => (c :: text, after)
  | c :: rest =>
    if isPrintable c then (basic rest).map fun (text, after) => (c :: text, after) else none
termination_by cs.length
decreasing_by
  · have := length_lt_of_escape _h
    simp only [List.length_cons]
    omega
  · simp

/-- Text in single quotes, on one line; it has no escapes. -/
def verbatim : List Char → Option (List Char × List Char)
  | [] => none
  | '\'' :: rest => some ([], rest)
  | c :: rest => if isPrintable c then (verbatim rest).map fun (text, after) => (c :: text, after) else none

/-- A line end right after the opening quotes is no part of the text. -/
def skipLineEnd : List Char → List Char
  | '\n' :: rest => rest
  | '\r' :: '\n' :: rest => rest
  | cs => cs

/-- Three closing quotes, and the quotes of the text that stand directly before them: two at most. -/
def closing (quote : Char) (cs : List Char) : Option (List Char × List Char) :=
  let quotes := min 5 (cs.takeWhile (· = quote)).length
  if 3 ≤ quotes then some (List.replicate (quotes - 3) quote, cs.drop quotes) else none

/-- Skip blanks and line ends. -/
def skipBreaks : List Char → List Char
  | '\r' :: '\n' :: rest => skipBreaks rest
  | c :: rest => if isBlank c || c = '\n' then skipBreaks rest else c :: rest
  | [] => []

theorem length_skipBreaks_le (cs : List Char) : (skipBreaks cs).length ≤ cs.length := by
  fun_induction skipBreaks cs with
  | case1 rest ih =>
    simp only [List.length_cons]
    omega
  | case2 c rest _ _ ih =>
    simp only [List.length_cons]
    omega
  | case3 => exact Nat.le_refl _
  | case4 => exact Nat.le_refl _

/-- The rest of a line that ends in a backslash, and all blanks and line ends at the start of the next. -/
def continuation? (cs : List Char) : Option (List Char) :=
  match cs.dropWhile isBlank with
  | '\n' :: rest => some (skipBreaks rest)
  | '\r' :: '\n' :: rest => some (skipBreaks rest)
  | _ => none

theorem length_lt_of_continuation {cs rest : List Char} (h : continuation? cs = some rest) :
    rest.length < cs.length := by
  unfold continuation? at h
  have blanks := (List.dropWhile_suffix (l := cs) isBlank).length_le
  split at h
  next r heq =>
    cases h
    rw [heq, List.length_cons] at blanks
    exact Nat.lt_of_lt_of_le (Nat.lt_succ_of_le (length_skipBreaks_le r)) blanks
  next r heq =>
    cases h
    rw [heq, List.length_cons, List.length_cons] at blanks
    exact Nat.lt_of_lt_of_le (Nat.lt_succ_of_le (Nat.le_succ_of_le (length_skipBreaks_le r))) blanks
  next => cases h

/-- Text in three double quotes. -/
def basicLines (cs : List Char) : Option (List Char × List Char) :=
  match closing '"' cs with
  | some done => some done
  | none =>
    match cs with
    | [] => none
    | '\\' :: rest =>
      match _h : continuation? rest with
      | some rest' => basicLines rest'
      | none =>
        match _h' : escape rest with
        | none => none
        | some (c, rest') => (basicLines rest').map fun (text, after) => (c :: text, after)
    | '\r' :: '\n' :: rest => (basicLines rest).map fun (text, after) => ('\n' :: text, after)
    | c :: rest =>
      if isPrintable c || c = '\n' then (basicLines rest).map fun (text, after) => (c :: text, after) else none
termination_by cs.length
decreasing_by
  · have := length_lt_of_continuation _h
    simp only [List.length_cons]
    omega
  · have := length_lt_of_escape _h'
    simp only [List.length_cons]
    omega
  · simp only [List.length_cons]
    omega
  · simp

/-- Text in three single quotes. -/
def verbatimLines (cs : List Char) : Option (List Char × List Char) :=
  match closing '\'' cs with
  | some done => some done
  | none =>
    match cs with
    | [] => none
    | '\r' :: '\n' :: rest => (verbatimLines rest).map fun (text, after) => ('\n' :: text, after)
    | c :: rest =>
      if isPrintable c || c = '\n' then (verbatimLines rest).map fun (text, after) => (c :: text, after)
      else none

end Toml

end Correlation

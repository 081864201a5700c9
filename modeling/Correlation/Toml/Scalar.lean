import Correlation.Numeral
import Correlation.Toml.Value
/-!
# TOML scalars

Integers, floats, booleans, dates and times, each from the whole run of characters that spells it. Digits
may be grouped by single underscores; decimal numbers have no leading zeros. What follows from the spelling
alone decides whether a document is one; that an integer has no value does not.
-/

namespace Correlation

namespace Toml

/-! ## Numbers -/

/-- Digits, with an underscore between any two of them at most. The underscores are dropped. -/
def grouped (base : Nat) : List Char → Option (List Nat)
  | [] => none
  | [c] => (Numeral.digitValue? base c).map ([·])
  | c :: '_' :: d :: rest => do
    let value ← Numeral.digitValue? base c
    return value :: (← grouped base (d :: rest))
  | c :: d :: rest => do
    let value ← Numeral.digitValue? base c
    return value :: (← grouped base (d :: rest))

/-- The number with these digits, the most significant one first. -/
def ofDigits (base : Nat) (digits : List Nat) : Nat :=
  digits.foldl (base * · + ·) 0

/-- Decimal digits without a leading zero, zero itself apart. -/
def plain? (cs : List Char) : Option Nat := do
  let digits ← grouped 10 cs
  if digits.head? = some 0 ∧ digits.length > 1 then none else some (ofDigits 10 digits)

/-- Split a sign off; true says that it is a minus. -/
def signOf : List Char → Bool × List Char
  | '-' :: rest => (true, rest)
  | '+' :: rest => (false, rest)
  | cs => (false, cs)

def withSign (negative : Bool) (n : Nat) : Int :=
  if negative then -n else n

/-- A whole number and whether it has a minus. -/
def whole? (cs : List Char) : Option (Bool × Nat) :=
  let (negative, digits) := signOf cs
  (plain? digits).map (negative, ·)

/-- Only decimal integers have a sign. -/
def integer? : List Char → Option Int
  | '0' :: 'x' :: rest => (grouped 16 rest).map fun digits => Int.ofNat (ofDigits 16 digits)
  | '0' :: 'o' :: rest => (grouped 8 rest).map fun digits => Int.ofNat (ofDigits 8 digits)
  | '0' :: 'b' :: rest => (grouped 2 rest).map fun digits => Int.ofNat (ofDigits 2 digits)
  | cs => (whole? cs).map fun (negative, n) => withSign negative n

def isExponentMark (c : Char) : Bool :=
  c = 'e' || c = 'E'

/-- From here on an exponent is so great that its further digits do not count. -/
def exponentCap : Nat := 0x10000

def exponentOf (digits : List Nat) : Nat :=
  digits.foldl (fun n digit => if n < exponentCap then 10 * n + digit else n) 0

/-- What follows the mark; none at all counts as zero. -/
def exponent? : List Char → Option Int
  | [] => some 0
  | _ :: rest =>
    let (negative, digits) := signOf rest
    (grouped 10 digits).map fun ds => withSign negative (exponentOf ds)

/-- A whole part and a fraction or an exponent, or both. -/
def real? (cs : List Char) : Option Real := do
  let name := String.ofList (signOf cs).2
  if name = "inf" then some .infinite
  else if name = "nan" then some .nan
  else
    let (whole, rest) := cs.span fun c => c ≠ '.' && !isExponentMark c
    let (negative, wholeValue) ← whole? whole
    match rest with
    | [] => none
    | '.' :: rest =>
      let (fraction, rest) := rest.span fun c => !isExponentMark c
      let digits ← grouped 10 fraction
      let exponent ← exponent? rest
      let mantissa := wholeValue * Nat.pow 10 digits.length + ofDigits 10 digits
      return .finite (withSign negative mantissa) (exponent - digits.length)
    | rest => return .finite (withSign negative wholeValue) (← exponent? rest)

/-! ## Integers without a value -/

def isHexDigit (c : Char) : Bool :=
  (Numeral.digitValue? 16 c).isSome

/-- Whether every underscore stands between two hexadecimal digits. -/
def isSpaced : List Char → Bool
  | [] => true
  | '_' :: _ => false
  | c :: '_' :: d :: rest => isHexDigit c && isHexDigit d && isSpaced (d :: rest)
  | _ :: rest => isSpaced rest

/-- A character that a group of digits cannot have inside: it makes the whole a float, or a date with a time. -/
def isForeign (c : Char) : Bool :=
  c = '.' || isExponentMark c || c = ' '

/-- The prefix of a base alone, or groups of which the first holds decimal digits and the others anything, as
long as it is a digit that stands next to an underscore. -/
def isHollow (cs : List Char) : Bool :=
  let (first, others) := (signOf cs).2.span (·.isDigit)
  cs = "0x".toList || cs = "0o".toList || cs = "0b".toList ||
    (first ≠ [] && first.head? ≠ some '0' && others.head? = some '_' && isSpaced (first ++ others) &&
      !others.any isForeign)

/-! ## Dates and times -/

/-- Exactly `count` digits and what follows them. -/
def fixed (count : Nat) (cs : List Char) : Option (Nat × List Char) := do
  let digits ← (cs.take count).mapM (Numeral.digitValue? 10)
  if digits.length = count then some (ofDigits 10 digits, cs.drop count) else none

def isLeap (year : Nat) : Bool :=
  year % 4 = 0 && (year % 100 ≠ 0 || year % 400 = 0)

def daysIn (year month : Nat) : Nat :=
  if month = 2 then (if isLeap year then 29 else 28)
  else if month = 4 ∨ month = 6 ∨ month = 9 ∨ month = 11 then 30
  else 31

/-- A character that has to stand there. -/
def mark (c : Char) : List Char → Option (List Char)
  | d :: rest => if c = d then some rest else none
  | [] => none

/-- A day of the calendar at the front. -/
def date (cs : List Char) : Option (List Char) := do
  let (year, rest) ← fixed 4 cs
  let (month, rest) ← fixed 2 (← mark '-' rest)
  let (day, rest) ← fixed 2 (← mark '-' rest)
  if 1 ≤ month ∧ month ≤ 12 ∧ 1 ≤ day ∧ day ≤ daysIn year month then some rest else none

/-- Seconds and a fraction of them; both may be left out. A leap second is a second. -/
def seconds : List Char → Option (List Char)
  | ':' :: rest => do
    let (second, rest) ← fixed 2 rest
    if second > 60 then none
    else
      match rest with
      | '.' :: rest =>
        let digits := rest.takeWhile (·.isDigit)
        if digits.isEmpty then none else some (rest.drop digits.length)
      | rest => some rest
  | rest => some rest

/-- A time of day at the front. -/
def clock (cs : List Char) : Option (List Char) := do
  let (hour, rest) ← fixed 2 cs
  let (minute, rest) ← fixed 2 (← mark ':' rest)
  if hour ≤ 23 ∧ minute ≤ 59 then seconds rest else none

/-- An offset from universal time, or none, up to the end. -/
def isOffset : List Char → Bool
  | [] | ['Z'] | ['z'] => true
  | sign :: rest =>
    (sign = '+' || sign = '-') && (do
      let (hour, rest) ← fixed 2 rest
      let (minute, rest) ← fixed 2 (← mark ':' rest)
      guard (rest = [] ∧ hour ≤ 23 ∧ minute ≤ 59)).isSome

def isMoment (cs : List Char) : Bool :=
  match date cs with
  | none => clock cs = some []
  | some [] => true
  | some (separator :: rest) =>
    (separator = 'T' || separator = 't' || separator = ' ') && ((clock rest).map isOffset).getD false

/-! ## Any scalar -/

/-- The value of a run of characters. -/
def scalar? (cs : List Char) : Option Value :=
  if cs = "true".toList then some (.boolean true)
  else if cs = "false".toList then some (.boolean false)
  else
    ((integer? cs).map .integer).or <|
      ((real? cs).map .real).or <|
        if isMoment cs then some (.moment (String.ofList cs))
        else if isHollow cs then some .hollow
        else none

end Toml

end Correlation

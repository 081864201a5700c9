/-!
# Numbers as text

How listings and messages write numbers, and how number texts are read: a left-to-right scan that stops
at the first character that is no digit or at the first digit that takes the value past its limit,
whichever comes first.
-/

namespace Correlation

namespace Numeral

/-- The greatest number of 64 bits. -/
def greatestWord : Nat := 0xffffffffffffffff

/-- The greatest number of 64 bits with a sign. -/
def greatestSigned : Nat := 0x7fffffffffffffff

/-! ## Writing -/

/-- Lower-case hexadecimal digits, at least `width` of them, after `0x`. -/
def hexPadded (width n : Nat) : String :=
  let digits := Nat.toDigits 16 n
  "0x" ++ String.ofList (List.replicate (width - digits.length) '0' ++ digits)

/-- Hexadecimal without padding; zero is `0x0`. -/
def hex (n : Nat) : String :=
  hexPadded 1 n

def decimal (n : Nat) : String :=
  String.ofList (Nat.toDigits 10 n)

/-- Decimal with a leading `-` for the negative numbers. -/
def signed (i : Int) : String :=
  if i < 0 then "-" ++ decimal i.natAbs else decimal i.natAbs

/-! ## Reading -/

/-- Why a text is no number of the wanted range. -/
inductive Fault where
  | empty
  | invalidDigit
  | tooLarge
  deriving Repr, DecidableEq

def Fault.message : Fault → String
  | empty => "cannot parse integer from empty string"
  | invalidDigit => "invalid digit found in string"
  | tooLarge => "number too large to fit in target type"

/-- The value of a digit in a base up to 36; letters count in either case, and only ASCII ones. -/
def digitValue? (base : Nat) (c : Char) : Option Nat :=
  let value :=
    if '0' ≤ c ∧ c ≤ '9' then some (c.toNat - '0'.toNat)
    else if 'a' ≤ c ∧ c ≤ 'z' then some (c.toNat - 'a'.toNat + 10)
    else if 'A' ≤ c ∧ c ≤ 'Z' then some (c.toNat - 'A'.toNat + 10)
    else none
  value.filter (· < base)

/-- Scan digits into `value`, which stays at most `limit`. -/
def scan (base limit : Nat) (value : Nat) : List Char → Except Fault Nat
  | [] => .ok value
  | c :: rest =>
    match digitValue? base c with
    | none => .error .invalidDigit
    | some d => if base * value + d ≤ limit then scan base limit (base * value + d) rest else .error .tooLarge

/-- One or more digits whose value is at most `limit`. -/
def digits (base limit : Nat) : List Char → Except Fault Nat
  | [] => .error .invalidDigit
  | cs => scan base limit 0 cs

/-- A natural number of at most `limit`, after an optional `+`. -/
def natural (base limit : Nat) : List Char → Except Fault Nat
  | [] => .error .empty
  | '+' :: rest => digits base limit rest
  | cs => digits base limit cs

/-- A decimal integer of at least `-lower` and at most `upper`, after an optional sign. -/
def integer? (lower upper : Nat) : List Char → Option Int
  | '-' :: rest => (digits 10 lower rest).toOption.map fun n => -(n : Int)
  | cs => (natural 10 upper cs).toOption.map Int.ofNat

end Numeral

end Correlation

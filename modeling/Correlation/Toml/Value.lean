/-!
# TOML values

What a configuration document holds. Numbers are kept as integers and powers of ten; a date or time is kept as
it was written. Some spellings pass as integers and denote none; that counts only where the number is asked
for.
-/

namespace Correlation

namespace Toml

/-- A number written with a fraction or an exponent: `mantissa * 10 ^ exponent`, or one of the special ones. -/
inductive Real where
  | finite (mantissa exponent : Int)
  | infinite
  | nan
  deriving Repr, DecidableEq

inductive Value where
  | integer (value : Int)
  /-- Spelled like an integer, but without a value. -/
  | hollow
  | real (value : Real)
  | boolean (value : Bool)
  | text (value : String)
  | moment (written : String)
  | array (items : List Value)
  /-- The entries of a table, in the order of their keys' first appearance. -/
  | table (entries : List (String × Value))

/-! ## Numbers that a machine can hold -/

/-- Whether a number, rounded to double precision, is still finite. The bound is the midpoint between the
greatest double and the power of two after it. The tests of magnitude before the comparisons agree with them and
keep the powers of ten small. -/
def Real.isHeld : Real → Bool
  | .finite mantissa exponent =>
    let size := mantissa.natAbs
    let bound := Nat.pow 2 1024 - Nat.pow 2 970
    let places := (-exponent).toNat
    if size = 0 then true
    else if 400 < exponent then false
    else if 0 ≤ exponent then size * Nat.pow 10 exponent.toNat < bound
    else Nat.log2 size < places + 1000 || size < bound * Nat.pow 10 places
  | .infinite | .nan => true

mutual

/-- Whether every integer in a value has a value and fits 128 bits, signed or unsigned, and every other number
fits a double. -/
def Value.isHeld : Value → Bool
  | .integer value => -0x80000000000000000000000000000000 ≤ value && value ≤ 0xffffffffffffffffffffffffffffffff
  | .hollow => false
  | .real value => value.isHeld
  | .boolean _ | .text _ | .moment _ => true
  | .array items => Value.allHeld items
  | .table entries => Value.entriesHeld entries

def Value.allHeld : List Value → Bool
  | [] => true
  | v :: rest => v.isHeld && Value.allHeld rest

def Value.entriesHeld : List (String × Value) → Bool
  | [] => true
  | (_, v) :: rest => v.isHeld && Value.entriesHeld rest

end

end Toml

end Correlation

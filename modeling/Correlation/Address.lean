import Correlation.Image
/-!
# Addresses as text

Decimal, or hexadecimal after `0x` or `0X`; in either form one `+` may stand before the digits.
-/

namespace Correlation

namespace Address

/-- The digits of an address text and their base. -/
def split : List Char → Nat × List Char
  | '0' :: 'x' :: digits => (16, digits)
  | '0' :: 'X' :: digits => (16, digits)
  | digits => (10, digits)

/-- The address a text stands for. -/
def ofText (text : String) : Except Numeral.Fault Nat :=
  let (base, digits) := split text.toList
  Numeral.natural base (addressSpace - 1) digits

/-- What is said about a text that is no address. -/
def faultMessage (text : String) (fault : Numeral.Fault) : String :=
  s!"invalid address `{text}`: {fault.message}"

/-- The address a text stands for, or what is said about the text. -/
def answer (text : String) : Except String Nat :=
  (ofText text).mapError (faultMessage text)

end Address

end Correlation

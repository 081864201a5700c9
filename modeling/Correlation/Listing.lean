import Correlation.Expr
/-!
# Listings

A tree as text, one line for each node, arguments two spaces further in than their operator.
-/

namespace Correlation

namespace Listing

/-- The field of an operator header, as the four digits of its bits. -/
def fieldText (field : Int16) : String :=
  Numeral.hexPadded 4 field.toUInt16.toNat

def byteText (b : UInt8) : String :=
  Numeral.hexPadded 2 b.toNat

/-- What a line ends in that has a format character and an offset. -/
def placeText (format : UInt8) (offset : Int16) : String :=
  " fc=" ++ byteText format ++ " offset=" ++ Numeral.signed offset.toInt

/-- The line of a node, without indentation. -/
def line : Expr → String
  | .invalid .absent => "invalid: absent"
  | .invalid (.unknownTag tag) => "invalid: unknown tag " ++ byteText tag
  | .invalid (.unsupportedOperator code field) =>
    "invalid: unsupported operator " ++ byteText code ++ " raw=" ++ fieldText field
  | .const .bits32 format offset value => "const32 " ++ Numeral.signed value.toInt ++ placeText format offset
  | .const .bits64 format offset value => "const64 " ++ Numeral.signed value.toInt ++ placeText format offset
  | .var format offset => "var" ++ placeText format offset
  | .operator op field _ =>
    "op " ++ op.name ++ " (" ++ op.group.name ++ ") fc=" ++ byteText field.toUInt16.toUInt8 ++
      " raw=" ++ fieldText field

/-- A complete line at a level. -/
def indented (level : Nat) (text : String) : String :=
  String.ofList (List.replicate (2 * level) ' ') ++ text ++ "\n"

mutual

/-- Write a tree at a level after `out`. -/
def write (out : String) (level : Nat) : Expr → String
  | .operator op field args => writeAll (out ++ indented level (line (.operator op field args))) (level + 1) args
  | e => out ++ indented level (line e)

def writeAll (out : String) (level : Nat) : List Expr → String
  | [] => out
  | e :: rest => writeAll (write out level e) level rest

end

end Listing

/-- The listing of a tree. -/
def Expr.render (e : Expr) : String :=
  Listing.write "" 0 e

end Correlation

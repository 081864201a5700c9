import Correlation.Attempt
import Correlation.Log
import Correlation.Source
/-!
# Cursors

Sequential little-endian reads of a source. A `Decoder` is an attempt on a cursor: where the cursor
stands, every read it tried and every event it reported are kept whether it fails or not. A failed read
leaves the position where it was.
-/

namespace Correlation

/-- The address of the next byte, the reads tried so far and the events so far, oldest first. -/
structure Cursor where
  position : Nat
  reads : Array Span := #[]
  events : Array Event := #[]

/-- A computation on a cursor that may fail. -/
abbrev Decoder (α : Type) : Type :=
  Attempt Cursor Failure α

namespace Decoder

variable {α : Type}

open Attempt

def position : Decoder Nat :=
  fun c => (.ok c.position, c)

/-- Report an event. -/
def note (e : Event) : Decoder Unit :=
  fun c => (.ok (), { c with events := c.events.push e })

/-- Run at another address and come back. -/
def atAddress (address : Nat) (d : Decoder α) : Decoder α :=
  fun c =>
    match d { c with position := address } with
    | (r, c') => (r, { c' with position := c.position })

/-! ## Fields -/

/-- The number whose base-256 digits are the bytes, least significant first. -/
def littleEndian : List UInt8 → Nat
  | [] => 0
  | b :: rest => b.toNat + 256 * littleEndian rest

/-- A read that leaves the position alone. -/
def peek (source : Source) (count : Nat) : Decoder (List UInt8) :=
  fun c =>
    ((source.answer c.reads ⟨c.position, count⟩).map (·.toList),
      { c with reads := c.reads.push ⟨c.position, count⟩ })

theorem peek_ofImage (image : Image) (count : Nat) (c : Cursor) :
    peek image count c = (image.read c.position count, { c with reads := c.reads.push ⟨c.position, count⟩ }) := by
  rw [peek, Source.answer_ofImage]

/-- Move past `count` bytes; the position after them must be an address. -/
def skip (count : Nat) : Decoder Unit :=
  fun c =>
    if c.position + count < addressSpace then (.ok (), { c with position := c.position + count })
    else (.error (.addressOverflow c.position count), c)

/-- The next `count` bytes. They are fetched before the position moves, so that at the top of the address
space the move can fail after the read. -/
def take (source : Source) (count : Nat) : Decoder (List UInt8) := do
  let bytes ← peek source count
  skip count
  return bytes

def uint8 (source : Source) : Decoder UInt8 := do
  return UInt8.ofNat (littleEndian (← take source 1))

def int8 (source : Source) : Decoder Int8 := do
  return (UInt8.ofNat (littleEndian (← take source 1))).toInt8

def int16 (source : Source) : Decoder Int16 := do
  return (UInt16.ofNat (littleEndian (← take source 2))).toInt16

def int32 (source : Source) : Decoder Int32 := do
  return (UInt32.ofNat (littleEndian (← take source 4))).toInt32

def int64 (source : Source) : Decoder Int64 := do
  return (UInt64.ofNat (littleEndian (← take source 8))).toInt64

end Decoder

end Correlation

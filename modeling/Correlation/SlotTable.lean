import Correlation.Wire.Reader
/-!
# Slot tables

Expressions shared by index. A slot of the offset table holds a signed 16-bit offset into the expression
buffer; a negative one says that the slot has no expression, which is not a failure. Every slot of a
table without a buffer is absent too.
-/

namespace Correlation

open Attempt Decoder Wire

/-- The greatest slot index. -/
def greatestIndex : Int :=
  Numeral.greatestSigned

/-- Where the offset table and the expression buffer are, if they are there at all. -/
structure SlotTable where
  slots : Option Nat
  buffer : Option Nat
  deriving Repr, DecidableEq

namespace SlotTable

/-- The table at these addresses, where address zero stands for "not there". -/
def ofRaw (slots buffer : Nat) : SlotTable :=
  ⟨if slots = 0 then none else some slots, if buffer = 0 then none else some buffer⟩

/-- A base plus an offset, if that is an address. -/
def displace (base : Nat) (offset : Int) : Except Failure Nat :=
  if 0 ≤ base + offset ∧ base + offset < addressSpace then .ok (base + offset).toNat
  else .error (.addressOverflow base offset)

/-- The offset in a slot; none for an empty slot, a negative index or a missing table. -/
def slotOffset (source : Source) (table : SlotTable) (index : Int) : Decoder (Option Nat) :=
  match table.slots with
  | none => pure none
  | some base =>
    if index < 0 then pure none
    else if index * slotSize > greatestIndex then fail (.addressOverflow base index)
    else do
      let address ← ofExcept (displace base (index * slotSize))
      let offset ← atAddress address (int16 source)
      return if offset < 0 then none else some offset.toUInt16.toNat

/-- The expression of a slot. Without a buffer nothing is read. -/
def resolve (source : Source) (table : SlotTable) (limit : Nat) (index : Int) : Decoder Expr :=
  match table.buffer with
  | none => pure .absent
  | some buffer => do
    match ← slotOffset source table index with
    | none =>
      note (.slotEmpty index)
      return .absent
    | some offset =>
      let address ← ofExcept (displace buffer offset)
      note (.slotFound index offset address)
      atAddress address (decode source limit)

/-- Resolve so many slots from `index` on and add them to `found`; the first failure ends it. -/
def resolveFrom (source : Source) (table : SlotTable) (limit : Nat) (found : Array Expr) (index : Int) :
    Nat → Decoder (Array Expr)
  | 0 => pure found
  | count + 1 => do
    let e ← resolve source table limit index
    resolveFrom source table limit (found.push e) (index + 1) count

/-- The expressions of the slots from `start` up to but not including `stop`. -/
def resolveRange (source : Source) (table : SlotTable) (limit : Nat) (start stop : Int) :
    Decoder (Array Expr) :=
  resolveFrom source table limit #[] start (stop - start).toNat

end SlotTable

end Correlation

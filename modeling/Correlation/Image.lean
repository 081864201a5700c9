import Correlation.Failure
/-!
# Byte images

Read-only bytes mapped at a base address. Addresses are natural numbers below `addressSpace`; whatever
adds to an address checks the sum against it.
-/

namespace Correlation

/-- One past the greatest address. -/
def addressSpace : Nat :=
  Numeral.greatestWord + 1

/-- Bytes, the first of which appears at address `base`. -/
structure Image where
  base : Nat
  bytes : Array UInt8

namespace Image

/-- Bytes that are addressed by their index. -/
def ofBytes (bytes : Array UInt8) : Image :=
  ⟨0, bytes⟩

def size (image : Image) : Nat :=
  image.bytes.size

/-- One past the last byte, but no greater than the last address. -/
def limit (image : Image) : Nat :=
  min (image.base + image.size) (addressSpace - 1)

/-- Whether an address lies between the base and the limit. -/
def contains (image : Image) (address : Nat) : Bool :=
  image.base ≤ address && address < image.limit

/-- The `count` bytes at `address`, if all of them are there. -/
def read (image : Image) (address count : Nat) : Except Failure (List UInt8) :=
  if image.base ≤ address ∧ address - image.base + count ≤ image.size then
    .ok (image.bytes.extract (address - image.base) (address - image.base + count)).toList
  else .error (.outOfBounds address count image.size)

theorem length_of_read {image : Image} {address count : Nat} {bytes : List UInt8}
    (h : image.read address count = .ok bytes) : bytes.length = count := by
  unfold read at h
  split at h
  · cases h
    simp [size] at *
    omega
  · cases h

theorem outOfBounds_of_read {image : Image} {address count : Nat} {e : Failure}
    (h : image.read address count = .error e) : e = .outOfBounds address count image.size := by
  unfold read at h
  split at h
  · cases h
  · cases h
    rfl

end Image

end Correlation

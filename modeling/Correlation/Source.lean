import Correlation.Image
/-!
# Sources of bytes

Decoding needs no image, only something that can be asked for bytes: the memory of another process, which may change
while it is read, will do as well. An image is such a source.
-/

namespace Correlation

/-- A range of bytes asked for. -/
structure Span where
  address : Nat
  size : Nat
  deriving Repr, DecidableEq

/-- Something that can be asked for bytes. It gives as many as it is asked for, or fails, and what it answers may depend
on what it was asked before. -/
structure Source where
  answer : (before : Array Span) → (asked : Span) → Except Failure (Vector UInt8 asked.size)

namespace Source

/-- An image answers every question in the same way at any time. -/
@[coe]
def ofImage (image : Image) : Source where
  answer _ asked :=
    match h : image.read asked.address asked.size with
    | .ok bytes => .ok ⟨bytes.toArray, Image.length_of_read h⟩
    | .error e => .error e

instance : Coe Image Source where
  coe := ofImage

theorem answer_ofImage (image : Image) (before : Array Span) (asked : Span) :
    ((ofImage image).answer before asked).map (·.toList) = image.read asked.address asked.size := by
  simp only [ofImage]
  split
  · next h => exact h.symm
  · next h => exact h.symm

end Source

end Correlation

import Stimulus.BitVector.Basic

/-!
# Sums and products

Addition ripples a carry from the least significant bit upwards and drops the
last one, so results are exact modulo two to the width. Subtraction adds the
complement with a carry, and multiplication adds shifted copies of the first
operand, one for every bit of the second that is not constantly false.
-/

namespace Stimulus.BitVector

open Diagram

/-- The bits of the sum of two numbers and a carry. -/
def addBits : List Edge → List Edge → Edge → Build (List Edge)
  | x :: xs, y :: ys, carry => do
    let part ← differ x y
    let sum ← differ part carry
    let either ← disj y carry
    let both ← conj y carry
    let next ← Diagram.choose x either both
    return sum :: (← addBits xs ys next)
  | _, _, _ => return []

/-- The sum. -/
protected def add (a b : BitVector) : Build BitVector := do
  checkWidths a b
  return ⟨← addBits a.bits b.bits .zero, a.signed && b.signed⟩

/-- The difference. -/
protected def sub (a b : BitVector) : Build BitVector := do
  checkWidths a b
  return ⟨← addBits a.bits (← b.bits.mapM complement) .one, a.signed && b.signed⟩

/-- The negative in two's complement. -/
protected def neg (a : BitVector) : Build BitVector := do
  let zeros := List.replicate a.width Edge.zero
  return ⟨← addBits zeros (← a.bits.mapM complement) .one, a.signed⟩

/-- The bits of `sum` plus the product of the number with the bits `a`, shifted
by `shift` places, and the number with the bits `bs`. -/
def mulBits (a : List Edge) : (shift : Nat) → List Edge → List Edge → Build (List Edge)
  | _, [], sum => return sum
  | shift, b :: bs, sum => do
    if b = .zero then
      mulBits a (shift + 1) bs sum
    else
      let partials ← (a.take (a.length - shift)).mapM (conj · b)
      let sum ← addBits sum (List.replicate shift Edge.zero ++ partials) .zero
      mulBits a (shift + 1) bs sum

/-- The product. -/
protected def mul (a b : BitVector) : Build BitVector := do
  checkWidths a b
  let bits ← mulBits a.bits 0 b.bits (List.replicate a.width Edge.zero)
  return ⟨bits, a.signed && b.signed⟩

end Stimulus.BitVector

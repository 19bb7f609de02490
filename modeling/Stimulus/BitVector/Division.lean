import Stimulus.BitVector.Arithmetic
import Stimulus.BitVector.Comparison

/-!
# Division

Unsigned division restores: from the top bit of the dividend downwards, the
running remainder takes in one bit and gives up the divisor where it can. The
remainder is kept one bit wider than the operands, so that the comparison is
exact. Division by zero gives all ones and leaves the dividend as the remainder.

Signed division works on magnitudes and truncates toward zero; the remainder has
the sign of the dividend.
-/

namespace Stimulus.BitVector

open Diagram

/-- Division of the digits that are still to come, most significant first, by a
divisor that is one bit wider than them and given with its complement. The
quotient and the remainder are the digits found so far, least significant
first. -/
def divideBits (divisor opposite : List Edge) :
    List Edge → (quotient remainder : List Edge) → Build (List Edge × List Edge)
  | [], quotient, remainder => return (quotient, remainder)
  | digit :: digits, quotient, remainder => do
    let taken := digit :: remainder.dropLast
    let less ← lessBits taken divisor .zero
    let difference ← addBits taken opposite .one
    let remainder ← zipWithM (Diagram.choose less) taken difference
    divideBits divisor opposite digits (-less :: quotient) remainder

/-- The unsigned quotient and remainder. -/
def udivmod (a b : BitVector) : Build (BitVector × BitVector) := do
  checkWidths a b
  let start := List.replicate (a.width + 1) Edge.zero
  let divisor := b.bits ++ [.zero]
  let opposite ← divisor.mapM complement
  let (quotient, remainder) ← divideBits divisor opposite a.bits.reverse [] start
  return (⟨quotient, false⟩, ⟨remainder.take a.width, false⟩)

/-- The vector where `negative` does not hold, and its negative where it does. -/
def negateWhere (negative : Edge) (a : BitVector) : Build BitVector := do
  let negated ← a.neg
  choose negative negated a

/-- The signed quotient and remainder. -/
def sdivmod (a b : BitVector) : Build (BitVector × BitVector) := do
  checkWidths a b
  let dividend ← negateWhere a.msb a
  let divisor ← negateWhere b.msb b
  let (quotient, remainder) ← udivmod dividend divisor
  let opposite ← differ a.msb b.msb
  let quotient ← negateWhere opposite quotient
  let remainder ← negateWhere a.msb remainder
  return (quotient.withSigned true, remainder.withSigned true)

end Stimulus.BitVector

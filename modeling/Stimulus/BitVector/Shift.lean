import Stimulus.BitVector.Basic

/-!
# Shifts

The bit at position `k` of the amount shifts by `2 ^ k` places. Where such a
shift would leave nothing of the vector, the bit is collected as an overflow
instead, and the result is zero wherever a bit overflows. Vacated bits are zero.
-/

namespace Stimulus.BitVector

open Diagram

/-- The bits moved up by `step` places. -/
def moveUp (step : Nat) (bits : List Edge) : List Edge :=
  List.replicate step Edge.zero ++ bits.take (bits.length - step)

/-- The bits moved down by `step` places. -/
def moveDown (step : Nat) (bits : List Edge) : List Edge :=
  bits.drop step ++ List.replicate step Edge.zero

/-- The bits shifted by the amount bits from position `k` on, and where one of
these overflows. -/
def shiftBits (move : Nat → List Edge → List Edge) :
    (k : Nat) → List Edge → (bits : List Edge) → (overflow : Edge) → Build (List Edge × Edge)
  | _, [], bits, overflow => return (bits, overflow)
  | k, amount :: amounts, bits, overflow => do
    if 1 <<< k < bits.length then
      let bits ← zipWithM (Diagram.choose amount) (move (1 <<< k) bits) bits
      shiftBits move (k + 1) amounts bits overflow
    else
      shiftBits move (k + 1) amounts bits (← disj overflow amount)

/-- A vector shifted by an amount that is read without a sign. -/
def shift (move : Nat → List Edge → List Edge) (a amount : BitVector) : Build BitVector := do
  let (bits, overflow) ← shiftBits move 0 amount.bits a.bits .zero
  let inside ← complement overflow
  return ⟨← bits.mapM (conj inside), a.signed⟩

/-- The shift toward the top. -/
def shl (a amount : BitVector) : Build BitVector := shift moveUp a amount

/-- The shift toward the bottom. -/
def lshr (a amount : BitVector) : Build BitVector := shift moveDown a amount

end Stimulus.BitVector

import Stimulus.BitVector.Basic

/-!
# Comparison and selection

Unsigned order is decided by the most significant pair of bits that differ.
Flipping the top bits maps the signed order onto the unsigned one.
-/

namespace Stimulus.BitVector

open Diagram

/-- Whether the bits seen so far are below their counterparts, brought up to the
next more significant pair. -/
def lessBits : List Edge → List Edge → Edge → Build Edge
  | x :: xs, y :: ys, less => do
    let differs ← differ x y
    lessBits xs ys (← Diagram.choose differs y less)
  | _, _, less => return less

/-- The conjunction of `acc` with the equality of all pairs of bits. -/
def equalBits : List Edge → List Edge → Edge → Build Edge
  | x :: xs, y :: ys, acc => do
    let same ← agree x y
    equalBits xs ys (← conj acc same)
  | _, _, acc => return acc

/-- Equality. -/
def eq (a b : BitVector) : Build Edge := do
  checkWidths a b
  equalBits a.bits b.bits .one

/-- The unsigned order. -/
def ult (a b : BitVector) : Build Edge := do
  checkWidths a b
  lessBits a.bits b.bits .zero

/-- The unsigned order or equality. -/
def ule (a b : BitVector) : Build Edge := do
  return -(← ult b a)

/-- The bits with the top one complemented. -/
def flipTop : List Edge → Build (List Edge)
  | [] => return []
  | [x] => return [← complement x]
  | x :: y :: rest => return x :: (← flipTop (y :: rest))

/-- The signed order. -/
def slt (a b : BitVector) : Build Edge := do
  checkWidths a b
  lessBits (← flipTop a.bits) (← flipTop b.bits) .zero

/-- The signed order or equality. -/
def sle (a b : BitVector) : Build Edge := do
  return -(← slt b a)

/-- For each of the bits `a`, which stand at the positions from `position` on,
the bit where the index is its position. Positions beyond the reach of the index
are left out. -/
def selections (index : List Edge) : (position : Nat) → List Edge → Build (List Edge)
  | _, [] => return []
  | position, a :: rest => do
    if position < 1 <<< index.length then
      let here ← equalBits index (constantBits position index.length) .one
      let chosen ← conj here a
      return chosen :: (← selections index (position + 1) rest)
    else
      return []

/-- The bit of `a` at the position that `index`, read without a sign, gives; zero
where there is no such bit. -/
def select (a index : BitVector) : Build Edge := do
  let chosen ← selections index.bits 0 a.bits
  disjAll chosen

end Stimulus.BitVector

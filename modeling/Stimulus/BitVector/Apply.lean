import Stimulus.Operator
import Stimulus.BitVector.Division
import Stimulus.BitVector.Shift

/-!
# Operators on bit-vectors

The operators of expressions as operations on vectors of any widths. A shift
keeps the width and the flag of its left operand. For all other operators both
operands are first extended to the larger width, each by its own flag, and the
operation is signed when both of them are. Comparisons give one unsigned bit.
-/

namespace Stimulus.BitVector

open Diagram

/-- The function that holds where a vector is not zero. -/
def truth (a : BitVector) : Build Edge :=
  match a.bits with
  | [f] => return f
  | bits => disjAll bits

/-- The order of two vectors of one width. -/
def less (signed : Bool) (a b : BitVector) : Build Edge :=
  if signed then slt a b else ult a b

/-- The order or equality of two vectors of one width. -/
def lessEq (signed : Bool) (a b : BitVector) : Build Edge :=
  if signed then sle a b else ule a b

/-- The quotient and the remainder of two vectors of one width. -/
def divmod (signed : Bool) (a b : BitVector) : Build (BitVector × BitVector) :=
  if signed then sdivmod a b else udivmod a b

/-- The operation of an operator on two vectors of one width. -/
def applyAligned (op : Operator) (a b : BitVector) (signed : Bool) : Build BitVector :=
  match op with
  | .eq => return ofBit (← eq a b)
  | .ne => return ofBit (-(← eq a b))
  | .lt => return ofBit (← less signed a b)
  | .le => return ofBit (← lessEq signed a b)
  | .gt => return ofBit (← less signed b a)
  | .ge => return ofBit (← lessEq signed b a)
  | .add => a.add b
  | .sub => a.sub b
  | .mul => a.mul b
  | .div => return (← divmod signed a b).1
  | .mod => return (← divmod signed a b).2
  | .and => a.and b
  | .or => a.or b
  | .xor => a.xor b
  | .shiftLeft => shl a b
  | .shiftRight => lshr a b

/-- The operation of an operator. -/
def apply (op : Operator) (a b : BitVector) : Build BitVector :=
  match op with
  | .shiftLeft => shl a b
  | .shiftRight => lshr a b
  | op =>
    let width := max a.width b.width
    let signed := a.signed && b.signed
    applyAligned op ⟨a.resizeBits width, signed⟩ ⟨b.resizeBits width, signed⟩ signed

end Stimulus.BitVector

/-!
# Two's complement

Integers of a fixed width as raw numbers below two to the width. Unsigned
integers stand for themselves; of signed ones, the upper half of the raw numbers
stands for the negatives. `encode` refuses what does not fit, and its results
are always below two to the width (`encode_lt`).
-/

namespace Stimulus.TwosComplement

/-- The least integer of a width. -/
def least (width : Nat) (signed : Bool) : Int :=
  if signed then -((1 <<< (width - 1) : Nat) : Int) else 0

/-- The greatest integer of a width. -/
def greatest (width : Nat) (signed : Bool) : Int :=
  ((1 <<< (if signed then width - 1 else width) : Nat) : Int) - 1

/-- The raw number of an integer, if it fits. -/
def encode (value : Int) (width : Nat) (signed : Bool) : Option Nat :=
  if least width signed ≤ value ∧ value ≤ greatest width signed then
    some (value % ((1 <<< width : Nat) : Int)).toNat
  else none

/-- The integer of a raw number, of which the low bits count. -/
def decode (raw width : Nat) (signed : Bool) : Int :=
  let low := raw % (1 <<< width)
  if signed ∧ 1 <<< (width - 1) ≤ low then (low : Int) - ((1 <<< width : Nat) : Int) else low

theorem shift_pos (width : Nat) : 0 < 1 <<< width := by
  rw [Nat.one_shiftLeft]
  exact Nat.two_pow_pos width

theorem encode_lt {value : Int} {width raw : Nat} {signed : Bool}
    (h : encode value width signed = some raw) : raw < 1 <<< width := by
  unfold encode at h
  split at h
  · cases h
    have pos : (0 : Int) < ((1 <<< width : Nat) : Int) := Int.natCast_pos.mpr (shift_pos width)
    have upper := Int.emod_lt_of_pos value pos
    have lower := Int.emod_nonneg value (Int.ne_of_gt pos)
    exact (Int.toNat_lt lower).mpr upper
  · cases h

theorem encode_getD_lt (value : Int) (width : Nat) (signed : Bool) :
    (encode value width signed).getD 0 < 1 <<< width := by
  cases h : encode value width signed with
  | none => exact shift_pos width
  | some raw => exact encode_lt h

end Stimulus.TwosComplement

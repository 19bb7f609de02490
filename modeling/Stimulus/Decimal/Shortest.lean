/-!
# Shortest decimals

A binary floating-point number stands for all reals that round to it. Its
shortest decimal is the one with the fewest digits among these, and of the
decimals with so few digits the one closest to the number; a tie goes up. All
arithmetic is exact: reals are quotients of natural numbers.

A decimal with the last digit at `10 ^ k` lies in the interval only if one of the
two neighbours of the number on that grid does, so the search looks at these, on
coarse grids first.
-/

namespace Stimulus.Decimal

/-- The number `digits * 10 ^ exponent`. -/
structure Scaled where
  digits : Nat
  exponent : Int
deriving DecidableEq

/-- A number with the reals that round to it: all of these are numerators over
one denominator, and `closed` says whether the ends belong to the interval. -/
structure Rounding where
  low : Nat
  value : Nat
  high : Nat
  denominator : Nat
  closed : Bool

namespace Rounding

/-- The reals that round to the positive number `mantissa * 2 ^ exponent`.
Below a power of two the numbers lie twice as close, except at the bottom of the
exponent range. -/
def ofBinary (mantissa : Nat) (exponent : Int) (powerOfTwo : Bool) : Rounding :=
  let up := 1 <<< (exponent - 2).toNat
  { low := (4 * mantissa - (if powerOfTwo then 1 else 2)) * up
    value := 4 * mantissa * up
    high := (4 * mantissa + 2) * up
    denominator := 1 <<< (2 - exponent).toNat
    closed := mantissa % 2 == 0 }

/-- The interval in units of `10 ^ k`. -/
def inUnits (r : Rounding) (k : Int) : Rounding :=
  let up := Nat.pow 10 (-k).toNat
  { r with
    low := r.low * up
    value := r.value * up
    high := r.high * up
    denominator := r.denominator * Nat.pow 10 k.toNat }

/-- Whether a whole number lies in the interval. -/
def contains (r : Rounding) (n : Nat) : Bool :=
  let x := n * r.denominator
  if r.closed then decide (r.low ≤ x ∧ x ≤ r.high) else decide (r.low < x ∧ x < r.high)

/-- The whole number in the interval that is closest to the number. -/
def closest? (r : Rounding) : Option Nat :=
  let below := r.value / r.denominator
  let above := below + 1
  match r.contains below, r.contains above with
  | true, true =>
    if above * r.denominator - r.value ≤ r.value - below * r.denominator then some above
    else some below
  | true, false => some below
  | false, true => some above
  | false, false => none

/-- The shortest decimal on the `fuel` grids from `10 ^ k` downwards. -/
def shortestFrom (r : Rounding) : (fuel : Nat) → (k : Int) → Scaled
  | 0, k => ⟨(r.inUnits k).value / (r.inUnits k).denominator, k⟩
  | fuel + 1, k =>
    match (r.inUnits k).closest? with
    | some n => ⟨n, k⟩
    | none => shortestFrom r fuel (k - 1)

end Rounding

end Stimulus.Decimal

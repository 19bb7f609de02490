/-!
# Reading decimals

Integers and floating-point numbers from text. An integer is a run of digits
with an optional sign. A floating-point number may have a fraction and an
exponent; it is rounded to the nearest representable one and keeps the sign of a
zero.
-/

namespace Stimulus.Decimal

/-- The number with these digits, the most significant one first. -/
def ofDigits (digits : List Char) : Nat :=
  digits.foldl (fun n c => 10 * n + (c.toNat - 48)) 0

/-- The number of a run of digits. -/
def readNat? (cs : List Char) : Option Nat :=
  if cs.isEmpty || !cs.all Char.isDigit then none else some (ofDigits cs)

/-- The integer of a run of digits with an optional sign. -/
def readInt? (s : String) : Option Int :=
  match s.toList with
  | '-' :: cs => (readNat? cs).map fun n => -(n : Int)
  | '+' :: cs => (readNat? cs).map fun n => (n : Int)
  | cs => (readNat? cs).map fun n => (n : Int)

/-- The digits after a point, and what follows them. -/
def splitFraction (cs : List Char) : List Char × List Char :=
  match cs with
  | '.' :: rest => (rest.takeWhile Char.isDigit, rest.dropWhile Char.isDigit)
  | rest => ([], rest)

/-- The exponent after its mark, which is zero if there is none. -/
def readExponent? : List Char → Option Int
  | [] => some 0
  | mark :: rest => if mark.toLower = 'e' then readInt? (String.ofList rest) else none

/-- The number without a sign that is closest to a decimal. -/
def readMagnitude? (cs : List Char) : Option Float := do
  let whole := cs.takeWhile Char.isDigit
  let (fraction, rest) := splitFraction (cs.dropWhile Char.isDigit)
  let digits ← readNat? (whole ++ fraction)
  let exponent := (← readExponent? rest) - fraction.length
  return Float.ofScientific digits (decide (exponent < 0)) exponent.natAbs

/-- The floating-point number that is closest to a decimal. -/
def readFloat? (s : String) : Option Float :=
  match s.toList with
  | '-' :: cs => (readMagnitude? cs).map fun x => -x
  | cs => readMagnitude? cs

end Stimulus.Decimal

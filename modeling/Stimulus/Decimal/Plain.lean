import Stimulus.Decimal.Shortest

/-!
# Plain decimals

Floating-point numbers as text: the shortest decimal in positional notation,
without an exponent and without a fraction that is zero. A negative zero keeps
its sign.
-/

namespace Stimulus.Decimal

/-- A positive decimal in positional notation. -/
def Scaled.text (d : Scaled) : String :=
  let digits := (toString d.digits).toList
  let zeros (n : Nat) : List Char := List.replicate n '0'
  if 0 ≤ d.exponent then
    String.ofList (digits ++ zeros d.exponent.toNat)
  else
    let places := (-d.exponent).toNat
    let padded := zeros (places + 1 - digits.length) ++ digits
    String.ofList (padded.take (padded.length - places)) ++ "." ++
      String.ofList (padded.drop (padded.length - places))

/-- The text of a finite number from the two fields of its representation. -/
def finiteText (exponent fraction : Nat) : String :=
  if exponent = 0 ∧ fraction = 0 then "0"
  else
    let mantissa := if exponent = 0 then fraction else fraction + 1 <<< 52
    let scale : Int := (max exponent 1 : Nat) - 1075
    let range := Rounding.ofBinary mantissa scale (decide (fraction = 0 ∧ 1 < exponent))
    (range.shortestFrom 700 310).text

/-- The text of a floating-point number. -/
def text (x : Float) : String :=
  let bits := x.toBits.toNat
  let fraction := bits % (1 <<< 52)
  let exponent := (bits >>> 52) % (1 <<< 11)
  let sign := if bits >>> 63 = 1 then "-" else ""
  if exponent = 2047 then
    if fraction = 0 then sign ++ "inf" else "NaN"
  else sign ++ finiteText exponent fraction

end Stimulus.Decimal

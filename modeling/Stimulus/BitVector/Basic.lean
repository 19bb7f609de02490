import Stimulus.Diagram.Choice

/-!
# Bit-vectors of functions

A bit-vector is a list of edges, least significant bit first, with a flag that
says whether its top bit carries a sign. This module holds what builds and
rearranges vectors and the operations that work bit by bit. The flag of a
bitwise result is set when both operands are signed.
-/

namespace Stimulus

open Diagram

/-- A vector of functions, least significant bit first. -/
structure BitVector where
  bits : List Edge
  signed : Bool
deriving DecidableEq

namespace BitVector

/-- The number of bits. -/
def width (a : BitVector) : Nat := a.bits.length

/-- The vector of some bits, of which there has to be at least one. -/
def ofBits (bits : List Edge) (signed : Bool) : Except Fault BitVector :=
  if bits.isEmpty then .error .emptyVector else .ok ⟨bits, signed⟩

/-- The vector of a single unsigned bit. -/
def ofBit (f : Edge) : BitVector := ⟨[f], false⟩

/-- The bit at a position. -/
def bit (a : BitVector) (index : Nat) : Except Fault Edge :=
  match a.bits[index]? with
  | some f => .ok f
  | none => .error (.bits index index a.width)

/-- The top bit. -/
def msb (a : BitVector) : Edge := a.bits.getLastD .zero

/-- The same bits with another flag. -/
def withSigned (a : BitVector) (signed : Bool) : BitVector := ⟨a.bits, signed⟩

/-- The constant vector of the low `width` bits of `value`. -/
def constantBits (value width : Nat) : List Edge :=
  (List.range width).map fun i => Edge.ofBool (value.testBit i)

/-- The constant vector of the low `width` bits of `value`. -/
def constant (value width : Nat) (signed : Bool) : Except Fault BitVector :=
  ofBits (constantBits value width) signed

/-- The vector of the variables `first, …, first + width - 1`. -/
def «variable» (first width : Nat) (signed : Bool) : Build BitVector := do
  if lastVariable < first + width then
    throw (.badVariable (first + width))
  let bits ← (List.range' first width).mapM literal
  ofBits bits signed

/-- The number whose binary digits, least significant first, are these bits, if
all of them are constant. -/
def constantValue? : List Edge → Option Nat
  | [] => some 0
  | f :: rest => do
    let value ← constantValue? rest
    if f = .one then return 2 * value + 1
    else if f = .zero then return 2 * value
    else none

/-- The number that a constant vector holds, if it has at most 64 digits. -/
def toConstant? (a : BitVector) : Option Nat :=
  (constantValue? a.bits).filter (· < 1 <<< 64)

/-- The bits of a vector cut or extended to `width`, signed vectors by their top
bit and unsigned ones by zeros. -/
def resizeBits (a : BitVector) (width : Nat) : List Edge :=
  let fill := if a.signed then a.msb else Edge.zero
  a.bits.take width ++ List.replicate (width - a.width) fill

/-- A vector cut or extended to `width`. -/
def resize (a : BitVector) (width : Nat) : Except Fault BitVector :=
  ofBits (a.resizeBits width) a.signed

/-- The bits from `low` up to and including `high`, as an unsigned vector. -/
def extract (a : BitVector) (high low : Nat) : Except Fault BitVector :=
  if low ≤ high ∧ high < a.width then
    .ok ⟨(a.bits.drop low).take (high - low + 1), false⟩
  else
    .error (.bits high low a.width)

/-- A check that two vectors have one width. -/
def checkWidths (a b : BitVector) : Except Fault Unit :=
  if a.width = b.width then .ok () else .error (.widths a.width b.width)

/-- A function of two bits applied to the bits of two lists, from the least
significant pair. -/
def zipWithM (f : Edge → Edge → Build Edge) : List Edge → List Edge → Build (List Edge)
  | x :: xs, y :: ys => do
    let z ← f x y
    return z :: (← zipWithM f xs ys)
  | _, _ => return []

/-- The vector that is `a` where `c` holds and `b` elsewhere. -/
def choose (c : Edge) (a b : BitVector) : Build BitVector := do
  checkWidths a b
  return ⟨← zipWithM (Diagram.choose c) a.bits b.bits, a.signed⟩

/-- A function of two bits applied to two vectors of one width. -/
def bitwise (f : Edge → Edge → Build Edge) (a b : BitVector) : Build BitVector := do
  checkWidths a b
  return ⟨← zipWithM f a.bits b.bits, a.signed && b.signed⟩

/-- Bitwise conjunction. -/
protected def and (a b : BitVector) : Build BitVector := bitwise conj a b

/-- Bitwise disjunction. -/
protected def or (a b : BitVector) : Build BitVector := bitwise disj a b

/-- Bitwise exclusive disjunction. -/
protected def xor (a b : BitVector) : Build BitVector := bitwise differ a b

/-- The function that holds where some bit is set. -/
def anyBit (a : BitVector) : Build Edge := disjAll a.bits

end BitVector

end Stimulus

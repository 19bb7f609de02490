import Stimulus.Enumeration

/-!
# Literals

Integer constants of a fixed width. A literal keeps its raw value in two's
complement; its width is a field width and its raw value does not exceed it.
Plain integers become signed literals of 32 bits and members of an enumeration
become literals of the type of the enumeration.
-/

namespace Stimulus

/-- A constant in two's complement. -/
structure Literal where
  raw : Nat
  width : Nat
  signed : Bool
  width_pos : 1 ≤ width
  width_le : width ≤ maxWidth
  raw_lt : raw < 1 <<< width
deriving DecidableEq

namespace Literal

/-- The width of plain integers. -/
def plainWidth : Nat := 32

/-- The literal of an integer, which has to fit. -/
def ofInt (value : Int) (width : Nat) (signed : Bool) : Except Error Literal :=
  if h : 1 ≤ width ∧ width ≤ maxWidth then
    match fits : TwosComplement.encode value width signed with
    | some raw => .ok ⟨raw, width, signed, h.1, h.2, TwosComplement.encode_lt fits⟩
    | none => .error (.literalOutOfRange value width signed)
  else .error (.literalOutOfRange value width signed)

/-- The literal of a plain integer. -/
def ofInt32 (value : Int32) : Literal :=
  ⟨value.toUInt32.toNat, plainWidth, true, by decide, by decide, UInt32.toNat_lt _⟩

/-- The literal of a member of an enumeration. -/
def ofMember (m : Member) : Literal :=
  let d := m.enumeration
  ⟨(TwosComplement.encode m.value d.width d.signed).getD 0, d.width, d.signed, d.width_pos,
    d.width_le, TwosComplement.encode_getD_lt m.value d.width d.signed⟩

/-- The integer of a literal. -/
def value (l : Literal) : Int := TwosComplement.decode l.raw l.width l.signed

end Literal

end Stimulus

import Stimulus.Enumeration

/-!
# Slots

What is known about a field: its type, which is fixed when the field is
declared; whether it is random; its value in two's complement; and, once a model
has bound it, its name and position there. The type of a slot is never wider
than `maxWidth`, and its raw value never exceeds its width.

A slot over an enumeration starts with the first entry and takes members of that
very enumeration only, or integers equal to the value of one.
-/

namespace Stimulus

/-- Types of fields: integers of a width, or members of an enumeration. -/
inductive FieldType where
  | scalar (width : Nat) (signed : Bool)
  | enumeration (d : Enumeration)
deriving DecidableEq

namespace FieldType

/-- The number of bits of a value. -/
def width : FieldType → Nat
  | scalar width _ => width
  | enumeration d => d.width

/-- Types whose top bit is a sign. -/
def signed : FieldType → Bool
  | scalar _ signed => signed
  | enumeration d => d.signed

/-- The enumeration of an enumerated type. -/
def enumeration? : FieldType → Option Enumeration
  | scalar .. => none
  | enumeration d => some d

/-- Types with the same values, enumerations being compared by content. -/
def agrees : FieldType → FieldType → Bool
  | scalar w s, scalar w' s' => w == w' && s == s'
  | enumeration d, enumeration d' => d.sameContent d'
  | _, _ => false

/-- The raw value that a field starts with. -/
def initial : FieldType → Nat
  | scalar .. => 0
  | enumeration d => (TwosComplement.encode d.first d.width d.signed).getD 0

theorem initial_lt (t : FieldType) : t.initial < 1 <<< t.width := by
  cases t with
  | scalar width _ => exact TwosComplement.shift_pos width
  | enumeration d => exact TwosComplement.encode_getD_lt d.first d.width d.signed

end FieldType

/-- Values of fields. -/
inductive Value where
  | int (v : Int)
  | member (m : Member)
deriving DecidableEq

namespace Value

/-- The number of a value, which is the value of a member. -/
def toInt : Value → Int
  | int v => v
  | member m => m.value

/-- The text of a value. -/
def text : Value → String
  | int v => toString v
  | member m => m.text

end Value

/-- The name of a bound field and its position in its model, which is kept in 32 bits. -/
structure Binding where
  position : Nat
  name : String
deriving DecidableEq

/-- What is known about a field. -/
structure Slot where
  type : FieldType
  isRandom : Bool
  raw : Nat
  binding : Option Binding
  width_pos : 1 ≤ type.width
  width_le : type.width ≤ maxWidth
  raw_lt : raw < 1 <<< type.width
deriving DecidableEq

namespace Slot

/-- An unnamed bit. -/
def blank : Slot :=
  ⟨.scalar 1 false, false, 0, none, Nat.le_refl 1, by decide, by decide⟩

/-- The slot of a new field. -/
def declare (type : FieldType) (isRandom : Bool) : Except Error Slot :=
  if h : 1 ≤ type.width ∧ type.width ≤ maxWidth then
    .ok ⟨type, isRandom, type.initial, none, h.1, h.2, type.initial_lt⟩
  else .error (.widthMismatch (.field type.width))

/-- The number of bits of the value. -/
def width (s : Slot) : Nat := s.type.width

/-- Whether the top bit of the value is a sign. -/
def signed (s : Slot) : Bool := s.type.signed

/-- Slots of named fields. -/
def isBound (s : Slot) : Bool := s.binding.isSome

/-- The value as an integer. -/
def toInt (s : Slot) : Int := TwosComplement.decode s.raw s.width s.signed

/-- The value: the member with this number for enumerated slots. -/
def value (s : Slot) : Value :=
  match s.type with
  | .scalar .. => .int s.toInt
  | .enumeration d =>
    match d.ofValue s.toInt with
    | .ok m => .member m
    | .error _ => .int s.toInt

/-- The slot with the low bits of a raw value. -/
def setRaw (s : Slot) (raw : Nat) : Slot :=
  { s with
    raw := raw % (1 <<< s.type.width)
    raw_lt := Nat.mod_lt _ (TwosComplement.shift_pos _) }

/-- The slot with an integer as its value, if it fits. -/
def setInt (s : Slot) (value : Int) : Except Error Slot :=
  match h : TwosComplement.encode value s.type.width s.type.signed with
  | some raw => .ok { s with raw := raw, raw_lt := TwosComplement.encode_lt h }
  | none => .error (.valueOutOfRange value s.type.width s.type.signed)

/-- The slot with a value, if its type has that value. -/
def assign (s : Slot) (value : Value) : Except Error Slot :=
  match s.type, value with
  | .scalar .., value => s.setInt value.toInt
  | .enumeration d, .int v => do
    let m ← d.ofValue v
    s.setInt m.value
  | .enumeration d, .member m =>
    if m.enumeration = d then s.setInt m.value else .error (.notAMember d.name m.text)

/-- The slot of a random or of a fixed field. -/
def setRandom (s : Slot) (isRandom : Bool) : Slot := { s with isRandom := isRandom }

/-- The slot with its name and position. A bound slot stays as it is. -/
def bind (s : Slot) (position : Nat) (name : String) : Except Error Slot :=
  match s.binding with
  | some b => .error (.alreadyBound b.name)
  | none => .ok { s with binding := some ⟨position, name⟩ }

/-- The name of a slot in expressions. -/
def label (s : Slot) : String :=
  match s.binding with
  | some b => b.name
  | none => "<unbound>"

end Slot

end Stimulus

import Mathlib.Tactic.Ring
import Stimulus.Expr.Basic
import Stimulus.Proofs.Literal

/-!
# The meaning of expressions

What an expression stands for, without any circuit: every field has a quantity,
that is a raw value of some width and signedness, and so has every expression
(`Expr.meaning`).

A shift keeps the type of its left operand and reads the amount without a sign.
All other operators extend both operands to the larger width, each by its own
signedness, and are signed if both operands are. Arithmetic is modulo two to the
width; division truncates toward zero, and by zero it gives all ones, or one for a
negative dividend, and leaves the dividend as the remainder.
-/

set_option autoImplicit false

namespace Stimulus

open TwosComplement

/-- A number of some type, by its raw value. -/
structure Quantity where
  width : Nat
  signed : Bool
  raw : Nat
deriving DecidableEq

namespace Quantity

/-- The integer that a quantity stands for. -/
def toInt (q : Quantity) : Int := decode q.raw q.width q.signed

/-- The raw value is one of the type. -/
structure InRange (q : Quantity) : Prop where
  width_pos : 1 ≤ q.width
  raw_lt : q.raw < 2 ^ q.width

/-- A truth value as an unsigned bit. -/
def flag (b : Bool) : Quantity := ⟨1, false, b.toNat⟩

/-- Quantities count as true where they are not zero. -/
def holds (q : Quantity) : Bool := decide (q.raw ≠ 0)

/-- The raw value of the same integer in another width. -/
def extend (q : Quantity) (width : Nat) : Nat := wrap q.toInt width

/-- The quotient of two integers, in raw values of some width. -/
def quotient (width : Nat) (i j : Int) : Nat :=
  if j = 0 then if i < 0 then 1 else 2 ^ width - 1 else wrap (i.tdiv j) width

/-- The remainder of two integers, in raw values of some width. -/
def remainder (width : Nat) (i j : Int) : Nat :=
  if j = 0 then wrap i width else wrap (i.tmod j) width

theorem quotient_of_ne_zero {j : Int} (width : Nat) (i : Int) (hj : j ≠ 0) :
    quotient width i j = wrap (i.tdiv j) width :=
  if_neg hj

theorem remainder_eq_wrap (width : Nat) (i j : Int) :
    remainder width i j = wrap (i.tmod j) width := by
  unfold remainder
  split
  · rename_i hzero
    rw [hzero, Int.tmod_zero]
  · rfl

/-- The value of an operator on two raw values of one type. -/
def aligned (op : Operator) (width : Nat) (signed : Bool) (x y : Nat) : Quantity :=
  let i := decode x width signed
  let j := decode y width signed
  match op with
  | .eq => flag (decide (i = j))
  | .ne => flag (decide (i ≠ j))
  | .lt => flag (decide (i < j))
  | .le => flag (decide (i ≤ j))
  | .gt => flag (decide (i > j))
  | .ge => flag (decide (i ≥ j))
  | .add => ⟨width, signed, (x + y) % 2 ^ width⟩
  | .sub => ⟨width, signed, wrap ((x : Int) - y) width⟩
  | .mul => ⟨width, signed, x * y % 2 ^ width⟩
  | .div => ⟨width, signed, quotient width i j⟩
  | .mod => ⟨width, signed, remainder width i j⟩
  | .and => ⟨width, signed, x &&& y⟩
  | .or => ⟨width, signed, x ||| y⟩
  | .xor => ⟨width, signed, x ^^^ y⟩
  | .shiftLeft => ⟨width, signed, x * 2 ^ y % 2 ^ width⟩
  | .shiftRight => ⟨width, signed, x / 2 ^ y⟩

/-- The value of an operator. Shifts take their operands as they are; for all other operators
both operands are first extended to the larger width. -/
def apply (op : Operator) (a b : Quantity) : Quantity :=
  match op with
  | .shiftLeft => ⟨a.width, a.signed, a.raw * 2 ^ b.raw % 2 ^ a.width⟩
  | .shiftRight => ⟨a.width, a.signed, a.raw / 2 ^ b.raw⟩
  | op =>
    let width := max a.width b.width
    aligned op width (a.signed && b.signed) (a.extend width) (b.extend width)

/-- The bit at the position that an index gives, zero beyond the width. -/
def bit (base index : Quantity) : Quantity := flag (base.raw.testBit index.raw)

/-- The bits from `low` up to and including `high`. -/
def slice (base : Quantity) (high low : Nat) : Quantity :=
  ⟨high - low + 1, false, base.raw / 2 ^ low % 2 ^ (high - low + 1)⟩

end Quantity

open Quantity

mutual

/-- The quantity of an expression, given those of the fields. -/
def Expr.meaning (fields : Field → Quantity) : Expr → Quantity
  | .literal l => ⟨l.width, l.signed, l.raw⟩
  | .field f => fields f
  | .binary op lhs rhs => apply op (lhs.meaning fields) (rhs.meaning fields)
  | .bit base index => (base.meaning fields).bit (index.meaning fields)
  | .slice base high low =>
    (base.meaning fields).slice (high.meaning fields).raw (low.meaning fields).raw
  | .inside value ranges => flag (ranges.covers fields (value.meaning fields))

/-- Whether a quantity lies in a range. -/
def Range.covers (fields : Field → Quantity) (value : Quantity) : Range → Bool
  | .point point => (apply .eq value (point.meaning fields)).holds
  | .interval low high =>
    (apply .ge value (low.meaning fields)).holds && (apply .le value (high.meaning fields)).holds

/-- Whether a quantity lies in one of some ranges. -/
def Ranges.covers (fields : Field → Quantity) (value : Quantity) : Ranges → Bool
  | .single range => range.covers fields value
  | .cons range rest => range.covers fields value || rest.covers fields value

end

/-- Constraints hold where their value is not zero. -/
def Expr.holds (fields : Field → Quantity) (e : Expr) : Bool := (e.meaning fields).holds

/-- The quantities of fields of the types in a workspace, for any raw values. -/
def Workspace.quantity (ws : Workspace) (raw : Field → Nat) (f : Field) : Quantity :=
  ⟨(ws.slot f).width, (ws.slot f).signed, raw f⟩

/-- The present value of a field is a raw value of its type. -/
theorem Slot.raw_lt_two_pow (s : Slot) : s.raw < 2 ^ s.width := by
  have h := s.raw_lt
  rwa [Nat.one_shiftLeft] at h

theorem Quantity.holds_flag (b : Bool) : (flag b).holds = b := by cases b <;> rfl

/-! ## Raw values in range -/

namespace Quantity

variable {a b : Quantity} {width x y : Nat}

theorem inRange_flag (b : Bool) : (flag b).InRange := ⟨Nat.le_refl 1, Bool.toNat_lt b⟩

theorem remainder_lt (i j : Int) : remainder width i j < 2 ^ width := by
  rw [remainder_eq_wrap]
  exact wrap_lt _ _

theorem quotient_lt (hw : 1 ≤ width) (i j : Int) : quotient width i j < 2 ^ width := by
  have hpow : 1 < 2 ^ width := Nat.one_lt_two_pow (by omega)
  unfold quotient
  split
  · split <;> omega
  · exact wrap_lt _ _

/-- An operator on raw values of one type gives a raw value of its type. -/
theorem inRange_aligned (hw : 1 ≤ width) (hx : x < 2 ^ width) (hy : y < 2 ^ width) (op : Operator)
    (signed : Bool) : (aligned op width signed x y).InRange := by
  have hmod : ∀ n, n % 2 ^ width < 2 ^ width := fun n => Nat.mod_lt n (Nat.two_pow_pos width)
  cases op with
  | eq | ne | lt | le | gt | ge => exact inRange_flag _
  | add | mul | shiftLeft => exact ⟨hw, hmod _⟩
  | sub => exact ⟨hw, wrap_lt _ _⟩
  | div => exact ⟨hw, quotient_lt hw _ _⟩
  | mod => exact ⟨hw, remainder_lt _ _⟩
  | and => exact ⟨hw, Nat.and_lt_two_pow x hy⟩
  | or => exact ⟨hw, Nat.or_lt_two_pow hx hy⟩
  | xor => exact ⟨hw, Nat.xor_lt_two_pow hx hy⟩
  | shiftRight => exact ⟨hw, Nat.lt_of_le_of_lt (Nat.div_le_self x _) hx⟩

theorem InRange.inRange_apply (ha : a.InRange) (op : Operator) (b : Quantity) :
    (apply op a b).InRange := by
  unfold apply
  split
  · exact ⟨ha.width_pos, Nat.mod_lt _ (Nat.two_pow_pos _)⟩
  · exact ⟨ha.width_pos, Nat.lt_of_le_of_lt (Nat.div_le_self _ _) ha.raw_lt⟩
  · exact inRange_aligned (Nat.le_trans ha.width_pos (Nat.le_max_left _ _)) (wrap_lt _ _)
      (wrap_lt _ _) _ _

end Quantity

end Stimulus

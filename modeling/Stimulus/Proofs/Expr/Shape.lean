import Stimulus.Lowering
import Stimulus.Proofs.Expr.Meaning

/-!
# Shapes of expressions

What lowering an expression comes to, said without any circuit (`Expr.shape`): the
shape of its term, or the first error that is met when its parts are visited from
left to right, each before what is built from it. The errors rest on which fields
are bound and on which parts are constant; a part is constant if its value is the
same for all raw values that the fields can have (`Expr.Always`).

Expressions without an error have the width and the flag that their shape says
(`Expr.shape_meaning`), and no shape is wider than the widest field
(`Expr.shape_inRange`).
-/

set_option autoImplicit false

namespace Stimulus

open TwosComplement Quantity

/-- Raw values that the fields can have. -/
def Workspace.Fits (ws : Workspace) (raw : Field → Nat) : Prop :=
  ∀ f, raw f < 2 ^ (ws.slot f).width

theorem Workspace.fits_zero (ws : Workspace) : ws.Fits fun _ => 0 :=
  fun f => Nat.two_pow_pos (ws.slot f).width

/-- The width and the flag of a quantity. -/
def Quantity.shape (q : Quantity) : Shape := ⟨q.width, q.signed⟩

/-- The widths of fields and of what is built from them. -/
def Shape.InRange (s : Shape) : Prop := 1 ≤ s.width ∧ s.width ≤ maxWidth

/-! ## Constant expressions -/

namespace Expr

variable {ws : Workspace} {e : Expr} {m n : Nat}

/-- The expression has this raw value, whatever the raw values of the fields. -/
def Always (ws : Workspace) (e : Expr) (n : Nat) : Prop :=
  ∀ raw, ws.Fits raw → (e.meaning (ws.quantity raw)).raw = n

/-- The expression stands for this integer, whatever the raw values of the fields. -/
def AlwaysInt (ws : Workspace) (e : Expr) (i : Int) : Prop :=
  ∀ raw, ws.Fits raw → (e.meaning (ws.quantity raw)).toInt = i

open Classical in
/-- The raw value of an expression, if it is the same whatever the raw values of the fields. -/
noncomputable def constant? (ws : Workspace) (e : Expr) : Option Nat :=
  let n := (e.meaning (ws.quantity fun _ => 0)).raw
  if e.Always ws n then some n else none

theorem Always.unique (hm : e.Always ws m) (hn : e.Always ws n) : m = n :=
  (hm _ ws.fits_zero).symm.trans (hn _ ws.fits_zero)

theorem constant?_eq_some : e.constant? ws = some n ↔ e.Always ws n := by
  simp only [constant?]
  split
  · rename_i h
    rw [Option.some.injEq]
    exact ⟨fun heq => heq ▸ h, h.unique⟩
  · rename_i h
    refine ⟨nofun, fun hn => absurd ?_ h⟩
    rwa [hn _ ws.fits_zero]

end Expr

/-! ## Shapes and errors -/

/-- The shape of the result of an operator. -/
def Operator.shape (op : Operator) (a b : Shape) : Shape :=
  match op with
  | .eq | .ne | .le | .lt | .ge | .gt => ⟨1, false⟩
  | .shiftLeft | .shiftRight => a
  | _ => ⟨max a.width b.width, a.signed && b.signed⟩

namespace Expr

/-- The number of a bound of a range of bits, of the given shape. It has to be constant, and not
a negative number of fewer bits than the widest field. -/
noncomputable def bound (ws : Workspace) (e : Expr) (shape : Shape) : Except Error Nat :=
  match e.constant? ws with
  | none => .error (.widthMismatch (.notConstant (e.text ws.label)))
  | some n =>
    if shape.width < maxWidth ∧ decode n shape.width shape.signed < 0 then
      .error (.widthMismatch (.negative (e.text ws.label)))
    else .ok n

/-- The shape of one bit of a base. A constant index has to lie within the base. -/
def bitShape (base : Shape) (index : Option Nat) : Except Error Shape :=
  match index with
  | none => .ok ⟨1, false⟩
  | some i =>
    if base.width ≤ i then .error (.widthMismatch (.bit i base.width)) else .ok ⟨1, false⟩

/-- The shape of some bits of a base, which have to lie within it. -/
def sliceShape (base : Shape) (high low : Nat) : Except Error Shape :=
  if high < low ∨ base.width ≤ high then .error (.widthMismatch (.slice high low base.width))
  else .ok ⟨high - low + 1, false⟩

end Expr

mutual

/-- The shape of the term of an expression, or the error of lowering it. -/
noncomputable def Expr.shape (ws : Workspace) : Expr → Except Error Shape
  | .literal c => return ⟨c.width, c.signed⟩
  | .field f => if (ws.slot f).isBound then return Lowering.shape ws f else throw .unboundField
  | .binary op lhs rhs => do
    let a ← lhs.shape ws
    let b ← rhs.shape ws
    return op.shape a b
  | .bit base index => do
    let a ← base.shape ws
    let _ ← index.shape ws
    Expr.bitShape a (index.constant? ws)
  | .slice base high low => do
    let a ← base.shape ws
    let i ← high.bound ws (← high.shape ws)
    let j ← low.bound ws (← low.shape ws)
    Expr.sliceShape a i j
  | .inside value ranges => do
    let _ ← value.shape ws
    ranges.check ws
    return ⟨1, false⟩

/-- The error of lowering a range, if there is one. -/
noncomputable def Range.check (ws : Workspace) : Range → Except Error Unit
  | .point point => do
    let _ ← point.shape ws
  | .interval low high => do
    let _ ← low.shape ws
    let _ ← high.shape ws

/-- The error of lowering some ranges, if there is one. -/
noncomputable def Ranges.check (ws : Workspace) : Ranges → Except Error Unit
  | .single range => range.check ws
  | .cons range rest => do
    range.check ws
    rest.check ws

end

/-! ## Shapes are those of the meanings -/

theorem exists_of_bind_eq_ok {ε α β : Type} {x : Except ε α} {k : α → Except ε β} {b : β}
    (h : x >>= k = .ok b) : ∃ a, x = .ok a ∧ k a = .ok b := by
  cases x with
  | error e => cases h
  | ok a => exact ⟨a, rfl, h⟩

@[simp] theorem Quantity.shape_flag (b : Bool) : (flag b).shape = ⟨1, false⟩ := rfl

/-- The result of an operator has the shape of the operator. -/
theorem Quantity.shape_apply (op : Operator) (p q : Quantity) :
    (apply op p q).shape = op.shape p.shape q.shape := by
  cases op <;> rfl

theorem Shape.inRange_bit : Shape.InRange ⟨1, false⟩ := ⟨Nat.le_refl 1, by simp [maxWidth]⟩

theorem Operator.shape_inRange {a b : Shape} (op : Operator) (ha : a.InRange) (hb : b.InRange) :
    (op.shape a b).InRange := by
  obtain ⟨hpos, hle⟩ := ha
  have hmax : (⟨max a.width b.width, a.signed && b.signed⟩ : Shape).InRange :=
    ⟨Nat.le_trans hpos (Nat.le_max_left _ _), Nat.max_le.2 ⟨hle, hb.2⟩⟩
  cases op with
  | eq | ne | le | lt | ge | gt => exact Shape.inRange_bit
  | shiftLeft | shiftRight => exact ⟨hpos, hle⟩
  | _ => exact hmax

namespace Expr

variable {ws : Workspace} {e : Expr} {base shape : Shape} {high low n : Nat} {index : Option Nat}

theorem bitShape_eq_ok (h : bitShape base index = .ok shape) : shape = ⟨1, false⟩ := by
  unfold bitShape at h
  split at h
  · cases h
    rfl
  · split at h
    · cases h
    · cases h
      rfl

theorem sliceShape_eq_ok :
    sliceShape base high low = .ok shape ↔
      low ≤ high ∧ high < base.width ∧ shape = ⟨high - low + 1, false⟩ := by
  unfold sliceShape
  split
  · refine ⟨nofun, fun h => ?_⟩
    omega
  · rw [Except.ok.injEq, eq_comm]
    exact ⟨fun h => ⟨by omega, by omega, h⟩, fun h => h.2.2⟩

theorem bound_eq_ok (h : e.bound ws shape = .ok n) : e.Always ws n := by
  unfold bound at h
  split at h
  · cases h
  · rename_i m hm
    split at h
    · cases h
    · cases h
      exact constant?_eq_some.1 hm

/-- **The meaning of an expression has its shape**, whatever the raw values of the fields. -/
theorem shape_meaning : ∀ {e : Expr} {shape : Shape}, e.shape ws = .ok shape →
    ∀ raw, ws.Fits raw → (e.meaning (ws.quantity raw)).shape = shape
  | .literal c, shape, h, raw, _ => Except.ok.inj h
  | .field f, shape, h, raw, _ => by
    unfold Expr.shape at h
    split at h
    · exact Except.ok.inj h
    · cases h
  | .binary op lhs rhs, shape, h, raw, hraw => by
    obtain ⟨a, ha, h⟩ := exists_of_bind_eq_ok h
    obtain ⟨b, hb, h⟩ := exists_of_bind_eq_ok h
    cases h
    exact (shape_apply op _ _).trans (by rw [shape_meaning ha raw hraw, shape_meaning hb raw hraw])
  | .bit base index, shape, h, raw, _ => by
    obtain ⟨a, -, h⟩ := exists_of_bind_eq_ok h
    obtain ⟨b, -, h⟩ := exists_of_bind_eq_ok h
    rw [bitShape_eq_ok h]
    rfl
  | .slice base high low, shape, h, raw, hraw => by
    obtain ⟨a, -, h⟩ := exists_of_bind_eq_ok h
    obtain ⟨b, -, h⟩ := exists_of_bind_eq_ok h
    obtain ⟨i, hi, h⟩ := exists_of_bind_eq_ok h
    obtain ⟨c, -, h⟩ := exists_of_bind_eq_ok h
    obtain ⟨j, hj, h⟩ := exists_of_bind_eq_ok h
    -- the bounds of the slice are the values that they always have
    rw [(sliceShape_eq_ok.1 h).2.2, ← bound_eq_ok hi raw hraw, ← bound_eq_ok hj raw hraw]
    rfl
  | .inside value ranges, shape, h, raw, _ => by
    obtain ⟨a, -, h⟩ := exists_of_bind_eq_ok h
    obtain ⟨u, -, h⟩ := exists_of_bind_eq_ok h
    cases h
    rfl

/-- **No shape is wider than the widest field.** -/
theorem shape_inRange : ∀ {e : Expr} {shape : Shape}, e.shape ws = .ok shape → shape.InRange
  | .literal c, shape, h => by
    cases h
    exact ⟨c.width_pos, c.width_le⟩
  | .field f, shape, h => by
    unfold Expr.shape at h
    split at h
    · cases h
      exact ⟨(ws.slot f).width_pos, (ws.slot f).width_le⟩
    · cases h
  | .binary op lhs rhs, shape, h => by
    obtain ⟨a, ha, h⟩ := exists_of_bind_eq_ok h
    obtain ⟨b, hb, h⟩ := exists_of_bind_eq_ok h
    cases h
    exact op.shape_inRange (shape_inRange ha) (shape_inRange hb)
  | .bit base index, shape, h => by
    obtain ⟨a, -, h⟩ := exists_of_bind_eq_ok h
    obtain ⟨b, -, h⟩ := exists_of_bind_eq_ok h
    rw [bitShape_eq_ok h]
    exact Shape.inRange_bit
  | .slice base high low, shape, h => by
    obtain ⟨a, ha, h⟩ := exists_of_bind_eq_ok h
    obtain ⟨b, -, h⟩ := exists_of_bind_eq_ok h
    obtain ⟨i, -, h⟩ := exists_of_bind_eq_ok h
    obtain ⟨c, -, h⟩ := exists_of_bind_eq_ok h
    obtain ⟨j, -, h⟩ := exists_of_bind_eq_ok h
    -- a slice is no wider than its base
    obtain ⟨hlow, hhigh, rfl⟩ := sliceShape_eq_ok.1 h
    obtain ⟨-, hle⟩ := shape_inRange ha
    exact ⟨Nat.succ_pos _, Nat.le_trans (by dsimp only; omega) hle⟩
  | .inside value ranges, shape, h => by
    obtain ⟨a, -, h⟩ := exists_of_bind_eq_ok h
    obtain ⟨u, -, h⟩ := exists_of_bind_eq_ok h
    cases h
    exact Shape.inRange_bit

end Expr

end Stimulus

import Stimulus.Expr.Basic

/-!
# Formulas

Expressions in the usual writing. Literals, plain integers, members and fields
stand for their expressions, the signs of arithmetic build binary expressions,
and comparisons are functions by name, since their usual signs are taken by the
comparison of values.
-/

namespace Stimulus

namespace Expr

instance : Coe Literal Expr := ⟨literal⟩

instance : Coe Int32 Expr := ⟨ofInt32⟩

instance : Coe Member Expr := ⟨ofMember⟩

instance : Coe Field Expr := ⟨field⟩

instance : Add Expr := ⟨binary .add⟩

instance : Sub Expr := ⟨binary .sub⟩

instance : Mul Expr := ⟨binary .mul⟩

instance : Div Expr := ⟨binary .div⟩

instance : Mod Expr := ⟨binary .mod⟩

instance : AndOp Expr := ⟨binary .and⟩

instance : OrOp Expr := ⟨binary .or⟩

instance : XorOp Expr := ⟨binary .xor⟩

instance : ShiftLeft Expr := ⟨binary .shiftLeft⟩

instance : ShiftRight Expr := ⟨binary .shiftRight⟩

/-- Equality of values. -/
def equals (a b : Expr) : Expr := binary .eq a b

/-- Inequality of values. -/
def notEquals (a b : Expr) : Expr := binary .ne a b

/-- The value is less than the other one. -/
def lt (a b : Expr) : Expr := binary .lt a b

/-- The value is at most the other one. -/
def le (a b : Expr) : Expr := binary .le a b

/-- The value is greater than the other one. -/
def gt (a b : Expr) : Expr := binary .gt a b

/-- The value is at least the other one. -/
def ge (a b : Expr) : Expr := binary .ge a b

end Expr

/-- An operator between two expressions, as it is written. -/
def Operator.formula (a b : Expr) : Operator → Expr
  | .eq => a.equals b
  | .ne => a.notEquals b
  | .le => a.le b
  | .lt => a.lt b
  | .ge => a.ge b
  | .gt => a.gt b
  | .add => a + b
  | .sub => a - b
  | .div => a / b
  | .mul => a * b
  | .mod => a % b
  | .and => a &&& b
  | .or => a ||| b
  | .xor => a ^^^ b
  | .shiftLeft => a <<< b
  | .shiftRight => a >>> b

end Stimulus

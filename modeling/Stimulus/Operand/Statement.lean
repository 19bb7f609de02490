import Stimulus.InPlace
import Stimulus.Operand.Basic

/-!
# Statements

A statement assembles one expression step by step. Operands are turned into
expressions as they are recorded; a step that needs operands takes the last ones
recorded and puts its result in their place. The steps change the statement in
place (`Assembly`). A statement ends well if a single operand is left.
-/

namespace Stimulus

/-- The operands of an expression in progress, the last one first. -/
structure Statement where
  stack : List Expr
deriving DecidableEq

namespace Statement

/-- The statement without operands. -/
def empty : Statement := ⟨[]⟩

/-- The number of operands. -/
def depth (s : Statement) : Nat := s.stack.length

end Statement

/-- Steps of a statement. -/
abbrev Assembly := InPlace Statement

namespace Assembly

/-- One more operand. -/
def push (e : Expr) : Assembly Unit := modify fun s => ⟨e :: s.stack⟩

/-- The expression of an operand as one more operand. -/
def record (label : Field → String) (o : Operand) : Assembly Unit := do
  push (← InPlace.ofExcept (o.toExpr label))

/-- The last `n` operands, the last one first, which are taken off. -/
def takeLast (n : Nat) : Assembly (List Expr) := do
  let s ← get
  if s.depth < n then
    throw (.missingOperands n s.depth)
  set (⟨s.stack.drop n⟩ : Statement)
  return s.stack.take n

/-- The last `n` operands, if there are exactly so many in what is taken off. -/
def takeExactly (n : Nat) : Assembly (Vector Expr n) := do
  let taken ← takeLast n
  if h : taken.length = n then
    return ⟨taken.toArray, h⟩
  throw (.missingOperands n taken.length)

/-- The last `n` operands replaced by what they are combined to. -/
def combineLast (n : Nat) (combine : Vector Expr n → Expr) : Assembly Unit := do
  push (combine (← takeExactly n))

/-- The last two operands combined by an operator. -/
def apply (op : Operator) : Assembly Unit :=
  combineLast 2 fun taken => .binary op taken[1] taken[0]

/-- The last two operands, a base and a position, combined to a bit. -/
def applyBit : Assembly Unit :=
  combineLast 2 fun taken => .bit taken[1] taken[0]

/-- The last three operands, a base and its high and its low bound, combined to a
range of bits. -/
def applySlice : Assembly Unit :=
  combineLast 3 fun taken => .slice taken[2] taken[1] taken[0]

/-- The last operand tested for membership in some ranges. -/
def applyInside (ranges : Ranges) : Assembly Unit :=
  combineLast 1 fun taken => .inside taken[0] ranges

/-- The statement after a step that is completed. -/
def after (step : Assembly Unit) (s : Statement) : Except Error Statement :=
  (step.completed s).map Prod.snd

end Assembly

namespace Statement

/-- The statement with the expression of one more operand. -/
def record (label : Field → String) (s : Statement) (o : Operand) : Except Error Statement :=
  (Assembly.record label o).after s

/-- The last `n` operands, the last one first, and the statement without them. -/
def takeLast (s : Statement) (n : Nat) : Except Error (List Expr × Statement) :=
  (Assembly.takeLast n).completed s

/-- The statement with its last two operands combined by an operator. -/
def apply (s : Statement) (op : Operator) : Except Error Statement := (Assembly.apply op).after s

/-- The statement with a bit in place of its last two operands. -/
def applyBit (s : Statement) : Except Error Statement := Assembly.applyBit.after s

/-- The statement with a range of bits in place of its last three operands. -/
def applySlice (s : Statement) : Except Error Statement := Assembly.applySlice.after s

/-- The statement with a membership test in place of its last operand. -/
def applyInside (s : Statement) (ranges : Ranges) : Except Error Statement :=
  (Assembly.applyInside ranges).after s

/-- The expression of a finished statement. -/
def finish (s : Statement) : Except Error Expr :=
  match s.stack with
  | [e] => .ok e
  | stack => .error (.unbalanced stack.length)

/-- The expression of an operator and two operands. -/
def binary (label : Field → String) (lhs : Operand) (op : Operator) (rhs : Operand) :
    Except Error Expr := do
  let s ← empty.record label lhs
  let s ← s.record label rhs
  (← s.apply op).finish

/-- The expression of a range of bits of an operand. -/
def slice (label : Field → String) (base high low : Operand) : Except Error Expr := do
  let s ← empty.record label base
  let s ← s.record label high
  let s ← s.record label low
  (← s.applySlice).finish

/-- The expression of a membership test. The value is looked at before the
ranges. -/
def inside (label : Field → String) (value : Operand) (ranges : List Operand) :
    Except Error Expr := do
  let s ← empty.record label value
  let ranges ← Operand.toRanges label ranges
  (← s.applyInside ranges).finish

end Statement

end Stimulus

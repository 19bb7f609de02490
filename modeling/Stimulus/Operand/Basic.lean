import Stimulus.Decimal.Plain
import Stimulus.Expr.Printer
import Stimulus.Text.Quoted

/-!
# Operands

What a caller may hand in where an expression is needed. Some kinds of operands
are expressions or turn into one; the others are known so that they can be
refused by name. A list has a meaning only as a range: a pair is an interval,
and any other list is refused there for its length.
-/

namespace Stimulus

/-- Operands of expressions. -/
inductive Operand where
  | expr (e : Expr)
  | int (v : Int)
  | member (m : Member)
  | field (f : Field)
  | list (items : List Operand)
  /-- Something that presents an expression when it is asked for one, or an
  error. -/
  | custom (presented : Except Error Expr)
  /-- A promise of an operand, which is never called in. -/
  | deferred (later : Operand)
  | float (x : Float)
  | text (s : String)

namespace Operand

/-- The name of the kind of an operand. -/
def kind : Operand → String
  | expr _ => "expression"
  | int _ => "integer"
  | member _ => "enum member"
  | field _ => "field"
  | list _ => "list"
  | custom _ => "custom"
  | deferred _ => "callable"
  | float _ => "float"
  | text _ => "string"

mutual

/-- The text of an operand: its kind with its content. -/
def describe (label : Field → String) : Operand → String
  | expr e => "Expr(" ++ e.text label ++ ")"
  | int v => "Int(" ++ toString v ++ ")"
  | member m => "Enum(" ++ m.text ++ ")"
  | field f => "Field(" ++ label f ++ ")"
  | list items => "List([" ++ ", ".intercalate (describeAll label items) ++ "])"
  | custom _ => "Custom(..)"
  | deferred _ => "Deferred(..)"
  | float x => "Float(" ++ Decimal.text x ++ ")"
  | text s => "Text(" ++ Text.quoted s ++ ")"

/-- The texts of several operands. -/
def describeAll (label : Field → String) : List Operand → List String
  | [] => []
  | o :: rest => describe label o :: describeAll label rest

end

/-- The expression of an operand. Integers are plain integers, and members of an
enumeration have its type. Promises, lists, floating-point numbers and texts
have no expression. -/
def toExpr (label : Field → String) : Operand → Except Error Expr
  | expr e => .ok e
  | int v => Expr.ofInt v Literal.plainWidth true
  | member m => .ok (.ofMember m)
  | field f => .ok (.field f)
  | custom presented => presented
  | deferred _ => .error .deferred
  | o => .error (.unsupported (o.describe label) o.kind)

/-- The range of an operand: a pair is an interval and anything else a point. -/
def toRange (label : Field → String) : Operand → Except Error Range
  | list [low, high] => do
    let low ← low.toExpr label
    let high ← high.toExpr label
    return .interval low high
  | list items => .error (.malformedRange items.length)
  | o => do
    return .point (← o.toExpr label)

/-- The ranges of operands, in order. -/
def toRanges (label : Field → String) (operands : List Operand) : Except Error Ranges := do
  Ranges.ofList (← operands.mapM (toRange label))

end Operand

end Stimulus

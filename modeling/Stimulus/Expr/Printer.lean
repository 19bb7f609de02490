import Stimulus.Expr.Basic

/-!
# The text of expressions

Operators and membership tests are written in parentheses, selections after
their base. Fields are written by name; what the name of a field is, the caller
says. `Expr.nodeText` writes a single node, for listings of `Expr.preorder`.
-/

namespace Stimulus

mutual

/-- The text of an expression. -/
def Expr.text (label : Field → String) : Expr → String
  | .literal l => toString l.value
  | .field f => label f
  | .binary op lhs rhs => "(" ++ lhs.text label ++ " " ++ op.symbol ++ " " ++ rhs.text label ++ ")"
  | .bit base index => base.text label ++ "[" ++ index.text label ++ "]"
  | .slice base high low =>
    base.text label ++ "[" ++ high.text label ++ ":" ++ low.text label ++ "]"
  | .inside value ranges =>
    "(" ++ value.text label ++ " inside \x7b" ++ ranges.text label ++ "\x7d)"

/-- The text of a range. -/
def Range.text (label : Field → String) : Range → String
  | .point value => value.text label
  | .interval low high => "[" ++ low.text label ++ ":" ++ high.text label ++ "]"

/-- The text of a list of ranges. -/
def Ranges.text (label : Field → String) : Ranges → String
  | .single range => range.text label
  | .cons range rest => range.text label ++ ", " ++ rest.text label

end

/-- The text of a node without its children: a literal with its type, a field,
an operator, or the kind of a selection. A membership test gives the number of
its ranges and whether there are none, which is never so. -/
def Expr.nodeText (label : Field → String) : Expr → String
  | .literal l =>
    "lit:" ++ toString l.value ++ ":" ++ toString l.width ++ (if l.signed then "s" else "u")
  | .field f => "field:" ++ label f
  | .binary op _ _ => op.symbol
  | .bit .. => "bit"
  | .slice .. => "slice"
  | .inside _ ranges => "in:" ++ toString ranges.length ++ ":false"

end Stimulus

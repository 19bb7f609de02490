/-!
# Binary operators

The operators of expressions and their symbols. Reading a symbol inverts writing
it (`Operator.ofSymbol?_symbol`).
-/

namespace Stimulus

/-- The binary operators of expressions. -/
inductive Operator where
  | eq | ne | le | lt | ge | gt
  | add | sub | div | mul | mod
  | and | or | xor
  | shiftLeft | shiftRight
deriving DecidableEq

namespace Operator

/-- All operators. -/
def all : List Operator :=
  [eq, ne, le, lt, ge, gt, add, sub, div, mul, mod, .and, .or, .xor, shiftLeft, shiftRight]

/-- The operators whose results are a single bit. -/
def isComparison : Operator → Bool
  | eq | ne | le | lt | ge | gt => true
  | _ => false

/-- The symbol of an operator. -/
def symbol : Operator → String
  | eq => "=="
  | ne => "!="
  | le => "<="
  | lt => "<"
  | ge => ">="
  | gt => ">"
  | add => "+"
  | sub => "-"
  | div => "/"
  | mul => "*"
  | mod => "%"
  | .and => "&"
  | .or => "|"
  | .xor => "^"
  | shiftLeft => "<<"
  | shiftRight => ">>"

/-- The operator with a symbol. -/
def ofSymbol? (text : String) : Option Operator :=
  all.find? fun op => op.symbol == text

theorem ofSymbol?_symbol (op : Operator) : ofSymbol? op.symbol = some op := by
  cases op <;> rfl

end Operator

end Stimulus

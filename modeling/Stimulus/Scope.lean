import Std.Data.HashSet
import Stimulus.Operand.Basic

/-!
# Constraint scopes

A scope is a list of expressions that are meant to hold together. An expression
of more than one bit holds where it is not zero.
-/

namespace Stimulus

deriving instance Hashable for Field

/-- Constraints in the order in which they were added. -/
structure Scope where
  constraints : List Expr
deriving DecidableEq

namespace Scope

/-- The scope without constraints. -/
def empty : Scope := ⟨[]⟩

/-- The number of constraints. -/
def length (s : Scope) : Nat := s.constraints.length

/-- The scope with one more constraint. -/
def add (s : Scope) (e : Expr) : Scope := ⟨s.constraints ++ [e]⟩

/-- The scope with the expression of an operand as one more constraint. -/
def tryAdd (label : Field → String) (s : Scope) (o : Operand) : Except Error Scope := do
  return s.add (← o.toExpr label)

/-- The fields of all constraints, in the order of their first mention. -/
def fields (s : Scope) : List Field :=
  Field.firstMentions [] (s.constraints.flatMap Expr.fields)

/-- A set of fields together with those of all constraints. -/
def collectFields (s : Scope) (out : Std.HashSet Field) : Std.HashSet Field :=
  s.constraints.foldl (fun out e => out.insertMany e.fields) out

end Scope

end Stimulus

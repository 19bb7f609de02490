import Stimulus.Field.Workspace
import Stimulus.Literal
import Stimulus.Operator

/-!
# Expressions

Expressions are trees over literals and fields: binary operators, the selection
of a bit or of a range of bits, and membership in a list of ranges. A list of
ranges is never empty. `preorder` lists the nodes of a tree, parents before
children and children from left to right, and `fields` the fields it mentions,
in the order of their first mention.
-/

namespace Stimulus

mutual

/-- Expressions over fields. -/
inductive Expr where
  | literal (l : Literal)
  | field (f : Field)
  | binary (op : Operator) (lhs rhs : Expr)
  | bit (base index : Expr)
  | slice (base high low : Expr)
  | inside (value : Expr) (ranges : Ranges)

/-- A single value or an inclusive interval. -/
inductive Range where
  | point (value : Expr)
  | interval (low high : Expr)

/-- Ranges, of which there is at least one. -/
inductive Ranges where
  | single (range : Range)
  | cons (range : Range) (rest : Ranges)

end

deriving instance DecidableEq for Expr, Range, Ranges

namespace Ranges

/-- The ranges in order. -/
def toList : Ranges → List Range
  | single r => [r]
  | cons r rest => r :: rest.toList

/-- The number of ranges. -/
def length : Ranges → Nat
  | single _ => 1
  | cons _ rest => rest.length + 1

/-- A range followed by a list of ranges. -/
def ofCons (r : Range) : List Range → Ranges
  | [] => single r
  | r' :: rest => cons r (ofCons r' rest)

/-- The ranges of a list, which must not be empty. -/
def ofList : List Range → Except Error Ranges
  | [] => .error .emptyRangeList
  | r :: rest => .ok (ofCons r rest)

end Ranges

namespace Expr

/-- The literal of an integer of an explicit type. -/
def ofInt (value : Int) (width : Nat) (signed : Bool) : Except Error Expr := do
  return literal (← Literal.ofInt value width signed)

/-- The literal of a plain integer. -/
def ofInt32 (value : Int32) : Expr := literal (.ofInt32 value)

/-- The literal of a member of an enumeration. -/
def ofMember (m : Member) : Expr := literal (.ofMember m)

end Expr

mutual

/-- The nodes of an expression, parents first. -/
def Expr.preorder : Expr → List Expr
  | .literal l => [.literal l]
  | .field f => [.field f]
  | .binary op lhs rhs => .binary op lhs rhs :: (lhs.preorder ++ rhs.preorder)
  | .bit base index => .bit base index :: (base.preorder ++ index.preorder)
  | .slice base high low =>
    .slice base high low :: (base.preorder ++ high.preorder ++ low.preorder)
  | .inside value ranges => .inside value ranges :: (value.preorder ++ ranges.preorder)

/-- The nodes of a range. -/
def Range.preorder : Range → List Expr
  | .point value => value.preorder
  | .interval low high => low.preorder ++ high.preorder

/-- The nodes of all ranges. -/
def Ranges.preorder : Ranges → List Expr
  | .single range => range.preorder
  | .cons range rest => range.preorder ++ rest.preorder

end

/-- The fields of a list that are not in `seen`, each at its first place. -/
def Field.firstMentions (seen : List Field) : List Field → List Field
  | [] => []
  | f :: rest =>
    if f ∈ seen then firstMentions seen rest else f :: firstMentions (f :: seen) rest

namespace Expr

/-- The field of a leaf. -/
def field? : Expr → Option Field
  | field f => some f
  | _ => none

/-- The fields of an expression, in the order of their first mention. -/
def fields (e : Expr) : List Field := Field.firstMentions [] (e.preorder.filterMap field?)

end Expr

end Stimulus

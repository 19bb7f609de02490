/-!
# Errors

What can be wrong with declarations, operands and constraints, as causes. The
wording is in `Error.message` alone; `Error.kind` is for telling errors apart.
-/

namespace Stimulus

/-- Widths that do not fit together. -/
inductive WidthError where
  /-- A field whose width is zero or above the widest field. -/
  | field (width : Nat)
  /-- A constant bit position beyond the selected value. -/
  | bit (index width : Nat)
  /-- A bound of a range of bits that is not a constant. -/
  | notConstant (bound : String)
  /-- A bound of a range of bits that is negative. -/
  | negative (bound : String)
  /-- A range of bits that is empty or reaches beyond the selected value. -/
  | slice (high low width : Nat)
deriving DecidableEq

/-- Wrong declarations, operands and constraints. -/
inductive Error where
  /-- A callable where an operand is needed now. -/
  | deferred
  /-- An operand of a kind that has no expression. -/
  | unsupported (value kind : String)
  /-- A list of operands that should be a pair. -/
  | malformedRange (length : Nat)
  /-- A literal that does not fit its type. -/
  | literalOutOfRange (value : Int) (width : Nat) (signed : Bool)
  /-- Fewer operands recorded than a step takes. -/
  | missingOperands (needed available : Nat)
  /-- A statement that does not end with a single operand. -/
  | unbalanced (remaining : Nat)
  /-- A value outside an enumeration. -/
  | notAMember (enumeration value : String)
  /-- An enumeration without entries. -/
  | emptyEnumeration (name : String)
  /-- A symbol or a value that an enumeration has twice. -/
  | duplicateEntry (enumeration entry : String)
  /-- A field that no model has named. -/
  | unboundField
  /-- A membership test in nothing. -/
  | emptyRangeList
  /-- Widths that do not fit together. -/
  | widthMismatch (cause : WidthError)
  /-- A value that does not fit a field. -/
  | valueOutOfRange (value : Int) (width : Nat) (signed : Bool)
  /-- A field that a model has already named. -/
  | alreadyBound (name : String)
  /-- A name that the model has already given away. -/
  | duplicateField (name : String)
  /-- A constraint block that the model does not have. -/
  | unknownConstraint (name : String)
  /-- Constraints without any solution. -/
  | unsatisfiable
deriving DecidableEq

/-- The widest field. -/
def maxWidth : Nat := 64

/-- The wording of a width error. -/
def WidthError.message : WidthError → String
  | field width => "field width " ++ toString width ++ " is outside 1..=" ++ toString maxWidth
  | bit index width =>
    "bit index " ++ toString index ++ " out of range for width " ++ toString width
  | notConstant bound => "part select bound `" ++ bound ++ "` is not a constant"
  | negative bound => "part select bound `" ++ bound ++ "` is negative"
  | slice high low width =>
    "part select [" ++ toString high ++ ":" ++ toString low ++ "] out of range for width " ++
      toString width

/-- The wording of a value that does not fit. -/
def misfitText (noun : String) (value : Int) (width : Nat) (signed : Bool) : String :=
  noun ++ " " ++ toString value ++ " does not fit in " ++ toString width ++ " bits (signed: " ++
    toString signed ++ ")"

/-- The wording of an error. -/
def Error.message : Error → String
  | deferred => "deferred (callable) references are not supported as expression operands"
  | unsupported value kind =>
    "value `" ++ value ++ "` of type `" ++ kind ++
      "` is not recognized and does not provide an expression"
  | malformedRange length =>
    "range specified with " ++ toString length ++
      " elements is invalid, two elements are required"
  | literalOutOfRange value width signed => misfitText "literal" value width signed
  | missingOperands needed available =>
    "expression needs " ++ toString needed ++ " recorded operands, but only " ++
      toString available ++ " are available"
  | unbalanced remaining =>
    "expression statement left " ++ toString remaining ++
      " operands on the build context, expected exactly one"
  | notAMember enumeration value =>
    "`" ++ value ++ "` is not a member of enumeration `" ++ enumeration ++ "`"
  | emptyEnumeration name => "enumeration `" ++ name ++ "` has no entries"
  | duplicateEntry enumeration entry =>
    "enumeration `" ++ enumeration ++ "` declares `" ++ entry ++ "` more than once"
  | unboundField => "expression references a field that has not been bound to a model"
  | emptyRangeList => "range list must contain at least one range"
  | widthMismatch cause => "width mismatch: " ++ cause.message
  | valueOutOfRange value width signed => misfitText "value" value width signed
  | alreadyBound name => "field is already bound as `" ++ name ++ "`"
  | duplicateField name => "model already has a field named `" ++ name ++ "`"
  | unknownConstraint name => "no constraint block named `" ++ name ++ "`"
  | unsatisfiable => "constraints are unsatisfiable"

/-- The kind of an error, the same whatever its details are. -/
def Error.kind : Error → String
  | deferred => "Coercion.Deferred"
  | unsupported .. => "Coercion.Unsupported"
  | malformedRange _ => "Coercion.MalformedRange"
  | literalOutOfRange .. => "Coercion.LiteralOutOfRange"
  | missingOperands .. => "Coercion.MissingOperands"
  | unbalanced _ => "Coercion.Unbalanced"
  | notAMember .. => "Domain.NotAMember"
  | emptyEnumeration _ => "Domain.Empty"
  | duplicateEntry .. => "Domain.Duplicate"
  | unboundField => "UnboundField"
  | emptyRangeList => "EmptyRangeList"
  | widthMismatch _ => "WidthMismatch"
  | valueOutOfRange .. => "ValueOutOfRange"
  | alreadyBound _ => "AlreadyBound"
  | duplicateField _ => "DuplicateField"
  | unknownConstraint _ => "UnknownConstraint"
  | unsatisfiable => "Unsatisfiable"

end Stimulus

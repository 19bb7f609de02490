import Stimulus.Field.Slot
import Stimulus.Text.Quoted

/-!
# Descriptions of slots

A slot written out in full on one line: records with their fields by name, lists
in brackets, texts in quotes.
-/

namespace Stimulus

open Text

/-- A record with named parts. -/
def record (name : String) (parts : List (String × String)) : String :=
  name ++ " \x7b " ++ ", ".intercalate (parts.map fun p => p.1 ++ ": " ++ p.2) ++ " \x7d"

/-- A constructor with its arguments. -/
def tuple (name : String) (parts : List String) : String :=
  name ++ "(" ++ ", ".intercalate parts ++ ")"

/-- An enumeration in full. -/
def Enumeration.describe (d : Enumeration) : String :=
  let entry (e : Entry) := tuple "" [quoted e.symbol, toString e.value.toInt]
  record "EnumDomain"
    [("name", quoted d.name), ("entries", "[" ++ ", ".intercalate (d.entries.map entry) ++ "]"),
      ("width", toString d.width), ("signed", toString d.signed)]

/-- A type in full. -/
def FieldType.describe : FieldType → String
  | .scalar width signed =>
    record "Scalar" [("width", toString width), ("signed", toString signed)]
  | .enumeration d => tuple "Enum" [d.describe]

/-- A name and a position in full. -/
def Binding.describe (b : Binding) : String :=
  record "Binding" [("id", tuple "FieldId" [toString b.position]), ("name", quoted b.name)]

/-- A slot in full. -/
def Slot.describe (s : Slot) : String :=
  let binding :=
    match s.binding with
    | some b => tuple "Some" [b.describe]
    | none => "None"
  record "Field"
    [("binding", binding), ("ty", s.type.describe), ("is_random", toString s.isRandom),
      ("value", toString s.toInt)]

end Stimulus

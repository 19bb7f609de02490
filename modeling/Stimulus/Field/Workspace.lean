import Stimulus.Field.Slot

/-!
# Workspaces

A field is a handle: two handles are equal if they come from one declaration. A
workspace holds the slots behind the handles, in the order of declaration, and
the number of enumerations declared, which tells enumerations apart. A handle
that the workspace does not know reads as an unnamed bit and cannot be changed.
-/

namespace Stimulus

/-- A handle to a declared field. -/
structure Field where
  id : Nat
deriving DecidableEq

/-- The slots of all fields and the number of enumerations. -/
structure Workspace where
  slots : Array Slot
  enumerations : Nat

namespace Workspace

/-- The workspace without any declaration. -/
def empty : Workspace := ⟨#[], 0⟩

/-- The slot behind a handle. -/
def slot (ws : Workspace) (f : Field) : Slot := ws.slots.getD f.id .blank

/-- The workspace with another slot behind a handle. -/
def setSlot (ws : Workspace) (f : Field) (s : Slot) : Workspace :=
  { ws with slots := ws.slots.setIfInBounds f.id s }

/-- The name of a field in expressions. -/
def label (ws : Workspace) (f : Field) : String := (ws.slot f).label

/-- The declaration of an enumeration. -/
def declareEnumeration (ws : Workspace) (name : String) (entries : List Entry) :
    Except Error (Enumeration × Workspace) := do
  let d ← Enumeration.declare ws.enumerations name entries
  return (d, { ws with enumerations := ws.enumerations + 1 })

/-- The declaration of a field, which is not bound yet. -/
def declareField (ws : Workspace) (type : FieldType) (isRandom : Bool) :
    Except Error (Field × Workspace) := do
  let s ← Slot.declare type isRandom
  return (⟨ws.slots.size⟩, { ws with slots := ws.slots.push s })

/-- The workspace after a value is given to a field. -/
def assign (ws : Workspace) (f : Field) (value : Value) : Except Error Workspace := do
  return ws.setSlot f (← (ws.slot f).assign value)

/-- The workspace after a raw value is given to a field. -/
def setRaw (ws : Workspace) (f : Field) (raw : Nat) : Workspace :=
  ws.setSlot f ((ws.slot f).setRaw raw)

/-- The workspace after a field is made random or fixed. -/
def setRandom (ws : Workspace) (f : Field) (isRandom : Bool) : Workspace :=
  ws.setSlot f ((ws.slot f).setRandom isRandom)

end Workspace

end Stimulus

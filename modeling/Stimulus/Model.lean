import Stimulus.InPlace
import Stimulus.Scope

/-!
# Models

A model binds fields, which gives each of them a name and a position, and owns
named blocks of constraints that can be switched on and off. A field is bound
once, and a name is given away once in a model; of two blocks with one name the
later one replaces the earlier one in its place.

What a field is called is kept behind its handle and not in the model. So
binding changes two things in place, one after the other (`Edit`): the slot of
the field and the list of the model.
-/

namespace Stimulus

/-- A named scope that can be switched off. -/
structure Block where
  name : String
  scope : Scope
  enabled : Bool
deriving DecidableEq

/-- Bound fields, in the order of their positions, and blocks of constraints. -/
structure Model where
  name : String
  fields : List Field
  blocks : List Block
deriving DecidableEq

namespace Model

/-- The model without fields and blocks. -/
def new (name : String) : Model := ⟨name, [], []⟩

/-- The number of positions that 32 bits tell apart. -/
def positions : Nat := 4294967296

/-- The position of the field that is bound next. After the last position they start
again from zero. -/
def nextPosition (m : Model) : Nat := m.fields.length % positions

/-- The text of a field's position. -/
def positionText (position : Nat) : String := "f" ++ toString position

/-- The field with a name. -/
def fieldByName? (m : Model) (ws : Workspace) (name : String) : Option Field :=
  m.fields.find? fun f => (ws.slot f).binding.any fun b => b.name == name

/-- The field at a position. -/
def fieldAt? (m : Model) (position : Nat) : Option Field := m.fields[position]?

end Model

/-- Changes of a model and of the slots behind the fields. -/
abbrev Edit := InPlace (Model × Workspace)

namespace Edit

/-- A field gets its name and its position. -/
def bindSlot (f : Field) (position : Nat) (name : String) : Edit Unit := do
  let (m, ws) ← get
  set (m, ws.setSlot f (← InPlace.ofExcept ((ws.slot f).bind position name)))

/-- One more field at the end of the list. -/
def pushField (f : Field) : Edit Unit := do
  let (m, ws) ← get
  set ({ m with fields := m.fields ++ [f] }, ws)

/-- One more field, which gets a name and the next position. -/
def bind (name : String) (f : Field) : Edit Nat := do
  let (m, ws) ← get
  if (m.fieldByName? ws name).isSome then
    throw (.duplicateField name)
  let position := m.nextPosition
  bindSlot f position name
  pushField f
  return position

/-- A new field, which is bound at once. Its slot stays behind if it cannot be bound, without a
handle to it. -/
def declareField (name : String) (type : FieldType) (isRandom : Bool) : Edit Field := do
  let (m, ws) ← get
  let (f, ws) ← InPlace.ofExcept (ws.declareField type isRandom)
  set (m, ws)
  let _ ← bind name f
  return f

end Edit

namespace Model

/-- The model with one more field, which gets a name and the next position. -/
def bind (m : Model) (ws : Workspace) (name : String) (f : Field) :
    Except Error (Model × Workspace) :=
  ((Edit.bind name f).completed (m, ws)).map Prod.snd

/-- The model with a new field. -/
def declareField (m : Model) (ws : Workspace) (name : String) (type : FieldType)
    (isRandom : Bool) : Except Error (Field × Model × Workspace) :=
  (Edit.declareField name type isRandom).completed (m, ws)

/-- The blocks with a new one, which replaces the one of the same name. -/
def putBlock (block : Block) : List Block → List Block
  | [] => [block]
  | b :: rest => if b.name = block.name then block :: rest else b :: putBlock block rest

/-- The model with a block of constraints, switched on. -/
def constrain (m : Model) (name : String) (scope : Scope) : Model :=
  { m with blocks := putBlock ⟨name, scope, true⟩ m.blocks }

/-- The model with a block of constraints from operands, all of which have to be
expressions. -/
def constrainWith (m : Model) (label : Field → String) (name : String)
    (operands : List Operand) : Except Error Model := do
  return m.constrain name (← operands.foldlM (Scope.tryAdd label) .empty)

/-- The block with a name. -/
def block (m : Model) (name : String) : Except Error Block :=
  match m.blocks.find? fun b => b.name == name with
  | some b => .ok b
  | none => .error (.unknownConstraint name)

/-- Whether a block is switched on. -/
def isEnabled (m : Model) (name : String) : Except Error Bool :=
  (m.block name).map Block.enabled

/-- The model with a block switched on or off. -/
def setEnabled (m : Model) (name : String) (enabled : Bool) : Except Error Model := do
  let b ← m.block name
  return { m with blocks := putBlock { b with enabled := enabled } m.blocks }

/-- The scopes of the blocks that are switched on. -/
def enabledScopes (m : Model) : List Scope :=
  (m.blocks.filter Block.enabled).map Block.scope

end Model

end Stimulus

import Stimulus.Lowering

/-!
# Randomization

Randomizing a model gives its random fields new values, drawn uniformly from
those under which all constraints hold: the constraints of the enabled blocks
and those that are given along with the call. Every other field that the
constraints mention keeps its value, be it fixed or another model's.

The solver is reset first. All fields get their terms together, those of the
model in the order of binding and then the others in the order of their first
mention. After the constraints come the restrictions: fields that keep their
value are pinned to it, and enumerated fields are restricted to their members.
A call that fails changes no field and draws nothing.
-/

namespace Stimulus

/-- The owner of the solver that draws the values. -/
structure Randomizer where
  solver : Solver

namespace Randomizer

/-- The randomizer whose draws are reproducible from a seed. -/
def ofSeed (seed : UInt64) (layout : Layout) : Randomizer := ⟨.ofSeed seed layout⟩

/-- The scopes that take part in a call. -/
def activeScopes (m : Model) (inline : Scope) : List Scope := m.enabledScopes ++ [inline]

/-- The fields that take part in a call. -/
def activeFields (m : Model) (inline : Scope) : List Field :=
  let mentioned := (activeScopes m inline).flatMap fun s => s.constraints.flatMap Expr.fields
  m.fields ++ Field.firstMentions m.fields mentioned

/-- Whether a call gives a field a new value. -/
def isSolved (ws : Workspace) (m : Model) (f : Field) : Bool :=
  (ws.slot f).isRandom && decide (f ∈ m.fields)

/-- The constraint that a field has its present value. -/
def pin (ws : Workspace) (f : Field) : Except Error Expr := do
  let s := ws.slot f
  let value ← Expr.ofInt s.toInt s.width s.signed
  return .binary .eq (.field f) value

/-- The constraint that an enumerated field has a member of its enumeration. -/
def membership (f : Field) (d : Enumeration) : Except Error Expr := do
  let ranges ← Ranges.ofList (d.members.map fun m => .point (.ofMember m))
  return .inside (.field f) ranges

/-- The restriction of a field, if it needs one. -/
def restriction (ws : Workspace) (m : Model) (f : Field) : Except Error (Option Expr) :=
  if isSolved ws m f then
    match (ws.slot f).type.enumeration? with
    | some d => some <$> membership f d
    | none => .ok none
  else some <$> pin ws f

/-- The conjunction of some scopes, from the left. -/
def lowerScopes (ws : Workspace) : List Scope → BitVector → Lower BitVector
  | [], sofar => return sofar
  | s :: rest, sofar => do
    let term ← Lowering.lowerScope ws s
    let sofar ← Lowering.and sofar term
    lowerScopes ws rest sofar

/-- The conjunction of the restrictions of some fields, from the left. -/
def restrict (ws : Workspace) (m : Model) : List Field → BitVector → Lower BitVector
  | [], sofar => return sofar
  | f :: rest, sofar => do
    match ← restriction ws m f with
    | none => restrict ws m rest sofar
    | some e => do
      let term ← Lowering.lower ws e
      let sofar ← Lowering.and sofar term
      restrict ws m rest sofar

/-- The formula of a call, whose solutions are the values that the fields may
take. -/
def formula (ws : Workspace) (m : Model) (inline : Scope) : Lower BitVector := do
  Lowering.declare ws (activeFields m inline)
  let constraints ← lowerScopes ws (activeScopes m inline) Lowering.constantTrue
  restrict ws m (← get).fields constraints

/-- The workspace after the solved fields take their values from a solution. -/
def writeBack (m : Model) (solver : Solver) (solution : Solution) :
    List (Field × BitVector) → Workspace → Except Fault Workspace
  | [], ws => .ok ws
  | (f, term) :: rest, ws => do
    if isSolved ws m f then
      let raw ← solver.read solution term
      writeBack m solver solution rest (ws.setRaw f raw)
    else writeBack m solver solution rest ws

/-- What a call leaves behind. -/
structure Outcome where
  result : Except Error Unit
  randomizer : Randomizer
  workspace : Workspace

/-- New values for the random fields of a model, under its enabled blocks and
the constraints given along. -/
def randomizeWith (r : Randomizer) (ws : Workspace) (m : Model) (inline : Scope) :
    Except Fault Outcome := do
  let (formula, lowering) ← (formula ws m inline).run.run (.start r.solver.reset)
  match formula with
  | .error e => return ⟨.error e, ⟨lowering.solver⟩, ws⟩
  | .ok formula => do
    let (solution, solver) ← (Solver.solve formula).run lowering.solver
    match solution with
    | none => return ⟨.error .unsatisfiable, ⟨solver⟩, ws⟩
    | some solution => do
      let ws ← writeBack m solver solution lowering.terms.toList ws
      return ⟨.ok (), ⟨solver⟩, ws⟩

/-- New values for the random fields of a model, under its enabled blocks. -/
def randomize (r : Randomizer) (ws : Workspace) (m : Model) : Except Fault Outcome :=
  r.randomizeWith ws m .empty

end Randomizer

end Stimulus

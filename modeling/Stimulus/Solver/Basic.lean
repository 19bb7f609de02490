import Stimulus.BitVector.Apply
import Stimulus.Random.Source
import Stimulus.Solver.Layout

/-!
# The solver

A solver owns a node store, the number of variables in use and the source of its
random draws. Its terms are bit-vectors over that store; truth values are terms
of one bit, and a wider term counts as true where some bit is set. Resetting
drops all terms and variables and keeps the position in the random source.
-/

namespace Stimulus

open Diagram

/-- A store with its variables `1, …, numVars` and a source of draws. -/
structure Solver where
  store : Store
  numVars : Nat
  layout : Layout
  source : Source

/-- The width and the flag of a term. -/
structure Shape where
  width : Nat
  signed : Bool
deriving DecidableEq

/-- Computations that may change a solver. -/
abbrev Solving := StateT Solver (Except Fault)

namespace Solver

/-- The solver whose draws are reproducible from a seed. -/
def ofSeed (seed : UInt64) (layout : Layout) : Solver :=
  ⟨.empty, 0, layout, .ofSeed seed⟩

/-- The solver without its terms and variables. -/
def reset (s : Solver) : Solver := { s with store := .empty, numVars := 0 }

/-- The sizes of a solver in words. -/
def summary (s : Solver) : String :=
  "BddSolver \x7b bdd: " ++ s.store.summary ++ ", num_vars: " ++ toString s.numVars ++ " \x7d"

/-- A computation on the store of a solver. -/
def build {α : Type} (x : Build α) : Solving α := fun ⟨store, numVars, layout, source⟩ =>
  match x store with
  | .ok (a, store) => .ok (a, ⟨store, numVars, layout, source⟩)
  | .error fault => .error fault

/-- The constant term of the low `width` bits of `value`. -/
def constant (value width : Nat) (signed : Bool) : Except Fault BitVector :=
  BitVector.constant value width signed

/-- A fresh term without any constraint. -/
def freshVariable (shape : Shape) : Solving BitVector := do
  let first := (← get).numVars + 1
  modify fun s => { s with numVars := s.numVars + shape.width }
  build (BitVector.variable first shape.width shape.signed)

/-- The function of the next variable. -/
def nextLiteral : Solving Edge := do
  modify fun s => { s with numVars := s.numVars + 1 }
  build (literal (← get).numVars)

/-- A term in the making: its shape and the bits that it has so far. -/
structure Draft where
  shape : Shape
  bits : List Edge

/-- The draft without any bit. -/
def Draft.start (shape : Shape) : Draft := ⟨shape, []⟩

/-- Bit `i` of a draft, on the next variable, if the shape is so wide. -/
def Draft.extend (i : Nat) (draft : Draft) : Solving Draft := do
  if i < draft.shape.width then
    return ⟨draft.shape, draft.bits ++ [← nextLiteral]⟩
  return draft

/-- The term of a draft. -/
def Draft.finish (draft : Draft) : Except Fault BitVector :=
  BitVector.ofBits draft.bits draft.shape.signed

/-- The largest width of some shapes. -/
def widest (shapes : List Shape) : Nat := (shapes.map Shape.width).foldl max 0

/-- Fresh terms without any constraint that take their variables in turn: bit
`i` of every term before bit `i + 1` of any of them. -/
def interleavedVariables (shapes : List Shape) : Solving (List BitVector) := do
  let drafts ← (List.range (widest shapes)).foldlM
    (fun drafts i => drafts.mapM (Draft.extend i)) (shapes.map Draft.start)
  drafts.mapM fun draft => liftM draft.finish

/-- Fresh terms without any constraint, laid out together. -/
def freshVariables (shapes : List Shape) : Solving (List BitVector) := do
  match (← get).layout with
  | .interleaved => interleavedVariables shapes
  | .sequential => shapes.mapM freshVariable

/-- The term of one bit that holds where a term is not zero. -/
def toBool (a : BitVector) : Solving BitVector := build do
  return .ofBit (← a.truth)

/-- Conjunction of two terms as truth values. -/
protected def and (a b : BitVector) : Solving BitVector := build do
  let f ← a.truth
  let g ← b.truth
  return .ofBit (← conj f g)

/-- Disjunction of two terms as truth values. -/
protected def or (a b : BitVector) : Solving BitVector := build do
  let f ← a.truth
  let g ← b.truth
  return .ofBit (← disj f g)

/-- The complement of a term as a truth value. -/
protected def not (a : BitVector) : Solving BitVector := build do
  return .ofBit (-(← a.truth))

/-- The operation of an operator. -/
def apply (op : Operator) (a b : BitVector) : Solving BitVector := build (BitVector.apply op a b)

/-- The bit of `base` at the position that a term gives. -/
def selectBit (base index : BitVector) : Solving BitVector := build do
  return .ofBit (← BitVector.select base index)

end Solver

end Stimulus

import Stimulus.Solver.Basic
import Stimulus.Diagram.Evaluation
import Stimulus.Diagram.Witness
import Stimulus.Diagram.Sample

/-!
# Solutions

A solution gives values to the variables of a solver. There are three ways to
ask for them: `solve` draws one uniformly, `witness` finds the greedy one and
`countSolutions` counts them all. `read` gives back the number that a term has
under a solution.
-/

namespace Stimulus

open Diagram

/-- Values of the variables `1, …, n`, the value of `v` at the position `v - 1`. -/
structure Solution where
  values : Array Bool
deriving DecidableEq

/-- The value of a variable. Variables without a value are false. -/
def Solution.value (m : Solution) (v : Nat) : Bool :=
  if v = 0 then false else m.values.getD (v - 1) false

/-- The values of `n` variables in which exactly the true decisions are true. -/
def Solution.ofDecisions (n : Nat) (decisions : List Decision) : Except Fault Solution := do
  let values ← decisions.foldlM (fun values d =>
    if d.value then
      if 0 < d.var ∧ d.var ≤ n then .ok (values.setIfInBounds (d.var - 1) true)
      else .error .uncounted
    else .ok values) (Array.replicate n false)
  return ⟨values⟩

/-- The number whose binary digits, least significant first, are the values of
these bits. -/
def BitVector.valueOf (s : Store) (ρ : Assignment) : List Edge → Except Fault Nat
  | [] => .ok 0
  | f :: rest => do
    let b ← s.evaluate f ρ
    let value ← valueOf s ρ rest
    return b.toNat + 2 * value

namespace Solver

/-- The number of assignments to the variables in use that make a term true. -/
def countSolutions (formula : BitVector) : Solving Nat := do
  let f ← build formula.truth
  let s ← get
  s.store.count f s.numVars

/-- The greedy solution, with all variables false that it does not decide. -/
def witness (formula : BitVector) : Solving (Option Solution) := do
  let f ← build formula.truth
  let s ← get
  match ← s.store.witness f with
  | none => return none
  | some decisions => return some (← Solution.ofDecisions s.numVars decisions)

/-- A solution drawn uniformly, or nothing if there is none. In that case no
random word is used up. -/
def solve (formula : BitVector) : Solving (Option Solution) := do
  let f ← build formula.truth
  fun ⟨store, numVars, layout, source⟩ =>
    match (store.sample f numVars).run.run source with
    | (.error fault, _) => .error fault
    | (.ok values, source) => .ok (values.map Solution.mk, ⟨store, numVars, layout, source⟩)

/-- The number that a term has under a solution, by its 64 low bits. -/
def read (s : Solver) (m : Solution) (a : BitVector) : Except Fault Nat :=
  BitVector.valueOf s.store m.value (a.bits.take 64)

end Solver

end Stimulus

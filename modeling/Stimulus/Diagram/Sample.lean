import Stimulus.Diagram.Count
import Stimulus.Random.Sampler

/-!
# Uniform solutions

`sample e n` describes the draw of an assignment to the variables `1, …, n`,
uniformly among those that satisfy `e`. All variables first get fair values;
then the walk from `e` to the constant true replaces the values of the variables
it meets, going to each side with a chance in proportion to the number of
solutions there. Variables that the walk skips keep their fair values. Nothing
is drawn for the constant false.
-/

namespace Stimulus.Diagram

/-- Random choices that may meet a fault. -/
abbrev Draw := ExceptT Fault Sampler

/-- A result that involves no choice. -/
def Draw.ofExcept {α : Type} (r : Except Fault α) : Draw α := ExceptT.mk (pure r)

namespace Store

/-- The walk from `e`, at most `fuel` nodes long, over the values drawn so far.
Counts are remembered along the walk. -/
def sampleWithin (s : Store) (n : Nat) :
    Nat → Counts → Edge → Array Bool → Draw (Array Bool)
  | 0, _, e, values => if e.isTerminal then return values else throw .endless
  | fuel + 1, known, e, values =>
    if e.isTerminal then return values
    else do
      let node ← Draw.ofExcept (s.node e)
      if n < node.var then
        throw .uncounted
      let low ← Draw.ofExcept (s.through e node.low)
      let high ← Draw.ofExcept (s.through e node.high)
      let (lows, known) ← Draw.ofExcept ((s.countAfter n node.var low).run known)
      let (highs, known) ← Draw.ofExcept ((s.countAfter n node.var high).run known)
      if lows + highs = 0 then
        throw .emptyChoice
      let pick ← ExceptT.lift (Sampler.numberBelow (lows + highs))
      let side := decide (pick < highs)
      s.sampleWithin n fuel known (if side then high else low)
        (values.setIfInBounds (node.var - 1) side)

/-- A satisfying assignment of `e` to the variables `1, …, n`, drawn uniformly.
The value of the variable `v` stands at the position `v - 1`. -/
def sample (s : Store) (e : Edge) (n : Nat) : Draw (Option (Array Bool)) :=
  if e = .zero then return none
  else do
    let values ← ExceptT.lift (Sampler.coins n)
    return some (← s.sampleWithin n s.nodes.size ∅ e values.toArray)

/-- Several assignments drawn one after another from a source. -/
def samples (s : Store) (e : Edge) (n : Nat) :
    (times : Nat) → Source → Except Fault (List (Option (Array Bool)))
  | 0, _ => .ok []
  | times + 1, source => do
    let (values, source) := (s.sample e n).run.run source
    return (← values) :: (← s.samples e n times source)

end Store

end Stimulus.Diagram

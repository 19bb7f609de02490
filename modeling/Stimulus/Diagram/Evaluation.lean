import Stimulus.Diagram.Store

/-!
# Evaluation

The value of an edge under an assignment is found by following, from node to
node, the branch that the assignment takes. A walk that comes back to a node
never ends, so the number of nodes bounds the length of the walk.
-/

namespace Stimulus.Diagram

/-- Values of all variables. -/
abbrev Assignment := Nat → Bool

namespace Store

/-- The terminal at the end of the walk from `e`, at most `fuel` nodes long, as
a truth value. -/
def follow (s : Store) (ρ : Assignment) : Nat → Edge → Except Fault Bool
  | 0, e => if e.isTerminal then .ok (e == .one) else .error .endless
  | fuel + 1, e =>
    if e.isTerminal then .ok (e == .one)
    else do
      let n ← s.node e
      follow s ρ fuel (← s.through e (if ρ n.var then n.high else n.low))

/-- The value of the function `e` under the assignment `ρ`. -/
def evaluate (s : Store) (e : Edge) (ρ : Assignment) : Except Fault Bool :=
  s.follow ρ s.nodes.size e

end Store

end Stimulus.Diagram

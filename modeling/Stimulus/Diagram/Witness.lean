import Stimulus.Diagram.Store

/-!
# The greedy witness

`witness` walks from an edge to the constant true and takes the high branch
wherever that one is satisfiable. In a reduced diagram only the constant false
is unsatisfiable, so the walk never turns back. A walk that comes back to an
edge never ends, so it has at most as many steps as there are edges. Variables
that the walk does not meet may take either value.
-/

namespace Stimulus.Diagram

/-- A variable together with its value. -/
structure Decision where
  var : Nat
  value : Bool
deriving DecidableEq

/-- A decision as a signed number: the variable for true, its negative for
false. Variables are read as 32-bit words in two's complement, of which the
least one has no negative. -/
def Decision.code (d : Decision) : Except Fault Int :=
  let v := (Edge.ofWord d.var).code
  if d.value then .ok v
  else if v = Edge.leastCode then .error (.badVariable d.var)
  else .ok (-v)

namespace Store

/-- The decisions on the walk from `e`, at most `fuel` nodes long. -/
def witnessWithin (s : Store) : Nat → Edge → Except Fault (List Decision)
  | 0, e => if e.isTerminal then .ok [] else .error .endless
  | fuel + 1, e =>
    if e.isTerminal then .ok []
    else do
      let n ← s.node e
      let high ← s.through e n.high
      if high = .zero then
        let low ← s.through e n.low
        return ⟨n.var, false⟩ :: (← s.witnessWithin fuel low)
      return ⟨n.var, true⟩ :: (← s.witnessWithin fuel high)

/-- The greedy walk of `e`, or nothing for the constant false. -/
def witness (s : Store) (e : Edge) : Except Fault (Option (List Decision)) :=
  if e = .zero then .ok none else (s.witnessWithin (2 * s.nodes.size) e).map some

/-- The greedy walk of `e` as signed numbers. -/
def witnessCodes (s : Store) (e : Edge) : Except Fault (Option (List Int)) := do
  (← s.witness e).mapM fun walk => walk.mapM Decision.code

end Store

end Stimulus.Diagram

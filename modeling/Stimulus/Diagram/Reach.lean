import Std.Data.TreeSet
import Stimulus.Diagram.Store

/-!
# Reachable nodes

`descendants` collects the indexes of all nodes that can be reached from some
edges, the terminal included. An index is entered once, whatever the polarity
of the edge that leads to it, so the number of indexes is the size of the
diagram (`diagramSize`). `bracket` writes a diagram out as a term.
-/

namespace Stimulus.Diagram.Store

/-- The indexes reached from the edges still to visit, added to those already
seen. Each step takes one edge off the list. -/
def reach (s : Store) : Nat → List Edge → Std.TreeSet Nat → Except Fault (Std.TreeSet Nat)
  | _, [], seen => .ok seen
  | 0, _ :: _, _ => .error .endless
  | fuel + 1, e :: rest, seen =>
    if seen.contains e.index then s.reach fuel rest seen
    else if e.isTerminal then s.reach fuel rest (seen.insert e.index)
    else do
      let n ← s.node e
      let low ← s.through e n.low
      let high ← s.through e n.high
      s.reach fuel (low :: high :: rest) (seen.insert e.index)

/-- The indexes of all nodes reachable from `roots`. Every node adds at most two
edges to the list, once. -/
def descendants (s : Store) (roots : List Edge) : Except Fault (Std.TreeSet Nat) :=
  s.reach (roots.length + 2 * s.nodes.size) roots ∅

/-- The number of nodes of the diagram of `e`, the terminal included. -/
def diagramSize (s : Store) (e : Edge) : Except Fault Nat :=
  (s.descendants [e]).map (·.size)

/-- The diagram of `e` as a term, at most `fuel` nodes deep: each node with its
variable, its high side and its low side. -/
def bracketWithin (s : Store) : Nat → Edge → Except Fault String
  | 0, e => if e.isTerminal then .ok (if e = .one then "(1)" else "(0)") else .error .endless
  | fuel + 1, e =>
    if e.isTerminal then .ok (if e = .one then "(1)" else "(0)")
    else do
      let n ← s.node e
      let high ← s.bracketWithin fuel (← s.through e n.high)
      let low ← s.bracketWithin fuel (← s.through e n.low)
      return e.text ++ ":(x" ++ toString n.var ++ ", " ++ high ++ ", " ++ low ++ ")"

/-- The diagram of `e` as a term. -/
def bracket (s : Store) (e : Edge) : Except Fault String :=
  s.bracketWithin s.nodes.size e

end Stimulus.Diagram.Store

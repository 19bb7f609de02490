import Stimulus.Diagram.Store

/-!
# Counting solutions

`count e n` is the number of assignments to the variables `1, …, n` that
satisfy `e`. An edge is counted over its top variable and the variables after
it, as the sum of the counts of its two sides. A side that skips variables
counts once for every value of the skipped ones (`Store.below`).

The count of an edge is remembered, so that a node is counted at most once in
each polarity, however many edges lead to it.
-/

namespace Stimulus.Diagram

/-- Counts found so far, by the codes of their edges. -/
abbrev Counts := Std.TreeMap Int Nat

/-- The count of an edge for which no node has to be looked at: a constant, or
an edge that has been counted before. -/
def Counts.get? (known : Counts) (e : Edge) : Option Nat :=
  if e = .zero then some 0
  else if e = .one then some 1
  else known[e.code]?

/-- Computations that remember counts. -/
abbrev Counting := StateT Counts (Except Fault)

namespace Store

/-- The variable at which a function over `1, …, n` starts; the constants start
after the last one, which has to be a variable number too. -/
def depth (s : Store) (n : Nat) (e : Edge) : Except Fault Nat :=
  if e.isTerminal then
    if n < lastVariable then .ok (n + 1) else .error .uncounted
  else s.var e

/-- The count of a function over the variables `v + 1, …, n`, given its count
over its top variable and the later ones. -/
def below (s : Store) (n v : Nat) (e : Edge) (count : Nat) : Except Fault Nat := do
  let d ← s.depth n e
  if d < v + 1 then
    throw .uncounted
  return count <<< (d - (v + 1))

/-- The number of assignments to the top variable of `e` and the later ones that
satisfy `e`, at most `fuel` nodes deep. -/
def countWithin (s : Store) (n : Nat) : Nat → Edge → Counting Nat
  | 0, e => do
    match (← get).get? e with
    | some count => return count
    | none => throw .endless
  | fuel + 1, e => do
    match (← get).get? e with
    | some count => return count
    | none =>
      let node ← s.node e
      let low ← s.through e node.low
      let high ← s.through e node.high
      let lows ← s.below n node.var low (← s.countWithin n fuel low)
      let highs ← s.below n node.var high (← s.countWithin n fuel high)
      modify (·.insert e.code (lows + highs))
      return lows + highs

/-- The number of assignments to the variables `v + 1, …, n` that satisfy `e`. A
node is never below itself, so the number of nodes bounds the depth. -/
def countAfter (s : Store) (n v : Nat) (e : Edge) : Counting Nat := do
  s.below n v e (← s.countWithin n s.nodes.size e)

/-- The number of assignments to the variables `1, …, n` that satisfy `e`. -/
def count (s : Store) (e : Edge) (n : Nat) : Except Fault Nat :=
  (s.countAfter n 0 e).run' ∅

end Store

end Stimulus.Diagram

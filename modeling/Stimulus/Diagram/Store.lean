import Std.Data.TreeMap
import Stimulus.Fault
import Stimulus.Diagram.Edge

/-!
# The node store

A store keeps the nodes of all diagrams in the order of their creation and
never keeps one node twice: `branch` looks a node up before it appends it, and
moves a complement on the high edge to the result, so that a function and its
complement share their nodes. The index 0 stays unused and the index 1 is the
terminal. An index has 31 bits, and a new node for which none is left is a fault.

The computed table remembers answered case splits (`Triple`). It only saves
work: no answer depends on what it holds.

Edges need not come from the store that they are used with, and a node may be
made with an edge to an index that is filled only later. Every look-up of a node
can therefore fail, and so can a complement (`Store.complement`), but not the
complement of an edge to a node that is there (`Store.complement_of_lt`).
-/

namespace Stimulus.Diagram

/-- The largest variable number. It is also the level of the terminal, which
therefore never lies above a variable. -/
def lastVariable : Nat := 4294967295

/-- The number of nodes that indexes of 31 bits can address, the unused one
and the terminal included. -/
def maxNodes : Nat := 2147483647

/-- A node: the function that is `high` where the variable is true and `low`
where it is false. -/
structure Node where
  var : Nat
  low : Edge
  high : Edge
deriving DecidableEq

/-- Nodes in the order of their variables, then of their edges. -/
def Node.compare (a b : Node) : Ordering :=
  (Ord.compare a.var b.var).then
    ((Ord.compare a.low.code b.low.code).then (Ord.compare a.high.code b.high.code))

/-- A case split: the function `yes` where `test` holds and `no` elsewhere. -/
structure Triple where
  test : Edge
  yes : Edge
  no : Edge
deriving DecidableEq

/-- Case splits in the order of their three edges. -/
def Triple.compare (a b : Triple) : Ordering :=
  (Ord.compare a.test.code b.test.code).then
    ((Ord.compare a.yes.code b.yes.code).then (Ord.compare a.no.code b.no.code))

/-- The nodes made so far, where each of them is, and the case splits answered
so far. -/
structure Store where
  nodes : Array Node
  unique : Std.TreeMap Node Nat Node.compare
  computed : Std.TreeMap Triple Edge Triple.compare
  /-- The nodes are limited to `maxNodes`. Every new store has the limit; a store
  without it shows what a computation would need. -/
  bounded : Bool

/-- Computations that may add nodes to a store. -/
abbrev Build := StateT Store (Except Fault)

namespace Store

/-- The store with the unused index and the terminal only. -/
def empty : Store where
  nodes := #[⟨0, ⟨0⟩, ⟨0⟩⟩, ⟨0, Edge.one, Edge.one⟩]
  unique := ∅
  computed := ∅
  bounded := true

/-- An empty store for up to `2 ^ bits` nodes before it has to grow. An index
has 31 bits. -/
def withCapacity (bits : Nat) : Except Fault Store :=
  if bits ≤ 31 then .ok empty else .error (.capacity bits)

/-- The number of nodes, the terminal included. -/
def size (s : Store) : Nat := s.nodes.size - 1

/-- The node that an edge leads to. -/
def node (s : Store) (e : Edge) : Except Fault Node :=
  match s.nodes[e.index]? with
  | some n => .ok n
  | none => .error (.dangling e.index)

/-- The variable of the node that an edge leads to. -/
def var (s : Store) (e : Edge) : Except Fault Nat :=
  (s.node e).map Node.var

/-- The complement of an edge. An edge to a node of the store has one; of the
edges to nowhere only the least one has none. -/
def complement (s : Store) (e : Edge) : Except Fault Edge :=
  if e.code = Edge.leastCode ∧ s.nodes.size ≤ e.index then .error (.dangling e.index)
  else .ok (-e)

theorem complement_of_lt {s : Store} {e : Edge} (h : e.index < s.nodes.size) :
    s.complement e = .ok (-e) :=
  if_neg fun outside => Nat.not_le_of_lt h outside.2

/-- The child `c` of a node as it is seen through the edge `e`: complementing a
function complements both of its cofactors. -/
def through (s : Store) (e c : Edge) : Except Fault Edge :=
  if e.isNegated then s.complement c else .ok c

/-- The same edge without its complement. -/
def regular (s : Store) (e : Edge) : Except Fault Edge := s.through e e

/-- The function of an edge where its top variable is false. -/
def low (s : Store) (e : Edge) : Except Fault Edge := do
  let n ← s.node e
  s.through e n.low

/-- The function of an edge where its top variable is true. -/
def high (s : Store) (e : Edge) : Except Fault Edge := do
  let n ← s.node e
  s.through e n.high

/-- The top variable of an edge, with the constants below all variables. -/
def level (s : Store) (e : Edge) : Except Fault Nat :=
  if e.isTerminal then .ok lastVariable else s.var e

/-- The functions of an edge where the variable `v` is false and where it is
true, for a variable at or above the top of the edge. -/
def cofactors (s : Store) (e : Edge) (v : Nat) : Except Fault (Edge × Edge) := do
  if v < (← s.level e) then
    return (e, e)
  let n ← s.node e
  if n.var = v then
    return (← s.through e n.low, ← s.through e n.high)
  throw (.belowTop v)

/-- The sizes of a store in words. -/
def summary (s : Store) : String :=
  "Bdd \x7b nodes: " ++ toString s.size ++ ", cache: " ++ toString s.computed.size ++ " \x7d"

end Store

/-- The edge to a node, which is appended if it is new. -/
def share (n : Node) : Build Edge := fun ⟨nodes, unique, computed, bounded⟩ =>
  match unique[n]? with
  | some i => .ok (.ofIndex i, ⟨nodes, unique, computed, bounded⟩)
  | none =>
    let i := nodes.size
    if bounded ∧ maxNodes ≤ i then .error .storageExhausted
    else .ok (.ofIndex i, ⟨nodes.push n, unique.insert n i, computed, bounded⟩)

/-- A question about the store that does not change it. -/
def ask {α : Type} (question : Store → Except Fault α) : Build α := do
  question (← get)

/-- The complement of an edge. -/
def complement (e : Edge) : Build Edge := ask (·.complement e)

/-- The edge to a node. A node with equal children does not test anything and is
left out. -/
def shareTest (n : Node) : Build Edge :=
  if n.low = n.high then return n.low else share n

/-- The function that is `high` where the variable `v` is true and `low` where
it is false. No node is made with a complemented high edge. -/
def branch (v : Nat) (low high : Edge) : Build Edge := do
  if v = 0 ∨ lastVariable < v then
    throw (.badVariable v)
  if high.isNegated then
    return -(← shareTest ⟨v, ← complement low, ← complement high⟩)
  shareTest ⟨v, low, high⟩

/-- The function of a single variable. -/
def literal (v : Nat) : Build Edge := branch v .zero .one

/-- The remembered answer to a case split. -/
def remembered (t : Triple) : Build (Option Edge) := do
  return (← get).computed[t]?

/-- Remembering the answer to a case split. -/
def remember (t : Triple) (e : Edge) : Build Unit :=
  modify fun ⟨nodes, unique, computed, bounded⟩ =>
    ⟨nodes, unique, computed.insert t e, bounded⟩

end Stimulus.Diagram

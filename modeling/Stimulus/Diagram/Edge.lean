/-!
# Edges

An edge leads to a node of a decision diagram, either directly or complemented.
It is written as one signed number: the magnitude is the index of the node and
the sign says whether the function is complemented, so that negating an edge
twice gives the edge back (`Edge.neg_neg`) and both polarities share a node
(`Edge.index_neg`). Index 1 is the terminal: its two edges are the constants.

An edge can also be read from a 32-bit word (`Edge.ofWord`), whether or not it
leads to a node. The least word is its own negative and has no complement; a
store refuses to complement it (`Stimulus.Diagram.Store`).
-/

namespace Stimulus.Diagram

/-- An edge to a node, possibly complemented. -/
structure Edge where
  code : Int
deriving DecidableEq

namespace Edge

/-- The edge to the node at `index`. -/
def ofIndex (index : Nat) : Edge := ⟨index⟩

/-- The edge whose code is the 32-bit word `word`, read in two's complement. -/
def ofWord (word : Nat) : Edge :=
  ⟨if word < 2147483648 then (word : Int) else (word : Int) - 4294967296⟩

/-- The code of the least 32-bit word. -/
def leastCode : Int := -2147483648

/-- The constant true. -/
def one : Edge := ⟨1⟩

/-- The constant false. -/
def zero : Edge := ⟨-1⟩

/-- The constant function of a truth value. -/
def ofBool (b : Bool) : Edge := if b then one else zero

/-- The complement. -/
protected def neg (e : Edge) : Edge := ⟨-e.code⟩

instance : Neg Edge := ⟨Edge.neg⟩

/-- Complemented edges. -/
def isNegated (e : Edge) : Bool := decide (e.code < 0)

/-- The index of the node that the edge leads to. -/
def index (e : Edge) : Nat := e.code.natAbs

/-- Edges to the terminal. -/
def isTerminal (e : Edge) : Bool := e == zero || e == one

/-- The text of an edge: a tilde for the complement, then the node. -/
def text (e : Edge) : String :=
  (if e.isNegated then "~@" else "@") ++ toString e.index

@[simp] theorem code_neg (e : Edge) : (-e).code = -e.code := rfl

@[simp] theorem neg_neg (e : Edge) : - -e = e := by
  cases e with
  | mk code => exact congrArg Edge.mk (Int.neg_neg code)

@[simp] theorem index_neg (e : Edge) : (-e).index = e.index :=
  Int.natAbs_neg e.code

theorem neg_one : -one = zero := rfl

theorem neg_zero : -zero = one := rfl

end Edge

end Stimulus.Diagram

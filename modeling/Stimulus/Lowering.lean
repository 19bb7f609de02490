import Std.Data.TreeMap
import Stimulus.Model
import Stimulus.Solver.Solution

/-!
# Lowering

Lowering turns expressions into terms of a solver. Every field gets one fresh
term, on its first use or when it is declared, and keeps it, so that all
expressions lowered together speak about the same values. Only bound fields have
terms.

A range of bits needs constant bounds, and a constant bit position has to lie
within its base; a position that is not constant reads zero beyond the base.
Membership is the disjunction, from the left, of one comparison for each point
and two for each interval. What was allocated before an error stays allocated.
-/

namespace Stimulus

open Diagram

/-- Fields are ordered by their declarations. -/
instance : Ord Field := ⟨fun f g => compare f.id g.id⟩

/-- The terms of some fields, in the order in which they were allocated, and the
position of the term of each field. -/
structure TermTable where
  terms : Array (Field × BitVector)
  index : Std.TreeMap Field Nat

namespace TermTable

/-- The table without terms. -/
def empty : TermTable := ⟨#[], ∅⟩

/-- The table with the term of one more field. -/
def push (t : TermTable) (p : Field × BitVector) : TermTable :=
  ⟨t.terms.push p, t.index.insert p.1 t.terms.size⟩

/-- The table with the terms of more fields, one after another. -/
def append (t : TermTable) (more : List (Field × BitVector)) : TermTable := more.foldl push t

/-- The term at a position. -/
def termAt (t : TermTable) (i : Nat) : Except Fault BitVector :=
  match t.terms[i]? with
  | some p => .ok p.2
  | none => .error (.noTerm i)

end TermTable

/-- A solver and the terms of the fields met so far. -/
structure Lowering where
  solver : Solver
  table : TermTable

/-- Lowering steps, which may fail with an error and keep what they allocated. -/
abbrev Lower := ExceptT Error (StateT Lowering (Except Fault))

namespace Lowering

/-- The lowering onto a solver before any field is met. -/
def start (solver : Solver) : Lowering := ⟨solver, .empty⟩

/-- The fields met so far with their terms, in the order in which they were met. -/
abbrev terms (l : Lowering) : Array (Field × BitVector) := l.table.terms

/-- The positions of the fields met so far. -/
abbrev index (l : Lowering) : Std.TreeMap Field Nat := l.table.index

/-- The fields met so far. -/
def fields (l : Lowering) : List Field := l.terms.toList.map Prod.fst

/-- A computation on the solver. -/
def solving {α : Type} (x : Solving α) : Lower α := ExceptT.lift fun ⟨solver, table⟩ =>
  match x solver with
  | .ok (a, solver) => .ok (a, ⟨solver, table⟩)
  | .error fault => .error fault

/-- More terms for fields. -/
def allocate (more : List (Field × BitVector)) : Lower Unit :=
  modify fun ⟨solver, table⟩ => ⟨solver, table.append more⟩

/-- The shape of a field's term. -/
def shape (ws : Workspace) (f : Field) : Shape := ⟨(ws.slot f).width, (ws.slot f).signed⟩

/-- A term for a field that has none. -/
def newTerm (ws : Workspace) (f : Field) : Lower BitVector := do
  if (ws.slot f).isBound then
    let term ← solving (Solver.freshVariable (shape ws f))
    allocate [(f, term)]
    return term
  else throw .unboundField

/-- The term of a field, allocated on its first use. -/
def fieldTerm (ws : Workspace) (f : Field) : Lower BitVector := do
  let l ← get
  match l.index[f]? with
  | some i => solving (liftM (l.table.termAt i))
  | none => newTerm ws f

/-- Those of some fields that have no term yet, each at its first place. -/
def unmet (l : Lowering) (fields : List Field) : List Field :=
  Field.firstMentions [] (fields.filter fun f => !l.index.contains f)

/-- Terms for those of some fields that have none yet, allocated together. All
the fields have to be bound. -/
def declare (ws : Workspace) (fields : List Field) : Lower Unit := do
  if fields.all fun f => (ws.slot f).isBound then
    let fresh := (← get).unmet fields
    let terms ← solving (Solver.freshVariables (fresh.map (shape ws)))
    allocate (fresh.zip terms)
  else throw .unboundField

/-- The constant true. -/
def constantTrue : BitVector := .ofBit .one

/-- Conjunction of two terms as truth values. -/
protected def and (a b : BitVector) : Lower BitVector := solving (Solver.and a b)

/-- Disjunction of two terms as truth values. -/
protected def or (a b : BitVector) : Lower BitVector := solving (Solver.or a b)

/-- The number of a bound of a range of bits, from the term of the bound. It has
to be constant and, where a sign bit could hide a negative number, not
negative. -/
def bound (ws : Workspace) (e : Expr) (term : BitVector) : Except Error Nat :=
  match term.toConstant? with
  | none => .error (.widthMismatch (.notConstant (e.text ws.label)))
  | some n =>
    if term.signed ∧ term.width < maxWidth ∧ n.testBit (term.width - 1) then
      .error (.widthMismatch (.negative (e.text ws.label)))
    else .ok n

/-- The selected bit of a base. -/
def selectBit (base index : BitVector) : Lower BitVector := do
  if let some i := index.toConstant? then
    if base.width ≤ i then
      throw (.widthMismatch (.bit i base.width))
  solving (Solver.selectBit base index)

/-- The selected bits of a base. -/
def selectSlice (base : BitVector) (high low : Nat) : Lower BitVector := do
  if high < low ∨ base.width ≤ high then
    throw (.widthMismatch (.slice high low base.width))
  return ⟨(base.bits.drop low).take (high - low + 1), false⟩

/-- A membership test extended by one more range. -/
def extend (sofar : Option BitVector) (term : BitVector) : Lower BitVector :=
  match sofar with
  | none => return term
  | some sofar => Lowering.or sofar term

mutual

/-- The term of an expression. -/
def lower (ws : Workspace) : Expr → Lower BitVector
  | .literal l => return ⟨BitVector.constantBits l.raw l.width, l.signed⟩
  | .field f => fieldTerm ws f
  | .binary op lhs rhs => do
    let a ← lower ws lhs
    let b ← lower ws rhs
    solving (Solver.apply op a b)
  | .bit base index => do
    let a ← lower ws base
    let i ← lower ws index
    selectBit a i
  | .slice base high low => do
    let a ← lower ws base
    let high ← bound ws high (← lower ws high)
    let low ← bound ws low (← lower ws low)
    selectSlice a high low
  | .inside value ranges => do
    let a ← lower ws value
    lowerRanges ws a none ranges

/-- The term that holds where a value lies in a range. -/
def lowerRange (ws : Workspace) (value : BitVector) : Range → Lower BitVector
  | .point point => do
    let p ← lower ws point
    solving (Solver.apply .eq value p)
  | .interval low high => do
    let l ← lower ws low
    let h ← lower ws high
    let above ← solving (Solver.apply .ge value l)
    let below ← solving (Solver.apply .le value h)
    Lowering.and above below

/-- The term that holds where a value lies in one of the ranges, or where the
test so far holds. -/
def lowerRanges (ws : Workspace) (value : BitVector) (sofar : Option BitVector) :
    Ranges → Lower BitVector
  | .single range => do
    let term ← lowerRange ws value range
    extend sofar term
  | .cons range rest => do
    let term ← lowerRange ws value range
    let sofar ← extend sofar term
    lowerRanges ws value (some sofar) rest

end

/-- The conjunction of some constraints, from the left. -/
def lowerAll (ws : Workspace) : List Expr → BitVector → Lower BitVector
  | [], sofar => return sofar
  | e :: rest, sofar => do
    let term ← lower ws e
    let sofar ← Lowering.and sofar term
    lowerAll ws rest sofar

/-- The conjunction of a scope. -/
def lowerScope (ws : Workspace) (scope : Scope) : Lower BitVector :=
  lowerAll ws scope.constraints constantTrue

end Lowering

end Stimulus

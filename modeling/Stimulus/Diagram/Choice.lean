import Stimulus.Diagram.Store

/-!
# Case splits

`choose f g h` is the function that is `g` where `f` holds and `h` elsewhere.
All connectives are case splits with constants or complements.

A case split is first reduced (`Triple.reduce`): constants, equal branches and
branches that repeat the test are settled at once, and the rest is brought to
the form in which neither the test nor the first branch is complemented. What
remains is split on the topmost variable of the three functions, false side
first. A case split that comes up again on the way to its own answer never gets
one, so the depth is bounded by the number of triples of edges.
-/

namespace Stimulus.Diagram

/-- What reducing a case split leaves: an answer, or a case split whose answer,
complemented if `negated`, is the wanted one. -/
inductive Reduction where
  | settled (e : Edge)
  | pending (t : Triple) (negated : Bool)
deriving DecidableEq

/-- A branch that repeats the test or its complement is constant on its side:
`same` for the test itself and `opposite` for the complement. -/
def Triple.sharpen (test side same opposite : Edge) : Edge :=
  if side = test then same else if side = -test then opposite else side

/-- The form of a case split in which neither the test nor the first branch is
complemented. -/
def Triple.orient (t : Triple) : Reduction :=
  let u := if t.test.isNegated then Triple.mk (-t.test) t.no t.yes else t
  if u.yes.isNegated then .pending ⟨u.test, -u.yes, -u.no⟩ true else .pending u false

/-- The rules that settle a case split without looking at any node. -/
def Triple.reduce (t : Triple) : Reduction :=
  let f := t.test
  if f = .one then .settled t.yes
  else if f = .zero then .settled t.no
  else
    let g := Triple.sharpen f t.yes .one .zero
    let h := Triple.sharpen f t.no .zero .one
    if g = h then .settled g
    else if g = .one ∧ h = .zero then .settled f
    else if g = .zero ∧ h = .one then .settled (-f)
    else Triple.orient ⟨f, g, h⟩

/-- Case splits that are settled without the complement of the test: on a
constant, between equal branches, and those that give back the test itself or
the constant true. -/
def Triple.isPlain (t : Triple) : Bool :=
  t.test.isTerminal || t.yes == t.no || (t.yes == .one && t.no == .zero) ||
    (t.yes == t.test && t.no.isTerminal)

/-- A check that the test of a case split has a complement where it needs one. -/
def Store.checkTest (s : Store) (t : Triple) : Except Fault Unit :=
  if t.isPlain then .ok () else discard (s.complement t.test)

/-- The topmost level of the three functions. A level of the terminal means
that nothing is left to split on. -/
def Store.top (s : Store) (t : Triple) : Except Fault Nat := do
  let m := min (← s.level t.test) (min (← s.level t.yes) (← s.level t.no))
  if m = lastVariable then
    throw .exhausted
  return m

/-- The case splits on the false side and on the true side of a variable. -/
def Store.split (s : Store) (t : Triple) (v : Nat) : Except Fault (Triple × Triple) := do
  let f ← s.cofactors t.test v
  let g ← s.cofactors t.yes v
  let h ← s.cofactors t.no v
  return (⟨f.1, g.1, h.1⟩, ⟨f.2, g.2, h.2⟩)

/-- The answer to a case split, at most `fuel` splits deep. -/
def chooseWithin : Nat → Triple → Build Edge
  | 0, _ => throw .endless
  | fuel + 1, t => do
    ask (·.checkTest t)
    match t.reduce with
    | .settled e => return e
    | .pending u negated =>
      match ← remembered u with
      | some e => return if negated then -e else e
      | none =>
        let v ← ask (·.top u)
        let sides ← ask (·.split u v)
        let low ← chooseWithin fuel sides.1
        let high ← chooseWithin fuel sides.2
        let e ← branch v low high
        remember u e
        return if negated then -e else e

/-- The function that is `g` where `f` holds and `h` elsewhere. -/
def choose (f g h : Edge) : Build Edge := do
  let edges := 2 * (← get).nodes.size
  chooseWithin (edges * edges * edges) ⟨f, g, h⟩

/-- Conjunction. -/
def conj (f g : Edge) : Build Edge := choose f g .zero

/-- Disjunction. -/
def disj (f g : Edge) : Build Edge := choose f .one g

/-- Exclusive disjunction. -/
def differ (f g : Edge) : Build Edge := do
  choose f (← complement g) g

/-- Equivalence. -/
def agree (f g : Edge) : Build Edge := do
  choose f g (← complement g)

/-- Conjunction of a list, from the left. -/
def conjAll (fs : List Edge) : Build Edge := fs.foldlM conj .one

/-- Disjunction of a list, from the left. -/
def disjAll (fs : List Edge) : Build Edge := fs.foldlM disj .zero

end Stimulus.Diagram

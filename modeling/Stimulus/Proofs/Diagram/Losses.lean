import Stimulus.Proofs.Diagram.Build

/-!
# Losses of the computed table

The computed table may lose any of its entries at any time (`Loss`). A lossy case
split (`chooseLosing`) goes as a case split goes, but before each look at the table
some of it gets lost; which part depends on the way to the case split at hand.
Nothing else looks at the table, so all losses on the way to an answer come to this.
A store that loses entries stays valid (`Store.Valid.lose`).
-/

set_option autoImplicit false

namespace Stimulus.Diagram

/-- The table that remembers the answers to case splits. -/
abbrev Table := Std.TreeMap Triple Edge Triple.compare

/-- What is left of a table: some of its entries, and nothing else. -/
structure Loss where
  rest : Table → Table
  sub : ∀ (table : Table) (c : Triple) (e : Edge), (rest table)[c]? = some e → table[c]? = some e

namespace Loss

/-- Nothing gets lost. -/
def none : Loss := ⟨id, fun _ _ _ h => h⟩

/-- All entries get lost except those of some case splits. -/
def keeping (keep : Triple → Bool) : Loss where
  rest table := table.filter fun c _ => keep c
  sub table c e h := by
    rw [Std.TreeMap.getElem?_filter, Option.pfilter_eq_some_iff] at h
    exact h.1

/-- The table is emptied. -/
def all : Loss := keeping fun _ => false

end Loss

/-- The store after a loss. -/
def Store.lose (s : Store) (l : Loss) : Store := { s with computed := l.rest s.computed }

/-- The loss of some entries. -/
def forget (l : Loss) : Build Unit := modify (·.lose l)

/-- The answer to a case split, at most `fuel` splits deep, with a loss before each look at the
table. The losses are given by the sides on the way to the look. -/
def chooseLosing : (losses : List Bool → Loss) → Nat → Triple → Build Edge
  | _, 0, _ => throw .endless
  | losses, fuel + 1, c => do
    ask (·.checkTest c)
    match c.reduce with
    | .settled e => return e
    | .pending u negated =>
      forget (losses [])
      match ← remembered u with
      | some e => return if negated then -e else e
      | none =>
        let v ← ask (·.top u)
        let sides ← ask (·.split u v)
        let low ← chooseLosing (fun way => losses (false :: way)) fuel sides.1
        let high ← chooseLosing (fun way => losses (true :: way)) fuel sides.2
        let e ← branch v low high
        remember u e
        return if negated then -e else e

theorem forget_none_bind {α : Type} (k : Unit → Build α) : (forget .none >>= k) = k () := rfl

/-- Without losses a case split is answered as usual. -/
theorem chooseLosing_none : ∀ (fuel : Nat) (c : Triple),
    chooseLosing (fun _ => .none) fuel c = chooseWithin fuel c := by
  intro fuel
  induction fuel with
  | zero => exact fun _ => rfl
  | succ fuel ih =>
    intro c
    simp only [chooseLosing, forget_none_bind, ih]
    rfl

namespace Store

variable {s : Store}

theorem sameNodes_lose (s : Store) (l : Loss) : s.SameNodes (s.lose l) := ⟨rfl, rfl, rfl⟩

/-- A store that forgets answers stays valid. -/
theorem Valid.lose (hs : s.Valid) (l : Loss) : (s.lose l).Valid where
  reduced := (s.sameNodes_lose l).reduced hs.reduced
  size_le := hs.size_le
  computed c e h :=
    (hs.computed c e (l.sub s.computed c e h)).grow hs.reduced (s.sameNodes_lose l).growsTo

/-- A loss, and then the rest on the store that is left. -/
theorem Gives.forget_bind {α : Type} {l : Loss} {k : Unit → Build α} {R : α → Store → Prop}
    (hk : (s.lose l).Gives (k ()) R) : s.Gives (forget l >>= k) R :=
  hk.of_eq (s.sameNodes_lose l).growsTo rfl rfl rfl

end Store

end Stimulus.Diagram

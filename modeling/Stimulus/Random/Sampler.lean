import Stimulus.Random.Source

/-!
# Samplers

A sampler describes a random choice without a source of randomness: it asks for
fair truth values and for numbers below a bound, and goes on with the answers.
`run` answers from a source of draws. The same description can be read with ideal
answers, which is what its distribution is.
-/

namespace Stimulus

/-- Random choices that end in a value of type `α`. -/
inductive Sampler (α : Type) where
  /-- The end of the choices. -/
  | done (a : α)
  /-- A fair truth value. -/
  | flip (next : Bool → Sampler α)
  /-- A number below a positive bound, all equally likely. -/
  | pick (bound : Nat) (next : Nat → Sampler α)

namespace Sampler

variable {α β : Type}

/-- One sampler after another. -/
protected def bind : Sampler α → (α → Sampler β) → Sampler β
  | done a, f => f a
  | flip next, f => flip fun b => (next b).bind f
  | pick bound next, f => pick bound fun x => (next x).bind f

instance : Monad Sampler where
  pure := done
  bind := Sampler.bind

/-- A single number below `bound`. -/
def numberBelow (bound : Nat) : Sampler Nat := pick bound done

/-- `n` more truth values after those that are `taken`, the last of which stands
first. -/
def coinsAfter : (n : Nat) → (taken : List Bool) → Sampler (List Bool)
  | 0, taken => done taken.reverse
  | n + 1, taken => flip fun b => coinsAfter n (b :: taken)

/-- `n` truth values. -/
def coins (n : Nat) : Sampler (List Bool) := coinsAfter n []

/-- The value of a sampler whose questions are answered by a source. -/
def run : Sampler α → Source → α × Source
  | done a, g => (a, g)
  | flip next, g =>
    let (b, g) := g.flip
    (next b).run g
  | pick bound next, g =>
    let (x, g) := g.below bound
    (next x).run g

end Sampler

end Stimulus

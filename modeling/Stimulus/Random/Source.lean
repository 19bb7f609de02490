import Stimulus.Random.Keystream

/-!
# Sources of draws

A source answers two questions, with a truth value and with a number below a bound.
Its answers may depend on its position in any way; the one law is that a number is
below the bound that was asked for. The source of a seed reads its keystream.
-/

namespace Stimulus

/-- A source of draws: where it stands, and what it answers there and goes on to. -/
structure Source where
  position : Keystream
  coin : Keystream → Bool × Keystream
  number : Nat → Keystream → Nat × Keystream
  number_lt : ∀ {bound : Nat}, 0 < bound → ∀ g, (number bound g).1 < bound

namespace Source

/-- The source that is reproducible from a seed. -/
def ofSeed (seed : UInt64) : Source :=
  ⟨.ofSeed seed, Keystream.flip, Keystream.below, Keystream.below_lt⟩

/-- A truth value. -/
def flip (g : Source) : Bool × Source :=
  let (b, position) := g.coin g.position
  (b, { g with position := position })

/-- A number below `bound`. -/
def below (bound : Nat) (g : Source) : Nat × Source :=
  let (x, position) := g.number bound g.position
  (x, { g with position := position })

theorem below_lt {bound : Nat} (hbound : 0 < bound) (g : Source) : (g.below bound).1 < bound :=
  g.number_lt hbound g.position

end Source

end Stimulus

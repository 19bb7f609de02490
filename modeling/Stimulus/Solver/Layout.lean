/-!
# Variable layouts

Several terms that are allocated together share out consecutive variables. In
the sequential layout each term takes a run of variables of its own. In the
interleaved layout the bits of equal significance stand together: bit `i` of
every term comes before bit `i + 1` of any of them, which keeps the diagrams of
comparisons and sums linear in the width.
-/

namespace Stimulus

/-- Orders in which terms that are allocated together take their variables. -/
inductive Layout where
  | interleaved
  | sequential
deriving DecidableEq

end Stimulus

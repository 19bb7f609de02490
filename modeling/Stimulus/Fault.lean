/-!
# Faults

A fault says that an operation was asked for something outside its domain: an
edge that leads nowhere, vectors of different widths, a variable that the count
does not cover. A caller who keeps to the rules of the library never meets one.
Wrong declarations and wrong constraints are not faults but errors, and they
live in `Stimulus.Error`. The exception is `storageExhausted`, which a legal
request meets where the diagrams outgrow the storage.
-/

namespace Stimulus

/-- Requests outside an operation's domain. -/
inductive Fault where
  /-- More storage was asked for than an index can address. -/
  | capacity (bits : Nat)
  /-- A new node for which no index is left. -/
  | storageExhausted
  /-- A variable number outside the range that an operation knows. -/
  | badVariable (number : Nat)
  /-- An edge to an index that holds no node. -/
  | dangling (index : Nat)
  /-- Cofactors at a variable that the top of the edge already lies below. -/
  | belowTop (number : Nat)
  /-- A case split with no variable left to split on. -/
  | exhausted
  /-- A walk that does not come to an end. -/
  | endless
  /-- A diagram over variables beyond the ones that are counted. -/
  | uncounted
  /-- A random choice among nothing. -/
  | emptyChoice
  /-- A position at which no term stands. -/
  | noTerm (position : Nat)
  /-- A bit-vector without bits. -/
  | emptyVector
  /-- Two bit-vectors of different widths. -/
  | widths (left right : Nat)
  /-- Bits asked for that a vector does not have. -/
  | bits (high low width : Nat)
deriving DecidableEq

end Stimulus

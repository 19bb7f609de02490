import Stimulus.Error

/-!
# Changes in place

A computation that changes a state in place and may fail on the way. Nothing
takes back what it has changed by then: `perform` gives the state after the
computation, whatever the result is. Whether a failure leaves a trace is a
property of each computation and does not follow from its type. `completed` is
for callers that have no use for the state after a failure.
-/

namespace Stimulus

/-- Computations that change a state in place and may fail. -/
abbrev InPlace (σ : Type) := ExceptT Error (StateM σ)

namespace InPlace

variable {σ α : Type}

/-- A result that does not depend on the state. -/
def ofExcept (r : Except Error α) : InPlace σ α := ExceptT.mk (pure r)

/-- The result and the state after the computation, be it completed or not. -/
def perform (x : InPlace σ α) (s : σ) : Except Error α × σ := x.run.run s

/-- The result of a completed computation and the state after it. -/
def completed (x : InPlace σ α) (s : σ) : Except Error (α × σ) :=
  match x.perform s with
  | (.ok a, s) => .ok (a, s)
  | (.error e, _) => .error e

@[simp] theorem perform_pure (a : α) (s : σ) : (pure a : InPlace σ α).perform s = (.ok a, s) := rfl

@[simp] theorem perform_throw (e : Error) (s : σ) :
    (throw e : InPlace σ α).perform s = (.error e, s) := rfl

@[simp] theorem perform_ofExcept (r : Except Error α) (s : σ) :
    (ofExcept r).perform s = (r, s) := rfl

@[simp] theorem perform_get (s : σ) : (get : InPlace σ σ).perform s = (.ok s, s) := rfl

@[simp] theorem perform_set (t s : σ) : (set t : InPlace σ PUnit).perform s = (.ok (), t) := rfl

@[simp] theorem perform_modify (f : σ → σ) (s : σ) :
    (modify f : InPlace σ PUnit).perform s = (.ok (), f s) := rfl

/-- The second computation starts from the state that the first one leaves, if that one is
completed. -/
@[simp] theorem perform_bind {β : Type} (x : InPlace σ α) (k : α → InPlace σ β) (s : σ) :
    (x >>= k).perform s =
      match x.perform s with
      | (.ok a, s) => (k a).perform s
      | (.error e, s) => (.error e, s) := by
  simp only [perform, ExceptT.run_bind, StateT.run_bind]
  rcases x.run.run s with ⟨_ | _, _⟩ <;> rfl

@[simp] theorem perform_map {β : Type} (f : α → β) (x : InPlace σ α) (s : σ) :
    (f <$> x).perform s =
      match x.perform s with
      | (.ok a, s) => (.ok (f a), s)
      | (.error e, s) => (.error e, s) := by
  simp only [← bind_pure_comp, perform_bind, perform_pure]

end InPlace

end Stimulus

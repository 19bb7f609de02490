import Stimulus.Proofs.Lowering.Basic
import Stimulus.Proofs.Lowering.Steps

/-!
# Lowering draws nothing

A step on a solver is quiet if it neither looks at the source of draws nor changes
it: with another source it gives the same result and leaves the other source behind
(`Solver.Quiet`, `Lowering.Quiet`). All steps of lowering are quiet
(`Lowering.inherited_quiet`), so what is drawn for a formula does not depend on the
position in the source.
-/

set_option autoImplicit false

namespace Stimulus

open Diagram

/-! ## Steps of the solver -/

namespace Solver

/-- The solver with another source of draws. -/
def reseed (s : Solver) (g : Source) : Solver := { s with source := g }

/-- The computation neither looks at the source nor changes it. -/
def Quiet {α : Type} (x : Solving α) : Prop :=
  ∀ s g, x (s.reseed g) = (x s).map fun p => (p.1, p.2.reseed g)

variable {α β : Type} {x : Solving α} {k : α → Solving β}

theorem quiet_pure (a : α) : Quiet (pure a) := fun _ _ => rfl

theorem Quiet.bind (hx : Quiet x) (hk : ∀ a, Quiet (k a)) : Quiet (x >>= k) := by
  intro s g
  show (x (s.reseed g) >>= fun p => k p.1 p.2) = (x s >>= fun p => k p.1 p.2).map _
  rw [hx s g]
  cases x s with
  | error fault => rfl
  | ok p => exact hk p.1 p.2 g

theorem quiet_get_bind {k : Solver → Solving β} (hk : ∀ s, Quiet (k s))
    (hsame : ∀ s g, k (s.reseed g) = k s) : Quiet (get >>= k) := by
  intro s g
  show k (s.reseed g) (s.reseed g) = (k s s).map _
  rw [hsame]
  exact hk s s g

theorem quiet_lift (y : Except Fault α) : Quiet (liftM y) := by
  intro s g
  cases y <;> rfl

/-- A computation on the store is quiet. -/
theorem quiet_build (y : Build α) : Quiet (build y) := by
  intro s g
  rw [build_eq, build_eq]
  show (y s.store).map _ = _
  cases y s.store <;> rfl

/-- **Steps of the solver are quiet.** -/
theorem inherited_quiet : Inherited @Quiet where
  pure := quiet_pure
  bind := Quiet.bind
  lift := quiet_lift
  build := quiet_build
  advance _ := fun _ _ => rfl
  look := quiet_get_bind

end Solver

/-! ## Steps of lowering -/

namespace Lowering

/-- The lowering with another source of draws. -/
def reseed (l : Lowering) (g : Source) : Lowering := ⟨l.solver.reseed g, l.table⟩

/-- The step neither looks at the source nor changes it. -/
def Quiet {α : Type} (x : Lower α) : Prop :=
  ∀ l g, x.run.run (l.reseed g) = (x.run.run l).map fun p => (p.1, p.2.reseed g)

variable {α β : Type} {x : Lower α} {k : α → Lower β}

theorem quiet_pure (a : α) : Quiet (pure a) := fun _ _ => rfl

theorem quiet_throw (e : Error) : Quiet (throw e : Lower α) := fun _ _ => rfl

theorem Quiet.bind (hx : Quiet x) (hk : ∀ a, Quiet (k a)) : Quiet (x >>= k) := by
  intro l g
  rw [ExceptT.run_bind, StateT.run_bind, StateT.run_bind, hx l g]
  cases x.run.run l with
  | error fault => rfl
  | ok p =>
    obtain ⟨r, l'⟩ := p
    cases r with
    | error e => rfl
    | ok a => exact hk a l' g

theorem quiet_get_bind {k : Lowering → Lower β} (hk : ∀ l, Quiet (k l))
    (hsame : ∀ l g, k (l.reseed g) = k l) : Quiet (get >>= k) := by
  intro l g
  show (k (l.reseed g)).run.run (l.reseed g) = ((k l).run.run l).map _
  rw [hsame]
  exact hk l l g

theorem quiet_solving {y : Solving α} (hy : Solver.Quiet y) : Quiet (solving y) := by
  intro l g
  rw [run_solving_eq, run_solving_eq]
  show (y (l.solver.reseed g)).map _ = _
  rw [hy l.solver g]
  cases y l.solver <;> rfl

theorem quiet_allocate (more : List (Field × BitVector)) : Quiet (allocate more) :=
  fun _ _ => rfl

/-- **Lowering is quiet.** -/
theorem inherited_quiet : Inherited @Solver.Quiet @Quiet where
  solver := Solver.inherited_quiet
  solving := quiet_solving
  pure := quiet_pure
  bind := Quiet.bind
  unbound := quiet_throw _
  mismatch _ := quiet_throw _
  allocate := quiet_allocate
  look := quiet_get_bind

end Lowering

end Stimulus

import Stimulus.Proofs.Expr.Shape
import Stimulus.Proofs.Randomizer.Calls

/-!
# Failures leave no trace

A call depends on the randomizer only by its solver after a reset, which is the
layout and the source of draws (`Randomizer.randomizeWith_congr`). No step keeps less
than that, except for drawing a solution that is there, and lowering fails with two
kinds of errors only (`Lowering.inherited_orderly`). So a call that fails leaves
fields and source as they were (`Randomizer.randomizeWith_of_error`), and a session
goes the same way without its failing calls
(`Randomizer.failures_leave_no_trace`).
-/

set_option autoImplicit false

namespace Stimulus

open Diagram Store

/-! ## Steps of the solver -/

namespace Solver

/-- The computation does not change what a reset keeps. -/
def Steady {α : Type} (x : Solving α) : Prop :=
  ∀ s a s', x s = .ok (a, s') → s'.reset = s.reset

variable {α β : Type} {x : Solving α} {k : α → Solving β} {s s' : Solver} {t : BitVector}

theorem steady_pure (a : α) : Steady (pure a) := by
  intro s b s' h
  cases h
  rfl

theorem Steady.bind (hx : Steady x) (hk : ∀ a, Steady (k a)) : Steady (x >>= k) := by
  intro s b s'' h
  obtain ⟨⟨a, s'⟩, hr, hr'⟩ := exists_of_bind_eq_ok (k := fun p : α × Solver => k p.1 p.2) h
  rw [hk a s' b s'' hr', hx s a s' hr]

theorem steady_get_bind {k : Solver → Solving β} (hk : ∀ s, Steady (k s)) :
    Steady (get >>= k) := fun s => hk s s

theorem steady_advance (n : Nat) :
    Steady (modify fun s : Solver => { s with numVars := s.numVars + n }) := by
  intro s a s' h
  cases h
  rfl

theorem steady_lift (y : Except Fault α) : Steady (liftM y) := by
  intro s a s' h
  cases y with
  | error fault => cases h
  | ok b =>
    cases h
    rfl

theorem steady_build (y : Build α) : Steady (build y) := by
  intro s a s' h
  obtain ⟨store, -, rfl⟩ := exists_of_build h
  rfl

/-- **Steps of the solver that draw nothing are steady.** -/
theorem inherited_steady : Inherited @Steady where
  pure := steady_pure
  bind := Steady.bind
  lift := steady_lift
  build := steady_build
  advance := steady_advance
  look hk _ := steady_get_bind hk

/-- A draw that finds nothing has asked nothing. -/
theorem run_sample_none {store : Store} {e : Edge} {n : Nat} {g g' : Source}
    (h : (store.sample e n).run.run g = (.ok none, g')) : g' = g := by
  by_cases hzero : e = .zero
  · rw [hzero, sample_zero] at h
    cases h
    rfl
  · -- the walk of any other edge ends with values or with a fault
    rw [run_sample hzero, Sampler.run_bind, Sampler.run_bind] at h
    obtain ⟨hnone, -⟩ := Prod.mk.inj h
    generalize (Sampler.run _ _).1 = r at hnone
    cases r <;> cases hnone

/-- Finding that there is no solution takes nothing from the source. -/
theorem reset_of_solve_eq_none (h : solve t s = .ok (none, s')) : s'.reset = s.reset := by
  cases hb : build t.truth s with
  | error fault =>
    rw [show solve t s = _ from solve_of_build_error hb] at h
    cases h
  | ok p =>
    obtain ⟨e, s₁⟩ := p
    rw [show solve t s = _ from solve_of_build hb] at h
    cases hd : (s₁.store.sample e s₁.numVars).run.run s₁.source with
    | mk values source =>
      rw [hd] at h
      cases values with
      | error fault => cases h
      | ok values =>
        cases values with
        | some values => cases h
        | none =>
          cases h
          rw [run_sample_none hd]
          exact steady_build _ s e s₁ hb

end Solver

/-! ## Steps of lowering -/

namespace Lowering

/-- The step does not change what a reset of the solver keeps, and its errors are an unbound field
or widths that do not fit. -/
def Orderly {α : Type} (x : Lower α) : Prop :=
  ∀ l r l', x.run.run l = .ok (r, l') → l'.solver.reset = l.solver.reset ∧
    ∀ e, r = .error e → e = .unboundField ∨ ∃ cause, e = .widthMismatch cause

variable {α β : Type} {x : Lower α} {k : α → Lower β}

theorem orderly_pure (a : α) : Orderly (pure a) := by
  intro l r l' h
  cases h
  exact ⟨rfl, fun e he => nomatch he⟩

theorem orderly_throw {e : Error} (he : e = .unboundField ∨ ∃ cause, e = .widthMismatch cause) :
    Orderly (throw e : Lower α) := by
  intro l r l' h
  cases h
  refine ⟨rfl, fun e' he' => ?_⟩
  cases he'
  exact he

theorem Orderly.bind (hx : Orderly x) (hk : ∀ a, Orderly (k a)) : Orderly (x >>= k) := by
  intro l r l'' h
  rcases run_bind_cases h with ⟨e, hr, rfl⟩ | ⟨a, l', hr, hr'⟩
  · obtain ⟨hreset, herror⟩ := hx l _ l'' hr
    exact ⟨hreset, fun e' he' => herror e' (by cases he'; rfl)⟩
  · obtain ⟨hreset, -⟩ := hx l _ l' hr
    obtain ⟨hreset', herror'⟩ := hk a l' r l'' hr'
    exact ⟨hreset'.trans hreset, herror'⟩

theorem orderly_get_bind {k : Lowering → Lower β} (hk : ∀ l, Orderly (k l)) :
    Orderly (get >>= k) := fun l => hk l l

theorem orderly_solving {y : Solving α} (hy : Solver.Steady y) : Orderly (solving y) := by
  intro l r l' h
  obtain ⟨a, solver, hr, rfl, rfl⟩ := run_solving_eq_ok h
  exact ⟨hy l.solver a solver hr, fun e he => nomatch he⟩

theorem orderly_allocate (more : List (Field × BitVector)) : Orderly (allocate more) := by
  intro l r l' h
  cases h
  exact ⟨rfl, fun e he => nomatch he⟩

/-- **Lowering is orderly.** -/
theorem inherited_orderly : Inherited @Solver.Steady @Orderly where
  solver := Solver.inherited_steady
  solving := orderly_solving
  pure := orderly_pure
  bind := Orderly.bind
  unbound := orderly_throw (Or.inl rfl)
  mismatch c := orderly_throw (Or.inr ⟨c, rfl⟩)
  allocate := orderly_allocate
  look hk _ := orderly_get_bind hk

end Lowering

/-! ## Failing calls -/

namespace Randomizer

open Lowering

variable {r r' : Randomizer} {ws : Workspace} {m : Model} {inline : Scope} {o : Outcome} {e : Error}
  {os : List Outcome}

/-- A call depends on the randomizer only by its solver after a reset. -/
theorem randomizeWith_congr (h : r.solver.reset = r'.solver.reset) (ws : Workspace) (m : Model)
    (inline : Scope) : r.randomizeWith ws m inline = r'.randomizeWith ws m inline := by
  unfold randomizeWith
  rw [h]

/-- **A call that fails leaves everything as it was.** -/
theorem randomizeWith_of_error (h : r.randomizeWith ws m inline = .ok o)
    (he : o.result = .error e) :
    (e = .unboundField ∨ (∃ cause, e = .widthMismatch cause) ∨ e = .unsatisfiable) ∧
      o.workspace = ws ∧ o.randomizer.solver.reset = r.solver.reset := by
  rcases randomizeWith_cases h with ⟨e', l, hr, rfl⟩ | ⟨t, l, s, hr, hsolve, rfl⟩ |
    ⟨t, l, solution, s, ws', -, -, -, rfl⟩
  · -- lowering fails before anything is drawn
    cases he
    obtain ⟨hreset, herror⟩ := inherited_formula inherited_orderly m inline _ _ l hr
    exact ⟨(herror e rfl).imp_right Or.inl, rfl, hreset⟩
  · cases he
    obtain ⟨hreset, -⟩ := inherited_formula inherited_orderly m inline _ _ l hr
    exact ⟨Or.inr (Or.inr rfl), rfl, (Solver.reset_of_solve_eq_none hsolve).trans hreset⟩
  · cases he

/-! ## Sessions -/

/-- Calls with their models and constraints, one after another. -/
def session : List (Model × Scope) → Randomizer → Workspace → Except Fault (List Outcome)
  | [], _, _ => .ok []
  | (m, inline) :: rest, r, ws => do
    let o ← r.randomizeWith ws m inline
    return o :: (← session rest o.randomizer o.workspace)

/-- Calls that end without an error. -/
def Outcome.succeeded (o : Outcome) : Bool := o.result.isOk

/-- The calls of a session that succeed. -/
def successes (calls : List (Model × Scope)) (os : List Outcome) : List (Model × Scope) :=
  ((calls.zip os).filter fun p => p.2.succeeded).map Prod.fst

theorem session_congr (h : r.solver.reset = r'.solver.reset) (calls : List (Model × Scope))
    (ws : Workspace) : session calls r ws = session calls r' ws := by
  cases calls with
  | nil => rfl
  | cons c rest =>
    unfold session
    rw [randomizeWith_congr h]

/-- A session without its failing calls has the outcomes of the others. -/
theorem session_successes : ∀ (calls : List (Model × Scope)) (r : Randomizer) (ws : Workspace)
    (os : List Outcome), session calls r ws = .ok os →
    session (successes calls os) r ws = .ok (os.filter Outcome.succeeded) := by
  intro calls
  induction calls with
  | nil =>
    intro r ws os h
    cases h
    rfl
  | cons c rest ih =>
    intro r ws os h
    obtain ⟨o, hcall, h⟩ := exists_of_bind_eq_ok h
    obtain ⟨os', hrest, h⟩ := exists_of_bind_eq_ok h
    cases h
    have hrest := ih _ _ _ hrest
    unfold successes
    rw [List.zip_cons_cons, List.filter_cons, List.filter_cons]
    cases ho : o.succeeded with
    | true =>
      show (r.randomizeWith ws c.1 c.2 >>= fun o => _) = _
      rw [hcall]
      show (session (successes rest os') o.randomizer o.workspace >>= fun os => _) = _
      rw [hrest]
      rfl
    | false =>
      -- the failing call hands on what it was given
      show session (successes rest os') r ws = _
      cases hresult : o.result with
      | ok u =>
        unfold Outcome.succeeded at ho
        rw [hresult] at ho
        cases ho
      | error e =>
        obtain ⟨-, hws, hreset⟩ := randomizeWith_of_error hcall hresult
        rw [hws, session_congr hreset] at hrest
        exact hrest

/-- **Failures leave no trace.** A call that ends with an error ends with one of three kinds, has
changed no field and has taken nothing from the source. A session without its failing calls has
the outcomes of the others: the same results, the same values and the same draws. -/
theorem failures_leave_no_trace :
    (∀ (r : Randomizer) (ws : Workspace) (m : Model) (inline : Scope) (o : Outcome) (e : Error),
      r.randomizeWith ws m inline = .ok o → o.result = .error e →
        (e = .unboundField ∨ (∃ cause, e = .widthMismatch cause) ∨ e = .unsatisfiable) ∧
        o.workspace = ws ∧ o.randomizer.solver.source = r.solver.source) ∧
    ∀ (calls : List (Model × Scope)) (r : Randomizer) (ws : Workspace) (os : List Outcome),
      session calls r ws = .ok os →
        session (successes calls os) r ws = .ok (os.filter Outcome.succeeded) := by
  refine ⟨fun r ws m inline o e h he => ?_, session_successes⟩
  obtain ⟨hkind, hws, hreset⟩ := randomizeWith_of_error h he
  refine ⟨hkind, hws, ?_⟩
  show o.randomizer.solver.reset.source = r.solver.reset.source
  rw [hreset]

/-- A constraint that never holds. -/
def never : Expr := .literal ⟨0, 8, false, by decide, by decide, by decide⟩

/-- Of a call that cannot be satisfied and a call without constraints, the second one remains. -/
theorem never_leaves_no_trace : ∃ o₁ o₂,
    session [(⟨"m", [], []⟩, ⟨[never]⟩), (⟨"m", [], []⟩, .empty)] (ofSeed 7 .interleaved) .empty =
      .ok [o₁, o₂] ∧
    o₁.result = .error .unsatisfiable ∧ o₁.workspace = .empty ∧
    session [(⟨"m", [], []⟩, .empty)] (ofSeed 7 .interleaved) .empty = .ok [o₂] := by
  refine ⟨_, _, rfl, rfl, ?_, ?_⟩
  · exact (failures_leave_no_trace.1 (ofSeed 7 .interleaved) .empty ⟨"m", [], []⟩ ⟨[never]⟩ _ _
      rfl rfl).2.1
  · exact failures_leave_no_trace.2 [(⟨"m", [], []⟩, ⟨[never]⟩), (⟨"m", [], []⟩, .empty)]
      (ofSeed 7 .interleaved) .empty _ rfl

end Randomizer

end Stimulus

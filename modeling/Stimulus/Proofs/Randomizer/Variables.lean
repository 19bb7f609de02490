import Stimulus.Proofs.Lowering.Traversal
import Stimulus.Proofs.Randomizer.Calls

/-!
# The variables of a call

A call declares its fields first: those of the model and, after them, those that collecting the
leaves of the constraints gives. As lowering meets no other fields
(`Lowering.traverses_lower`), every variable is a bit of a declared field, whether the call succeeds
or fails (`Randomizer.numVars_of_randomizeWith`).

The main statement puts the two walks over a tree side by side
(`Lowering.Reached.traversals_agree`). A disagreement between them would not show in a single
answer, but in the order of the variables and in the number of solutions.
-/

set_option autoImplicit false

namespace Stimulus

open Diagram Store Lowering Quantity

/-! ## Drawing -/

/-- Drawing a solution takes no variable. -/
theorem Solver.numVars_of_solve {a : BitVector} {s s' : Solver} {x : Option Solution}
    (h : solve a s = .ok (x, s')) : s'.numVars = s.numVars := by
  cases hb : build a.truth s with
  | error fault =>
    rw [show solve a s = _ from solve_of_build_error hb] at h
    cases h
  | ok p =>
    obtain ⟨e, solver⟩ := p
    obtain ⟨store, -, rfl⟩ := exists_of_build hb
    rw [show solve a s = _ from solve_of_build hb] at h
    dsimp only at h
    split at h
    · cases h
    · cases h
      rfl

namespace Randomizer

variable {r : Randomizer} {ws : Workspace} {m : Model} {inline : Scope} {l l' : Lowering}
  {o : Outcome} {e : Error}

/-! ## The formula of a call -/

theorem traverses_lowerScopes : ∀ (scopes : List Scope) (sofar : BitVector) (l : Lowering),
    Traverses ws l (lowerScopes ws scopes sofar) (mentions scopes) := by
  intro scopes
  induction scopes with
  | nil => exact fun sofar l => traverses_pure sofar
  | cons s rest ih =>
    intro sofar l
    refine (traverses_lowerScope s l).bind fun t l₁ => ?_
    exact (traverses_build _).bind fun b l₂ => ih b l₂

/-- **Once its fields are declared, the formula of a call takes no more variables**, whether its
constraints lower or not. -/
theorem numVars_of_formula {x : Except Error BitVector}
    (hbound : ∀ f ∈ activeFields m inline, (ws.slot f).isBound = true)
    (hr : (formula ws m inline).run.run (.start r.solver.reset) = .ok (x, l)) :
    l.solver.numVars = ∑ f ∈ callFields m inline, (ws.slot f).width := by
  have hstart : (start r.solver.reset).Valid ws := valid_start (Solver.valid_reset r.solver)
  have hdeclared {l₁ : Lowering} (hg : (start r.solver.reset).GrowsTo ws l₁)
      (hfields : l₁.fields = Field.collect [] (activeFields m inline)) :
      l₁.solver.numVars = ∑ f ∈ callFields m inline, (ws.slot f).width := by
    rw [sum_callFields, ← hfields]
    exact hg.full rfl
  cases x with
  | ok t =>
    obtain ⟨-, hg, hfields, -⟩ := (leads_formula hstart m inline).of_run hr
    exact hdeclared hg hfields
  | error e =>
    rw [formula_eq] at hr
    rcases run_bind_cases hr with ⟨err, hconstraints, -⟩ | ⟨c, l₁, hconstraints, hrestrict⟩
    · rcases run_bind_cases hconstraints with ⟨err, hdeclare, -⟩ | ⟨_, l₁, hdeclare, hscopes⟩
      · exact absurd hdeclare (declare_ne_error hbound)
      · -- a constraint has failed, and all fields up to there had their terms
        obtain ⟨h₁, hg, hfields, -⟩ := (hstart.leads_declare _).of_run hdeclare
        obtain ⟨-, met, hfirst, -, hmet⟩ := traverses_lowerScopes _ _ l₁ h₁.indexed _ _ hscopes
        have hknown : ∀ f ∈ met, f ∈ l₁.fields := by
          intro f hf
          rw [hfields]
          exact Field.mem_collect.2 (Or.inr (mem_activeFields_of_mem_mentions (hfirst.subset hf)))
        rw [(hmet.unchanged hknown).2]
        exact hdeclared hg hfields
    · -- the restrictions never fail
      obtain ⟨h₁, -, -, hc, -⟩ := (leads_lowerConstraints hstart m inline).of_run hconstraints
      have hrun : (restrict ws m l₁.fields c).run.run l₁ = .ok (.error e, l) := hrestrict
      obtain ⟨t, hok, -⟩ :=
        (succeeds_restrict (m := m) l₁.fields l₁ c _ h₁ (fun f hf => hf) hc).of_run hrun
      cases hok

/-- A call ends with the variables of its formula, and an error of the formula is its error. -/
theorem exists_run_formula (h : r.randomizeWith ws m inline = .ok o) :
    ∃ x l, (formula ws m inline).run.run (.start r.solver.reset) = .ok (x, l) ∧
      o.randomizer.solver.numVars = l.solver.numVars ∧ ∀ e, x = .error e → o.result = .error e := by
  rcases randomizeWith_cases h with ⟨e, l, hr, rfl⟩ | ⟨t, l, s, hr, hsolve, rfl⟩ |
    ⟨t, l, solution, s, ws', hr, hsolve, -, rfl⟩
  · refine ⟨_, l, hr, rfl, ?_⟩
    rintro e' ⟨⟩
    rfl
  · refine ⟨_, l, hr, Solver.numVars_of_solve hsolve, ?_⟩
    rintro e ⟨⟩
  · refine ⟨_, l, hr, Solver.numVars_of_solve hsolve, ?_⟩
    rintro e ⟨⟩

/-- **The variables of a call are the bits of its fields**, however the call ends. A call with a
field that is not bound takes no variables. -/
theorem numVars_of_randomizeWith (h : r.randomizeWith ws m inline = .ok o) :
    ((∀ f ∈ activeFields m inline, (ws.slot f).isBound = true) →
      o.randomizer.solver.numVars = ∑ f ∈ callFields m inline, (ws.slot f).width) ∧
    ((∃ f ∈ activeFields m inline, (ws.slot f).isBound = false) →
      o.result = .error .unboundField ∧ o.randomizer.solver.numVars = 0) := by
  obtain ⟨x, l, hr, hnum, herror⟩ := exists_run_formula h
  refine ⟨?_, ?_⟩
  · intro hbound
    rw [hnum]
    exact numVars_of_formula hbound hr
  · rintro ⟨f, hf, hunbound⟩
    -- the declaration fails, so nothing is lowered
    have hrun : (formula ws m inline).run.run (.start r.solver.reset) =
        .ok (.error .unboundField, .start r.solver.reset) := by
      unfold formula
      exact run_bind_error (run_declare_of_unbound hf hunbound _)
    rw [hrun] at hr
    cases hr
    exact ⟨herror _ rfl, hnum⟩

end Randomizer

/-! ## Both walks -/

namespace Lowering

variable {ws : Workspace} {l l₁ : Lowering} {fs : List Field}

/-- The fields that a declaration has met have terms. -/
theorem Valid.mem_fields_of_declare (hl : l.Valid ws)
    (hr : (declare ws fs).run.run l = .ok (.ok (), l₁)) :
    l₁.Valid ws ∧ ∀ f ∈ fs, f ∈ l₁.fields := by
  obtain ⟨h₁, -, hfields, -⟩ := (hl.leads_declare fs).of_run hr
  refine ⟨h₁, ?_⟩
  intro f hf
  rw [hfields, Field.mem_collect]
  exact Or.inr hf

/-- **Collecting leaves and lowering meet the same fields in the same order.** On a fresh lowering,
the fields that have terms after an expression, or a scope, are those that collecting its leaves
gives, and after a failure some first ones of them. So when the collected fields were declared,
lowering allocates nothing and takes no variable, whether it succeeds or fails; and the variables of
a call are the bits of the fields that it declares. Lowering ends as long as it does not exceed the
storage. -/
theorem Reached.traversals_agree (h : Reached ws l) :
    (∀ e : Expr, e.fields.Nodup ∧
      ((∃ r l', (Lowering.lower ws e).run.run (start l.solver) = .ok (r, l')) ∨
        Exceeds (start l.solver) (Lowering.lower ws e).run) ∧
      ∀ r l', (Lowering.lower ws e).run.run (start l.solver) = .ok (r, l') →
        l'.fields <+: e.fields ∧ ∀ t, r = .ok t → l'.fields = e.fields) ∧
    (∀ s : Scope, s.fields.Nodup ∧ (∀ out f, f ∈ s.collectFields out ↔ f ∈ out ∨ f ∈ s.fields) ∧
      ((∃ r l', (lowerScope ws s).run.run (start l.solver) = .ok (r, l')) ∨
        Exceeds (start l.solver) (lowerScope ws s).run) ∧
      ∀ r l', (lowerScope ws s).run.run (start l.solver) = .ok (r, l') →
        l'.fields <+: s.fields ∧ ∀ t, r = .ok t → l'.fields = s.fields) ∧
    (∀ fs l₁, (Lowering.declare ws fs).run.run l = .ok (.ok (), l₁) →
      (∀ e : Expr, (∀ f ∈ e.fields, f ∈ fs) →
        (∃ r l₂, (Lowering.lower ws e).run.run l₁ = .ok (r, l₂) ∧ l₂.terms = l₁.terms ∧
          l₂.solver.numVars = l₁.solver.numVars) ∨ Exceeds l₁ (Lowering.lower ws e).run) ∧
      ∀ s : Scope, (∀ f ∈ s.fields, f ∈ fs) →
        (∃ r l₂, (lowerScope ws s).run.run l₁ = .ok (r, l₂) ∧ l₂.terms = l₁.terms ∧
          l₂.solver.numVars = l₁.solver.numVars) ∨ Exceeds l₁ (lowerScope ws s).run) ∧
    ∀ (r : Randomizer) (m : Model) (inline : Scope) (o : Randomizer.Outcome),
      r.randomizeWith ws m inline = .ok o →
      ((∀ f ∈ Randomizer.activeFields m inline, (ws.slot f).isBound = true) →
        o.randomizer.solver.numVars = ∑ f ∈ Randomizer.callFields m inline, (ws.slot f).width) ∧
      ((∃ f ∈ Randomizer.activeFields m inline, (ws.slot f).isBound = false) →
        o.result = .error .unboundField ∧ o.randomizer.solver.numVars = 0) := by
  have hl := h.valid
  have hlimit := h.sound.bounded
  have hstart : (start l.solver).Valid ws := valid_start hl.solver
  refine ⟨?_, ?_, ?_, ?_⟩
  · intro e
    refine ⟨Field.nodup_collect List.nodup_nil _,
      (leads_lower e _ hstart).run_or_exceeds hlimit, ?_⟩
    · intro r l'
      exact (traverses_lower e _).fields_of_start
  · intro s
    rw [s.fields_eq]
    refine ⟨Field.nodup_collect List.nodup_nil _, ?_,
      (hstart.leads_lowerScope s).run_or_exceeds hlimit, ?_⟩
    · intro out f
      rw [← s.fields_eq]
      exact Scope.mem_collectFields
    · intro r l'
      exact (traverses_lowerScope s _).fields_of_start
  · intro fs l₁ hr
    obtain ⟨h₁, hmem⟩ := hl.mem_fields_of_declare hr
    have hlimit₁ := (h.declare hr).sound.bounded
    refine ⟨?_, ?_⟩
    · intro e he
      have hknown : ∀ f ∈ e.mentions, f ∈ l₁.fields := by
        intro f hf
        apply hmem f (he f _)
        rw [e.fields_eq, Field.mem_collect]
        exact Or.inr hf
      have hleads := leads_lower e l₁ h₁
      refine (hleads.run_or_exceeds hlimit₁).imp_left fun ⟨r, l₂, hrun⟩ => ⟨r, l₂, hrun, ?_⟩
      exact (traverses_lower e l₁).unchanged h₁ hleads hknown hrun
    · intro s hs
      have hknown : ∀ f ∈ s.mentions, f ∈ l₁.fields := by
        intro f hf
        exact hmem f (hs f (Scope.mem_fields.2 hf))
      have hleads := h₁.leads_lowerScope s
      refine (hleads.run_or_exceeds hlimit₁).imp_left fun ⟨r, l₂, hrun⟩ => ⟨r, l₂, hrun, ?_⟩
      exact (traverses_lowerScope s l₁).unchanged h₁ hleads hknown hrun
  · intro r m inline o ho
    exact Randomizer.numVars_of_randomizeWith ho

/-- Bits of one field from the value of the other one upwards, which no diagram fixes. -/
def unsettled : Expr := .slice (.field ⟨1⟩) (.field ⟨1⟩) (.field ⟨0⟩)

/-- The upper bound fails before the lower one is met, so one of two fields gets a term. Once both
are declared, the failing expression and a scope that lowers take no variables, and neither does a
call that fails. -/
theorem unsettled_traversals_agree :
    (∃ e l', (Lowering.lower twoFields unsettled).run.run (start (.ofSeed 0 .interleaved)) =
        .ok (.error e, l') ∧ l'.fields = [⟨1⟩] ∧ [⟨1⟩] <+: unsettled.fields) ∧
    (∃ t l', (lowerScope twoFields apart).run.run (start (.ofSeed 0 .interleaved)) =
        .ok (.ok t, l') ∧ l'.fields = apart.fields) ∧
    (∃ l₁ r l₂, (Lowering.declare twoFields [⟨1⟩, ⟨0⟩]).run.run (start (.ofSeed 0 .interleaved)) =
        .ok (.ok (), l₁) ∧ (Lowering.lower twoFields unsettled).run.run l₁ = .ok (r, l₂) ∧
          l₂.terms = l₁.terms ∧ l₂.solver.numVars = l₁.solver.numVars) ∧
    ∃ o, (Randomizer.ofSeed 0 .interleaved).randomizeWith twoFields ⟨"m", [⟨0⟩], []⟩
        ⟨[unsettled]⟩ = .ok o ∧ o.result ≠ .ok () ∧ o.randomizer.solver.numVars =
          ∑ f ∈ Randomizer.callFields ⟨"m", [⟨0⟩], []⟩ ⟨[unsettled]⟩, (twoFields.slot f).width := by
  have hreached : Reached twoFields (start (.ofSeed 0 .interleaved)) := Reached.new
  obtain ⟨hlower, hscope, hdeclared, hcall⟩ := hreached.traversals_agree
  refine ⟨?_, ?_, ?_, ?_⟩
  · have hr : ∃ e l', (Lowering.lower twoFields unsettled).run.run
        (start (.ofSeed 0 .interleaved)) = Except.ok (.error e, l') ∧ l'.fields = [⟨1⟩] :=
      ⟨_, _, rfl, rfl⟩
    obtain ⟨e, l', hr, hfields⟩ := hr
    obtain ⟨hfirst, -⟩ := (hlower unsettled).2.2 _ _ hr
    exact ⟨e, l', hr, hfields, hfields ▸ hfirst⟩
  · have hr : ∃ t l', (lowerScope twoFields apart).run.run
        (start (.ofSeed 0 .interleaved)) = Except.ok (.ok t, l') := ⟨_, _, rfl⟩
    obtain ⟨t, l', hr⟩ := hr
    exact ⟨t, l', hr, ((hscope apart).2.2.2 _ _ hr).2 t rfl⟩
  · have hr : ∃ l₁, (Lowering.declare twoFields [⟨1⟩, ⟨0⟩]).run.run
        (start (.ofSeed 0 .interleaved)) = Except.ok (.ok (), l₁) := ⟨_, rfl⟩
    obtain ⟨l₁, hr⟩ := hr
    have hends : ((Lowering.lower twoFields unsettled).run l₁).isOk = true := by
      cases hr
      decide +kernel
    obtain ⟨r, l₂, hrun, hsame⟩ | hfull := (hdeclared _ _ hr).1 unsettled (by decide)
    · exact ⟨l₁, r, l₂, hr, hrun, hsame⟩
    · exact absurd hfull (not_exceeds_of_isOk hends)
  · have hr : ∃ o e, (Randomizer.ofSeed 0 .interleaved).randomizeWith twoFields ⟨"m", [⟨0⟩], []⟩
        ⟨[unsettled]⟩ = Except.ok o ∧ o.result = .error e := ⟨_, _, rfl, rfl⟩
    obtain ⟨o, e, hr, hresult⟩ := hr
    refine ⟨o, hr, ?_, (hcall _ _ _ o hr).1 (by decide)⟩
    rw [hresult]
    intro hok
    cases hok

end Lowering

end Stimulus

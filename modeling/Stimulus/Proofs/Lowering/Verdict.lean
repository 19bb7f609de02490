import Stimulus.Proofs.Lowering.Constants
import Stimulus.Proofs.Lowering.Reached

/-!
# When lowering succeeds

If lowering an expression ends, it succeeds or fails with an error exactly as the shape of
the expression says (`Lowering.judged_lower`). `Lowering.Judged l x v` says this of a step
`x` from `l` and a verdict `v`; the rules for it follow those of `Lowering.Leads`, which say
that the step ends or that the storage is too small for it.
-/

set_option autoImplicit false

namespace Stimulus

open Diagram Store

namespace Lowering

variable {ws : Workspace} {l l' : Lowering} {a b t : BitVector} {e : Expr} {f : Field}
  {shape : Shape} {fs gs : List Field}

/-! ## Verdicts on steps -/

/-- If the step ends, it succeeds where the verdict is good, and fails with the error of the verdict
otherwise. -/
def Judged {α β : Type} (l : Lowering) (x : Lower α) (verdict : Except Error β) : Prop :=
  ∀ r l', x.run.run l = .ok (r, l') →
    (∀ a, r = .ok a → ∃ b, verdict = .ok b) ∧ ∀ e, r = .error e → verdict = .error e

section Judged

variable {α β γ δ : Type} {x : Lower α} {k : α → Lower γ} {v : Except Error β}
  {w : β → Except Error δ} {P : α → Lowering → Prop}

/-- A run that succeeds is judged good. -/
theorem Judged.exists_of_run {a : α} (hx : Judged l x v)
    (hr : x.run.run l = .ok (.ok a, l')) : ∃ b, v = .ok b :=
  (hx _ l' hr).1 a rfl

/-- A run that fails is judged with its error. -/
theorem Judged.of_run_error {e : Error} (hx : Judged l x v)
    (hr : x.run.run l = .ok (.error e, l')) : v = .error e :=
  (hx _ l' hr).2 e rfl

theorem Judged.of_run_eq {y : Lower α} (h : x.run.run l = y.run.run l) (hy : Judged l y v) :
    Judged l x v := by
  unfold Judged
  rwa [h]

/-- A step whose runs cannot fail. -/
theorem judged_of_ok {b : β} (h : ∀ r l', x.run.run l = .ok (r, l') → ∃ a, r = .ok a) :
    Judged l x (.ok b : Except Error β) := by
  intro r l' hr
  obtain ⟨a, rfl⟩ := h r l' hr
  exact ⟨fun _ _ => ⟨b, rfl⟩, fun _ he => nomatch he⟩

theorem judged_pure (l : Lowering) (a : α) (b : β) :
    Judged l (pure a) (.ok b : Except Error β) :=
  judged_of_ok fun _ _ hr => by
    cases hr
    exact ⟨a, rfl⟩

theorem judged_throw (l : Lowering) (e : Error) :
    Judged l (throw e : Lower α) (.error e : Except Error β) := by
  intro r l' hr
  cases hr
  exact ⟨fun _ ha => (nomatch ha), fun e' he' => congrArg Except.error (Except.error.inj he')⟩

theorem Succeeds.judged (hx : Succeeds ws l x P) (b : β) :
    Judged l x (.ok b : Except Error β) :=
  judged_of_ok fun _ _ hr => by
    obtain ⟨a, ha, -⟩ := hx.of_run hr
    exact ⟨a, ha⟩

/-- Only whether the verdict is good counts. -/
theorem Judged.map (hx : Judged l x v) (g : β → δ) : Judged l x (v >>= fun b => pure (g b)) := by
  intro r l' hr
  obtain ⟨hok, herror⟩ := hx r l' hr
  refine ⟨fun a ha => ?_, fun e he => ?_⟩
  · obtain ⟨b, rfl⟩ := hok a ha
    exact ⟨g b, rfl⟩
  · rw [herror e he]
    rfl

/-- One step after another. -/
theorem Judged.bind (hx : Judged l x v) (hleads : Leads ws l x fs P)
    (hk : ∀ a l' b, l'.Valid ws → l.GrowsTo ws l' → P a l' → v = .ok b → Judged l' (k a) (w b)) :
    Judged l (x >>= k) (v >>= w) := by
  intro r l₂ hr
  rcases run_bind_cases hr with ⟨e, hrun, rfl⟩ | ⟨a, l₁, hrun, hrest⟩
  · -- the first error ends both the step and its verdict
    rw [hx.of_run_error hrun]
    exact ⟨fun _ ha => (nomatch ha), fun e' he' => congrArg Except.error (Except.error.inj he')⟩
  · obtain ⟨b, rfl⟩ := hx.exists_of_run hrun
    obtain ⟨hl, hg, -, hP⟩ := hleads.of_run hrun
    exact hk a l₁ b hl hg hP rfl r l₂ hrest

/-- A check before another step. -/
theorem judged_check_bind {y : Except Error β} {k : β → Lower γ}
    (hk : ∀ b, y = .ok b → Judged l (k b) (w b)) : Judged l (liftM y >>= k) (y >>= w) := by
  cases y with
  | error e => exact judged_throw l e
  | ok b => exact hk b rfl

end Judged

/-! ## Verdicts on steps of terms -/

theorem Valid.judged_fieldTerm (hl : l.Valid ws) (f : Field) :
    Judged l (fieldTerm ws f) ((Expr.field f).shape ws) := by
  unfold Expr.shape
  cases hterm : l.term? f with
  | some t =>
    have hmem := term?_eq_some hterm
    -- only bound fields have terms
    obtain ⟨vars, hvars⟩ := hl.laid_of_mem hmem
    simp only [hvars.bound, if_true]
    exact Judged.of_run_eq (y := pure t) (run_fieldTerm_of_mem hl.indexed hmem ws)
      (judged_pure l t _)
  | none =>
    refine Judged.of_run_eq (run_fieldTerm_of_not_mem hl.indexed (term?_eq_none hterm) ws) ?_
    unfold newTerm
    split
    · refine judged_of_ok fun r l' hr => ?_
      rcases run_bind_cases hr with ⟨e, hrun, -⟩ | ⟨t, l₁, -, hrest⟩
      · obtain ⟨t, solver, -, herror, -⟩ := run_solving_eq_ok hrun
        cases herror
      · cases hrest
        exact ⟨t, rfl⟩
    · exact judged_throw l _

/-- A bit of a base, by an index of any kind. -/
theorem Valid.judged_selectBit {α β : (Field → Quantity) → Quantity} (hl : l.Valid ws)
    (ha : l.Means ws a α) (hb : l.Means ws b β) :
    Judged l (selectBit a b) (Expr.bitShape a.shape b.toConstant?) := by
  have hselect (shape : Shape) :
      Judged l (solving (Solver.selectBit a b)) (.ok shape : Except Error Shape) :=
    Succeeds.judged (hl.succeeds_selectBit ha hb) shape
  unfold selectBit Expr.bitShape
  cases b.toConstant? with
  | none => exact hselect _
  | some i =>
    dsimp only
    by_cases hi : a.width ≤ i
    · rw [if_pos hi, if_pos (show a.shape.width ≤ i from hi)]
      exact judged_throw l _
    · rw [if_neg hi, if_neg (show ¬ a.shape.width ≤ i from hi)]
      exact hselect _

theorem judged_selectSlice (a : BitVector) (high low : Nat) :
    Judged l (selectSlice a high low) (Expr.sliceShape a.shape high low) := by
  unfold selectSlice Expr.sliceShape
  by_cases hrange : high < low ∨ a.width ≤ high
  · rw [if_pos hrange, if_pos (show high < low ∨ a.shape.width ≤ high from hrange)]
    exact judged_throw l _
  · rw [if_neg hrange, if_neg (show ¬ (high < low ∨ a.shape.width ≤ high) from hrange)]
    exact judged_pure l _ _

/-- The term of an expression has its shape. -/
theorem Means.shape_of (h : l.Means ws t fun fields => e.meaning fields) (hl : l.Valid ws)
    (hshape : e.shape ws = .ok shape) : t.shape = shape :=
  (h.shape_eq hl ws.fits_zero).symm.trans (Expr.shape_meaning hshape _ ws.fits_zero)

theorem Means.bound_of (h : l.Means ws t fun fields => e.meaning fields) (hl : l.Valid ws)
    (hshape : e.shape ws = .ok shape) : Lowering.bound ws e t = e.bound ws shape := by
  have ht := h.shape_of hl hshape
  rw [← ht]
  exact h.bound_eq hl (ht ▸ Expr.shape_inRange hshape)

/-! ## Verdicts on expressions -/

mutual

/-- **Lowering an expression ends as the shape of the expression says.** -/
theorem judged_lower : ∀ (e : Expr) (l : Lowering), l.Valid ws →
    Judged l (lower ws e) (e.shape ws)
  | .literal c, l, hl => judged_pure l _ _
  | .field f, l, hl => hl.judged_fieldTerm f
  | .binary op lhs rhs, l, hl => by
    refine (judged_lower lhs l hl).bind (leads_lower lhs l hl) fun a l₁ sa h₁ _ ha _ => ?_
    refine (judged_lower rhs l₁ h₁).bind (leads_lower rhs l₁ h₁) fun b l₂ sb h₂ g₂ hb _ => ?_
    exact (h₂.succeeds_apply (ha.grow h₁ g₂) hb op).judged _
  | .bit base index, l, hl => by
    refine (judged_lower base l hl).bind (leads_lower base l hl) fun a l₁ sa h₁ _ ha hsa => ?_
    refine (judged_lower index l₁ h₁).bind (leads_lower index l₁ h₁) fun b l₂ sb h₂ g₂ hb hsb => ?_
    have ha₂ := ha.grow h₁ g₂
    have hwidth : b.shape.InRange := hb.shape_of h₂ hsb ▸ Expr.shape_inRange hsb
    rw [← ha₂.shape_of h₂ hsa, ← hb.toConstant?_eq h₂ hwidth.2]
    exact h₂.judged_selectBit ha₂ hb
  | .slice base high low, l, hl => by
    refine (judged_lower base l hl).bind (leads_lower base l hl) fun a l₁ sa h₁ g₁ ha hsa => ?_
    refine (judged_lower high l₁ h₁).bind (leads_lower high l₁ h₁) fun b l₂ sb h₂ g₂ hb hsb => ?_
    -- each bound is checked right after its own term
    rw [← hb.bound_of h₂ hsb]
    refine judged_check_bind fun i _ => ?_
    refine (judged_lower low l₂ h₂).bind (leads_lower low l₂ h₂) fun c l₃ sc h₃ g₃ hc hsc => ?_
    rw [← hc.bound_of h₃ hsc]
    refine judged_check_bind fun j _ => ?_
    rw [← (ha.grow h₁ (g₂.trans g₃)).shape_of h₃ hsa]
    exact judged_selectSlice a i j
  | .inside value ranges, l, hl => by
    refine (judged_lower value l hl).bind (leads_lower value l hl) fun a l₁ _ h₁ _ ha _ => ?_
    exact (judged_lowerRanges ranges l₁ a none _ _ h₁ ha meansSofar_none).map _

theorem judged_lowerRange : ∀ (r : Range) (l : Lowering) (a : BitVector)
    (α : (Field → Quantity) → Quantity), l.Valid ws → l.Means ws a α →
    Judged l (lowerRange ws a r) (r.check ws)
  | .point point, l, a, α, hl, ha => by
    refine (judged_lower point l hl).bind (leads_lower point l hl) fun p l₁ _ h₁ g₁ hp _ => ?_
    exact (h₁.succeeds_point (ha.grow hl g₁) hp).judged _
  | .interval low high, l, a, α, hl, ha => by
    refine (judged_lower low l hl).bind (leads_lower low l hl) fun b l₁ _ h₁ g₁ hb _ => ?_
    refine (judged_lower high l₁ h₁).bind (leads_lower high l₁ h₁) fun c l₂ _ h₂ g₂ hc _ => ?_
    exact (h₂.succeeds_interval (ha.grow hl (g₁.trans g₂)) (hb.grow h₁ g₂) hc).judged _

theorem judged_lowerRanges : ∀ (rs : Ranges) (l : Lowering) (a : BitVector)
    (sofar : Option BitVector) (α : (Field → Quantity) → Quantity)
    (κ : (Field → Quantity) → Bool), l.Valid ws → l.Means ws a α → MeansSofar ws l sofar κ →
    Judged l (lowerRanges ws a sofar rs) (rs.check ws)
  | .single range, l, a, sofar, α, κ, hl, ha, hsofar => by
    rw [← bind_pure (Ranges.check ws _)]
    refine (judged_lowerRange range l a α hl ha).bind (leads_lowerRange range l a α hl ha)
      fun t l₁ u h₁ g₁ ht _ => ?_
    exact (h₁.succeeds_extend (hsofar.grow hl g₁) ht).judged u
  | .cons range rest, l, a, sofar, α, κ, hl, ha, hsofar => by
    refine (judged_lowerRange range l a α hl ha).bind (leads_lowerRange range l a α hl ha)
      fun t l₁ u h₁ g₁ ht _ => ?_
    have hextend := h₁.succeeds_extend (hsofar.grow hl g₁) ht
    refine (hextend.judged u).bind (w := fun _ => rest.check ws) hextend.leads
      fun r l₂ _ h₂ g₂ hr _ => ?_
    exact judged_lowerRanges rest l₂ a (some r) α _ h₂ (ha.grow hl (g₁.trans g₂)) hr.sofar

end

end Lowering

end Stimulus

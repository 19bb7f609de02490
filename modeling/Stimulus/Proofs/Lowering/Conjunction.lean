import Stimulus.Proofs.Lowering.Layouts
import Stimulus.Proofs.Lowering.Membership

/-!
# Conjunctions of scopes

The term of a scope is a bit, which is true exactly where the terms of all constraints have a bit
that is set. It depends on the set of the constraints only: in one lowering, a scope with the
constraints in another order or repeated, and conjunctions of scopes that together hold the same
constraints, are the very same term (`Lowering.Reached.conjunction_exact`).

`Lowering.Conjoined ws z es t` says that the constraints `es` were conjoined to `t` in any grouping
on the way to `z`. Such a term means that all of them hold (`Lowering.Conjoined.means`), and terms
of one meaning are equal.
-/

set_option autoImplicit false

namespace Stimulus

open Diagram Store Quantity

/-- A term counts as true where some of its bits is. -/
theorem Diagram.Store.Means.holds_iff {s : Store} {a : BitVector} {Q : Assignment → Quantity}
    (h : s.Means a Q) (ρ : Assignment) :
    (Q ρ).holds = true ↔ ∃ g ∈ a.bits, s.evaluate g ρ = .ok true := by
  obtain ⟨φs, hφs, hany⟩ := h.spells.any
  have hholds : (Q ρ).holds = φs.any fun φ => φ ρ := (hany ρ).symm
  rw [hholds, List.any_eq_true]
  constructor
  · rintro ⟨φ, hφ, htrue⟩
    obtain ⟨g, hg, hdenotes⟩ := exists_of_forall₂ hφs.flip hφ
    exact ⟨g, hg, (hdenotes.evaluate ρ).trans (congrArg Except.ok htrue)⟩
  · rintro ⟨g, hg, htrue⟩
    obtain ⟨φ, hφ, hdenotes⟩ := exists_of_forall₂ hφs hg
    exact ⟨φ, hφ, Except.ok.inj ((hdenotes.evaluate ρ).symm.trans htrue)⟩

namespace Lowering

theorem Means.carries {ws : Workspace} {l : Lowering} {a : BitVector}
    {α : (Field → Quantity) → Quantity} (h : l.Means ws a α) : l.solver.store.Carries a := by
  obtain ⟨Q, hQ, -⟩ := h
  exact ⟨hQ.width_pos, hQ.spells.has⟩

variable {ws : Workspace} {l l' l₀ l₁ z z' : Lowering} {t t' u sofar : BitVector}
  {es es' : List Expr} {ts : List BitVector} {κ : (Field → Quantity) → Bool}

/-! ## Constraints that lower -/

/-- Whether all constraints hold depends on their set only. -/
theorem all_holds_congr (hsame : ∀ e, e ∈ es ↔ e ∈ es') (fields : Field → Quantity) :
    (es.all fun e => e.holds fields) = es'.all fun e => e.holds fields := by
  rw [Bool.eq_iff_iff, List.all_eq_true, List.all_eq_true]
  exact forall_congr' fun e => by rw [hsame]

theorem checkAll_eq_ok (h : ∀ e ∈ es, ∃ shape, e.shape ws = .ok shape) :
    Scope.checkAll ws es = .ok () := by
  induction es with
  | nil => rfl
  | cons e es ih =>
    obtain ⟨hshape, hrest⟩ := List.forall_mem_cons.1 h
    obtain ⟨shape, hshape⟩ := hshape
    unfold Scope.checkAll
    rw [hshape]
    exact ih hrest

/-- A scope lowers if its constraints have shapes, unless the storage is too small for it. -/
theorem Sound.run_lowerScope_or_exceeds (h : Sound ws l)
    (hshape : ∀ e ∈ es, ∃ shape, e.shape ws = .ok shape) :
    (∃ t z, (lowerScope ws ⟨es⟩).run.run l = .ok (.ok t, z)) ∨
      Exceeds l (lowerScope ws ⟨es⟩).run := by
  refine ((h.valid.leads_lowerScope ⟨es⟩).run_or_exceeds h.bounded).imp_left fun ⟨r, z, hr⟩ => ?_
  cases r with
  | error err =>
    have herr := (h.valid.judged_lowerScope ⟨es⟩).of_run_error hr
    rw [checkAll_eq_ok hshape] at herr
    cases herr
  | ok t => exact ⟨t, z, hr⟩

/-- Constraints that were lowered one by one have shapes. -/
theorem Valid.shapes_of_run_mapM (hl : l.Valid ws)
    (hr : (es.mapM (lower ws)).run.run l = .ok (.ok ts, l₀)) :
    ∀ e ∈ es, ∃ shape, e.shape ws = .ok shape := by
  induction es generalizing l ts l₀ with
  | nil => exact nofun
  | cons e es ih =>
    rw [List.mapM_cons] at hr
    obtain ⟨t, l₁, hr₁, hr⟩ := exists_of_run_bind hr
    obtain ⟨ts', l₂, hr₂, -⟩ := exists_of_run_bind hr
    obtain ⟨h₁, -, -, hshape⟩ := hl.of_runs hr₁
    exact List.forall_mem_cons.2 ⟨⟨_, hshape⟩, ih h₁ hr₂⟩

/-- What a scope leads to where it was lowered. -/
theorem Valid.of_lowerScope (hl : l.Valid ws)
    (hr : (lowerScope ws ⟨es⟩).run.run l = .ok (.ok t, z)) :
    z.Valid ws ∧ l.GrowsTo ws z ∧
      z.Means ws t fun fields => flag (es.all fun e => e.holds fields) := by
  obtain ⟨hz, hg, -, ht⟩ := (hl.leads_lowerScope ⟨es⟩).of_run hr
  exact ⟨hz, hg, ht⟩

/-- On the way of a conjunction every constraint was lowered, in a lowering that is reached. -/
theorem Reached.of_run_lowerAll : ∀ (es : List Expr) (l : Lowering) (sofar : BitVector)
    (κ : (Field → Quantity) → Bool), Reached ws l →
    l.Means ws sofar (fun fields => flag (κ fields)) →
    (lowerAll ws es sofar).run.run l = .ok (.ok t, z) →
    Reached ws z ∧ l.GrowsTo ws z ∧ ∃ ts, List.Forall₂ (Lowered ws z) es ts := by
  intro es
  induction es with
  | nil =>
    intro l sofar κ h _ hr
    cases hr
    exact ⟨h, GrowsTo.refl ws _, [], List.Forall₂.nil⟩
  | cons e es ih =>
    intro l sofar κ h hsofar hr
    obtain ⟨a, l₁, hr₁, hr⟩ := exists_of_run_bind hr
    obtain ⟨b, l₂, hr₂, hr⟩ := exists_of_run_bind hr
    obtain ⟨h₁, g₁, ha, -⟩ := h.valid.of_runs hr₁
    have hsofar₁ := hsofar.grow h.valid g₁
    obtain ⟨h₂, g₂, -, hb⟩ := (h₁.succeeds_conjunct hsofar₁ ha).leads.of_run hr₂
    have hreached₁ : Reached ws l₁ := h.lower hr₁
    have hreached₂ : Reached ws l₂ := hreached₁.conj hsofar₁.carries ha.carries hr₂
    obtain ⟨hz, g₃, ts, hts⟩ := ih l₂ b _ hreached₂ hb hr
    exact ⟨hz, g₁.trans (g₂.trans g₃), a :: ts,
      List.Forall₂.cons ⟨l, l₁, h, hr₁, g₂.trans g₃⟩ hts⟩

/-- What the term of a scope says of the terms of its constraints. -/
theorem Valid.evaluate_conjunction (hz : z.Valid ws) (hts : List.Forall₂ (Lowered ws z) es ts)
    (ρ : Assignment) : (es.all fun e => e.holds (ws.quantity (reading ws z ρ))) = true ↔
      ∀ t ∈ ts, ∃ g ∈ t.bits, z.solver.store.evaluate g ρ = .ok true := by
  induction hts with
  | nil => exact ⟨fun _ => nofun, fun _ => rfl⟩
  | @cons e t es ts ht _ ih =>
    obtain ⟨Q, hQ, hvalue⟩ := ht.means
    have hholds : e.holds (ws.quantity (reading ws z ρ)) = (Q ρ).holds := by
      rw [hvalue ρ _ (hz.reads_reading ρ)]
      rfl
    rw [List.all_cons, Bool.and_eq_true, List.forall_mem_cons, ih, hholds, hQ.holds_iff]

/-! ## Groupings -/

/-- The constraints were conjoined to this term on the way to `z`: as one scope, or as the
conjunction of two such terms. -/
inductive Conjoined (ws : Workspace) : Lowering → List Expr → BitVector → Prop
  | scope {l l' z : Lowering} {es : List Expr} {t : BitVector} : Reached ws l →
    (lowerScope ws ⟨es⟩).run.run l = .ok (.ok t, l') → l'.GrowsTo ws z → Conjoined ws z es t
  | and {l l' z : Lowering} {es es' : List Expr} {t t' u : BitVector} : Reached ws l →
    Conjoined ws l es t → Conjoined ws l es' t' →
    (Lowering.and t t').run.run l = .ok (.ok u, l') → l'.GrowsTo ws z →
    Conjoined ws z (es ++ es') u

/-- **However constraints are grouped, their conjunction means that all of them hold.** -/
theorem Conjoined.means (h : Conjoined ws z es t) :
    z.Means ws t fun fields => flag (es.all fun e => e.holds fields) := by
  induction h with
  | scope hl hr hg =>
    obtain ⟨hl', -, ht⟩ := hl.valid.of_lowerScope hr
    exact ht.grow hl' hg
  | and hl _ _ hr hg ht ht' =>
    obtain ⟨hl', -, -, hu⟩ := (hl.valid.succeeds_conjunct ht ht').leads.of_run hr
    refine (hu.grow hl' hg).congr fun fields => ?_
    rw [holds_flag, List.all_append]

/-- **A conjunction does not depend on order, grouping or repetition.** Constraints that all lower
from `l` are lowered by their scope in every lowering. The term of the scope is a bit, which is the
constant true for no constraints. It is true exactly where the term of every constraint has a bit
that is set. In the same lowering every part of the constraints lowers as a scope, and conjunctions
of scopes are always there; and whatever scopes and conjunctions of scopes hold the same set of
constraints have the very same bit as their term. Only the storage can be too small for what is
asked for. -/
theorem Reached.conjunction_exact (h : Reached ws l)
    (hall : (es.mapM (Lowering.lower ws)).run.run l = .ok (.ok ts, l₀)) (h₁ : Reached ws l₁) :
    (∃ f z, (lowerScope ws ⟨es⟩).run.run l₁ = .ok (.ok (.ofBit f), z) ∧ Reached ws z ∧
      (es = [] → f = .one) ∧
      (∃ us, List.Forall₂ (Lowered ws z) es us ∧ ∀ ρ, ∃ b, z.solver.store.evaluate f ρ = .ok b ∧
        (b = true ↔ ∀ u ∈ us, ∃ g ∈ u.bits, z.solver.store.evaluate g ρ = .ok true)) ∧
      ∀ z', Reached ws z' → z.GrowsTo ws z' →
        (∀ es', es' ⊆ es → (∃ t z'', (lowerScope ws ⟨es'⟩).run.run z' = .ok (.ok t, z'') ∧
          (es ⊆ es' → t = .ofBit f)) ∨ Exceeds z' (lowerScope ws ⟨es'⟩).run) ∧
        (∀ es₁ es₂ t₁ t₂, Conjoined ws z' es₁ t₁ → Conjoined ws z' es₂ t₂ →
          (∃ t z'', (Lowering.and t₁ t₂).run.run z' = .ok (.ok t, z'')) ∨
            Outgrows z' (Lowering.and t₁ t₂).run) ∧
        ∀ es' t, Conjoined ws z' es' t → (∀ e, e ∈ es' ↔ e ∈ es) → t = .ofBit f) ∨
    Exceeds l₁ (lowerScope ws ⟨es⟩).run := by
  have hshape := h.valid.shapes_of_run_mapM hall
  refine (h₁.sound.run_lowerScope_or_exceeds hshape).imp_left fun ⟨t, z, hr⟩ => ?_
  obtain ⟨hz, -, ht⟩ := h₁.valid.of_lowerScope hr
  obtain ⟨hreached, -, us, hus⟩ :=
    Reached.of_run_lowerAll es l₁ constantTrue _ h₁ h₁.valid.means_constantTrue hr
  obtain ⟨f, rfl, hf⟩ := ht.exists_bit hz
  refine ⟨f, z, hr, hreached, ?_, ⟨us, hus, fun ρ => ⟨_, hf ρ _ (hz.reads_reading ρ),
    hz.evaluate_conjunction hus ρ⟩⟩, fun z' hz' hg => ?_⟩
  · rintro rfl
    cases hr
    rfl
  · -- every term that means the conjunction is the bit of the scope
    have hunique : ∀ (w : Lowering) (es' : List Expr) (u : BitVector), w.Valid ws →
        z.GrowsTo ws w → (∀ e, e ∈ es' ↔ e ∈ es) →
        (w.Means ws u fun fields => flag (es'.all fun e => e.holds fields)) → u = .ofBit f :=
      fun w es' u hw hgw hsame hu =>
        (hu.congr fun fields => congrArg flag (all_holds_congr hsame fields)).unique
          (ht.grow hz hgw) hw
    refine ⟨fun es' hsub => ?_, fun es₁ es₂ t₁ t₂ ht₁ ht₂ => ?_, fun es' u hu hsame => ?_⟩
    · refine (hz'.sound.run_lowerScope_or_exceeds fun e he => hshape e (hsub he)).imp_left
        fun ⟨u, z'', hu⟩ => ⟨u, z'', hu, fun hsup => ?_⟩
      obtain ⟨hz'', hg', hmeans⟩ := hz'.valid.of_lowerScope hu
      exact hunique z'' es' u hz'' (hg.trans hg') (fun e => ⟨fun he => hsub he, fun he => hsup he⟩)
        hmeans
    · exact (hz'.valid.succeeds_and ht₁.means ht₂.means).run_or_outgrows.imp_left
        fun ⟨u, z'', hu, _⟩ => ⟨u, z'', hu⟩
    · exact hunique z' es' u hz'.valid hg hsame hu.means

/-- A field of two bits that is neither zero nor full, with the constraints in two orders. -/
theorem partly_conjunction_exact : ∃ f z z',
    (lowerScope twoBits ⟨[.field ⟨0⟩, turned]⟩).run.run (start (.ofSeed 0 .interleaved)) =
      .ok (.ok (.ofBit f), z) ∧
    (lowerScope twoBits ⟨[turned, .field ⟨0⟩, turned]⟩).run.run z = .ok (.ok (.ofBit f), z') := by
  have hboth : ((lowerScope twoBits ⟨[.field ⟨0⟩, turned]⟩ >>= fun _ =>
      lowerScope twoBits ⟨[turned, .field ⟨0⟩, turned]⟩).run.run
        (start (.ofSeed 0 .interleaved))).isOk = true := by
    decide +kernel
  have hstart : Reached twoBits (start (.ofSeed 0 .interleaved)) := .new
  have hall : ∃ ts l₀, ([Expr.field ⟨0⟩, turned].mapM (Lowering.lower twoBits)).run.run
      (start (.ofSeed 0 .interleaved)) = Except.ok (.ok ts, l₀) := ⟨_, _, rfl⟩
  obtain ⟨ts, l₀, hall⟩ := hall
  obtain ⟨f, z, hr, hz, -, -, hsame⟩ := (hstart.conjunction_exact hall hstart).resolve_right
    (not_exceeds_of_isOk (by decide +kernel))
  rw [run_bind hr] at hboth
  obtain ⟨hparts, -⟩ := hsame z hz (GrowsTo.refl _ z)
  obtain ⟨t, z', hr', ht⟩ := (hparts [turned, .field ⟨0⟩, turned] (by
    intro e he
    simp only [List.mem_cons, List.not_mem_nil, or_false] at he ⊢
    rcases he with rfl | rfl | rfl
    · exact Or.inr rfl
    · exact Or.inl rfl
    · exact Or.inr rfl)).resolve_right (not_exceeds_of_isOk hboth)
  rw [ht (List.cons_subset.2 ⟨List.mem_cons_of_mem _ List.mem_cons_self,
    List.cons_subset.2 ⟨List.mem_cons_self, List.nil_subset _⟩⟩)] at hr'
  exact ⟨f, z, z', hr, hr'⟩

end Lowering

end Stimulus

import Stimulus.Proofs.Runs.Operators
import Stimulus.Proofs.Solver.Requests

/-!
# Stores of solvers

A solver uses its store through the calls of the store only. So every run of requests to a solver
is a run of its store, and its terms are vectors over that store (`Solver.Run.reached`): what holds
of all stores that runs reach holds of the stores of solvers.

`Ends P s x` says of a computation, whatever its state is, that `P` holds where it ends.
-/

set_option autoImplicit false

namespace Stimulus

open Diagram Store

/-! ## Where computations end -/

section Ends

variable {σ α β : Type} {P : σ → Prop} {s : σ} {x : StateT σ (Except Fault) α}
  {k : α → StateT σ (Except Fault) β} {f : α → StateT σ (Except Fault) β}

/-- If the computation ends, it ends in a state with the property. -/
def Ends (P : σ → Prop) (s : σ) (x : StateT σ (Except Fault) α) : Prop :=
  ∀ a t, x s = .ok (a, t) → P t

theorem ends_pure (h : P s) (a : α) : Ends P s (pure a) := by
  rintro _ _ ⟨⟩
  exact h

theorem Ends.bind (hx : Ends P s x) (hk : ∀ a t, x s = .ok (a, t) → P t → Ends P t (k a)) :
    Ends P s (x >>= k) := by
  intro b u hr
  have hr : (x s >>= fun p => k p.1 p.2) = .ok (b, u) := hr
  cases hx' : x s with
  | error fault =>
    rw [hx'] at hr
    cases hr
  | ok p =>
    rw [hx'] at hr
    exact hk p.1 p.2 hx' (hx p.1 p.2 hx') b u hr

theorem ends_lift (h : P s) (y : Except Fault α) : Ends P s (liftM y) := by
  cases y with
  | error fault =>
    intro a t hr
    cases hr
  | ok a => exact ends_pure h a

/-- A look at the state. -/
theorem Ends.get_bind {k : σ → StateT σ (Except Fault) β} (h : Ends P s (k s)) :
    Ends P s (get >>= k) := h

/-- A change of the state. -/
theorem Ends.modify_bind {g : σ → σ} {k : Unit → StateT σ (Except Fault) β}
    (h : Ends P (g s) (k ())) : Ends P s (modify g >>= k) := h

theorem ends_discard (hx : Ends P s x) : Ends P s (discard x) :=
  hx.bind fun _ _ _ h => ends_pure h _

theorem ends_mapM : ∀ (xs : List α) (s : σ), (∀ a ∈ xs, ∀ s, P s → Ends P s (f a)) → P s →
    Ends P s (xs.mapM f) := by
  intro xs
  induction xs with
  | nil => exact fun s _ hs => ends_pure hs []
  | cons a xs ih =>
    intro s hf hs
    rw [List.mapM_cons]
    exact (hf a List.mem_cons_self s hs).bind fun b t _ ht =>
      (ih t (fun a' ha' => hf a' (List.mem_cons_of_mem a ha')) ht).bind fun bs u _ hu =>
        ends_pure hu _

theorem ends_foldlM {g : β → α → StateT σ (Except Fault) β}
    (hg : ∀ b a s, P s → Ends P s (g b a)) :
    ∀ (xs : List α) (b : β) (s : σ), P s → Ends P s (xs.foldlM g b) := by
  intro xs
  induction xs with
  | nil => exact fun b s hs => ends_pure hs b
  | cons a xs ih =>
    intro b s hs
    rw [List.foldlM_cons]
    exact (hg b a s hs).bind fun b' t _ ht => ih b' t ht

end Ends

/-! ## Steps on stores -/

namespace Diagram.Store

variable {s t : Store} {a b : BitVector}

theorem Means.carries {Q : Assignment → Quantity} (h : s.Means a Q) : s.Carries a :=
  ⟨h.width_pos, h.spells.has⟩

section Calls

variable {α : Type} {c : Call} {x : Build α} {g : α → List Edge}

theorem Reached.ends_call (h : s.Reached) (hc : s.Allows c)
    (hrun : c.run = x >>= fun r => pure (g r)) : Ends Reached s x :=
  fun _ _ => h.of_call hc hrun

end Calls

theorem Reached.ends_literal (h : s.Reached) (v : Nat) : Ends Reached s (literal v) := by
  by_cases hv : 0 < v ∧ v ≤ lastVariable
  · exact h.ends_call (c := .literal v) hv rfl
  · intro e t hr
    unfold literal branch at hr
    rw [if_pos (by omega)] at hr
    cases hr

theorem Reached.ends_variable (h : s.Reached) {first width : Nat} (signed : Bool)
    (hf : 0 < first) (hw : 1 ≤ width) : Ends Reached s (BitVector.variable first width signed) := by
  by_cases hlast : first + width ≤ lastVariable
  · exact h.ends_call (c := .inputs first width signed) ⟨hf, hw, hlast⟩ rfl
  · intro r t hr
    unfold BitVector.variable at hr
    rw [if_pos (Nat.lt_of_not_le hlast)] at hr
    cases hr

theorem Reached.ends_truth (h : s.Reached) (ha : s.Carries a) : Ends Reached s a.truth := by
  unfold BitVector.truth
  split
  · exact ends_pure h _
  · exact h.ends_call (c := .disjAll a.bits) ha.2 rfl

theorem Valid.of_truth (hs : s.Valid) (ha : s.Carries a) {f : Edge} (hr : a.truth s = .ok (f, t)) :
    s.GrowsTo t ∧ t.Has f := by
  obtain ⟨n, X, -, hX⟩ := ha.spells hs.reduced
  obtain ⟨-, hst, hf⟩ := (hs.gives_truth hX).of_run hr
  exact ⟨hst, hf.has⟩

/-- A connective of the truth values of two vectors. -/
theorem Reached.ends_connective (h : s.Reached) (ha : s.Carries a) (hb : s.Carries b)
    {join : Edge → Edge → Build Edge}
    (hjoin : ∀ {t f g}, t.Reached → t.Has f → t.Has g → Ends Reached t (join f g)) :
    Ends Reached s (do
      let f ← a.truth
      let g ← b.truth
      return BitVector.ofBit (← join f g)) := by
  refine (h.ends_truth ha).bind fun f t hf ht => ?_
  obtain ⟨hst, hf⟩ := h.valid.of_truth ha hf
  have hb := hb.grow hst
  refine (ht.ends_truth hb).bind fun g u hg hu => ?_
  obtain ⟨htu, hg⟩ := ht.valid.of_truth hb hg
  exact (hjoin hu (htu.has hf) hg).bind fun _ _ _ h => ends_pure h _

end Diagram.Store

/-! ## Requests to a solver -/

namespace Solver

variable {s s' : Solver} {terms : List BitVector} {a : BitVector} {r : Request}

/-- A run reaches the store of the solver. -/
def OnRun (s : Solver) : Prop := s.store.Reached

section Steps

variable {α : Type} {x : Solving α} {y : Build α}

theorem ends_build (hy : Ends Reached s.store y) : Ends OnRun s (build y) := by
  intro c s' hr
  rw [Solver.build_eq] at hr
  cases hstore : y s.store with
  | error fault =>
    rw [hstore] at hr
    cases hr
  | ok p =>
    rw [hstore] at hr
    cases hr
    exact hy _ _ hstore

theorem ends_term {x : Solving BitVector} (hx : Ends OnRun s x) :
    Ends OnRun s (Request.term x) :=
  hx.bind fun _ _ _ h => ends_pure h _

theorem ends_question (hx : Ends OnRun s x) : Ends OnRun s (Request.question x) :=
  (ends_discard hx).bind fun _ _ _ h => ends_pure h _

end Steps

theorem OnRun.ends_freshVariable (h : s.OnRun) {shape : Shape} (hw : 1 ≤ shape.width) :
    Ends OnRun s (freshVariable shape) :=
  Ends.get_bind (Ends.modify_bind (ends_build
    (Reached.ends_variable h shape.signed (Nat.succ_pos _) hw)))

theorem OnRun.ends_extend (h : s.OnRun) (draft : Draft) (i : Nat) :
    Ends OnRun s (draft.extend i) := by
  unfold Draft.extend
  split
  · refine Ends.bind (Ends.modify_bind (Ends.get_bind (ends_build ?_))) fun _ _ _ ht =>
      ends_pure ht _
    exact Reached.ends_literal h _
  · exact ends_pure h draft

theorem OnRun.ends_freshVariables (h : s.OnRun) {shapes : List Shape}
    (hw : ∀ shape ∈ shapes, 1 ≤ shape.width) : Ends OnRun s (freshVariables shapes) := by
  refine Ends.get_bind ?_
  cases s.layout with
  | interleaved =>
    refine (ends_foldlM (fun drafts i t ht => ?_) _ _ s h).bind fun drafts t _ ht =>
      ends_mapM drafts t (fun draft _ _ ht => ends_lift ht draft.finish) ht
    exact ends_mapM drafts t (fun draft _ _ ht => OnRun.ends_extend ht draft i) ht
  | sequential =>
    exact ends_mapM shapes s
      (fun shape hshape _ ht => OnRun.ends_freshVariable ht (hw shape hshape)) h

/-- **Wherever a legal request ends, a run reaches the store.** -/
theorem OnRun.ends_request (h : s.OnRun) (hterms : ∀ a ∈ terms, s.store.Carries a) :
    ∀ {r : Request}, r.Legal terms → Ends OnRun s r.run
  | .constant value width signed, _ => ends_term (ends_lift h _)
  | .freshVariable shape, hw => ends_term (h.ends_freshVariable hw)
  | .freshVariables shapes, hw => h.ends_freshVariables hw
  | .toBool a, ha =>
    ends_term (ends_build ((Reached.ends_truth h (hterms a ha)).bind fun _ _ _ h => ends_pure h _))
  | .and a b, ⟨ha, hb⟩ =>
    ends_term (ends_build (Reached.ends_connective h (hterms a ha) (hterms b hb)
      fun ht hf hg => ht.ends_call (c := .conj _ _) ⟨hf, hg⟩ rfl))
  | .or a b, ⟨ha, hb⟩ =>
    ends_term (ends_build (Reached.ends_connective h (hterms a ha) (hterms b hb)
      fun ht hf hg => ht.ends_call (c := .disj _ _) ⟨hf, hg⟩ rfl))
  | .not a, ha =>
    ends_term (ends_build ((Reached.ends_truth h (hterms a ha)).bind fun _ _ _ h => ends_pure h _))
  | .apply op a b, ⟨ha, hb⟩ =>
    ends_term (ends_build fun _ _ => Reached.of_apply h (hterms a ha) (hterms b hb))
  | .selectBit a b, ⟨ha, hb⟩ =>
    ends_term (ends_build ((Reached.ends_call h (c := .select a b)
      ⟨hterms a ha, hterms b hb⟩ rfl).bind fun _ _ _ h => ends_pure h _))
  | .slice a high low, _ => ends_term (ends_lift h _)
  | .solve a, ha => by
    refine ends_question ((ends_build (Reached.ends_truth h (hterms a ha))).bind
      fun f s' _ hs' => ?_)
    -- drawing reads the store and changes the source of draws
    intro m t hr
    dsimp only at hr
    split at hr
    · cases hr
    · cases hr
      exact hs'
  | .witness a, ha => by
    refine ends_question ((ends_build (Reached.ends_truth h (hterms a ha))).bind
      fun f s' _ hs' => Ends.get_bind ((ends_lift hs' _).bind fun r t _ ht => ?_))
    split
    · exact ends_pure ht _
    · exact (ends_lift ht _).bind fun _ _ _ h => ends_pure h _
  | .countSolutions a, ha =>
    ends_question ((ends_build (Reached.ends_truth h (hterms a ha))).bind
      fun _ _ _ h => Ends.get_bind (ends_lift h _))

/-- **The store of a solver is one that a run reaches, and the terms are vectors over it.** -/
theorem Run.reached (h : Run s terms) : s.store.Reached ∧ ∀ a ∈ terms, s.store.Carries a := by
  have hcarries : ∀ {s terms}, Run s terms → ∀ a ∈ terms, s.store.Carries a := by
    intro s terms h a ha
    obtain ⟨Q, hmeans, -⟩ := h.sound.supports a ha
    exact hmeans.carries
  refine ⟨?_, hcarries h⟩
  induction h with
  | reset s => exact @Reached.new 16 .empty rfl
  | request hrun hlegal hr ih => exact OnRun.ends_request ih (hcarries hrun) hlegal _ _ hr

end Solver

end Stimulus

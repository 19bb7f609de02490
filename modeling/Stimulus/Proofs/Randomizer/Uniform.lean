import Mathlib.Data.Set.Card
import Stimulus.Proofs.Randomizer.Calls

/-!
# Calls are uniform

The assignments that satisfy the formula of a call correspond one to one to the
solutions of the call (`Randomizer.Posed.image_reading`): all variables belong to
fields, so readings tell assignments apart and every choice of values is one. The
draw is uniform over the assignments, so every solution is stored with the same
chance (`Randomizer.Posed.chance_stores`, `Randomizer.Lowers.uniform`).
-/

set_option autoImplicit false

namespace Stimulus

open Diagram Store Lowering

/-! ## Counting models -/

/-- The number of models is the number of elements of the set of models. -/
theorem Diagram.ncard_models (n : Nat) (φ : Assignment → Bool) :
    {values : Fin n → Bool | φ (assign values) = true}.ncard = models n φ := by
  have hset : {values : Fin n → Bool | φ (assign values) = true} =
      ↑(Finset.univ.filter fun values : Fin n → Bool => φ (assign values) = true) := by
    ext values
    simp
  rw [hset, Set.ncard_coe_finset, Finset.card_filter]
  refine Finset.sum_congr rfl fun values _ => ?_
  cases φ (assign values) <;> rfl

theorem Layout.total_eq_sum (widths : List Nat) : Layout.total widths = widths.sum := by
  induction widths with
  | nil => rfl
  | cons w widths ih =>
    rw [List.sum_cons, ← ih]
    rfl

namespace Randomizer

variable {r : Randomizer} {ws : Workspace} {m : Model} {inline : Scope} {c t : BitVector}
  {l l' : Lowering} {e : Edge} {f : Field} {raw : Field → Nat} {φ : Assignment → Bool}

/-! ## The solutions of a call -/

/-- The solutions of a call. -/
def solutions (ws : Workspace) (m : Model) (inline : Scope) : Set (Field → Nat) :=
  {raw | Solves ws m inline raw}

/-- The assignments to the variables in use under which a formula is not zero. -/
def satisfying (l : Lowering) (t : BitVector) : Set (Fin l.solver.numVars → Bool) :=
  {values | ∃ x, BitVector.valueOf l.solver.store (assign values) t.bits = .ok x ∧ x ≠ 0}

/-- The fields of the model and those that the constraints mention. -/
def callFields (m : Model) (inline : Scope) : Finset Field :=
  (m.fields ++ mentions (activeScopes m inline)).toFinset

/-- Whether a call succeeds and the fields of the model then have these raw values. -/
def stores (m : Model) (raw : Field → Nat) : Except Fault (Except Error Unit × Workspace) → Bool
  | .ok (.ok (), ws) => m.fields.all fun f => (ws.slot f).raw == raw f
  | _ => false

theorem mem_callFields : f ∈ callFields m inline ↔ f ∈ activeFields m inline := by
  unfold callFields
  rw [List.mem_toFinset, List.mem_append]
  constructor
  · rintro (hf | hf)
    · exact mem_activeFields_of_mem hf
    · exact mem_activeFields_of_mem_mentions hf
  · intro hf
    rcases Field.mem_collect.1 hf with hf | hf
    · exact Or.inl hf
    · obtain ⟨s, hs, hf⟩ := List.mem_flatMap.1 hf
      obtain ⟨e, he, hf⟩ := List.mem_flatMap.1 hf
      rw [Expr.fields_eq, Field.mem_collect] at hf
      exact Or.inr (List.mem_flatMap.2 ⟨s, hs, List.mem_flatMap.2 ⟨e, he,
        hf.resolve_left List.not_mem_nil⟩⟩)

/-- Solutions with the same values for the fields of the model are equal. -/
theorem Solves.ext {raw' : Field → Nat} (h : Solves ws m inline raw)
    (h' : Solves ws m inline raw') (hfields : ∀ f ∈ m.fields, raw f = raw' f) : raw = raw' := by
  funext f
  by_cases hf : f ∈ m.fields
  · exact hfields f hf
  · rw [h.keeps f fun hsolved => hf hsolved.1, h'.keeps f fun hsolved => hf hsolved.1]

/-! ## Assignments and solutions -/

/-- A sum over the fields of a call, in the order in which they are declared. -/
theorem sum_callFields (m : Model) (inline : Scope) (w : Field → Nat) :
    ∑ f ∈ callFields m inline, w f =
      Layout.total ((Field.collect [] (activeFields m inline)).map w) := by
  have hset : callFields m inline = (Field.collect [] (activeFields m inline)).toFinset := by
    ext f
    rw [mem_callFields, List.mem_toFinset, Field.mem_collect, List.mem_nil_iff, false_or]
  rw [hset, List.sum_toFinset _ (Field.nodup_collect List.nodup_nil _), Layout.total_eq_sum]

/-- The variables are the bits of the fields of the call. -/
theorem Posed.numVars_eq (h : Posed r ws m inline l e) :
    l.solver.numVars = ∑ f ∈ callFields m inline, (ws.slot f).width := by
  rw [sum_callFields, ← h.fields]
  exact h.full

/-- **The solutions are the readings of the models.** -/
theorem Posed.image_reading (h : Posed r ws m inline l e)
    (hφ : ∀ ρ, φ ρ = true ↔ Solves ws m inline (reading ws l ρ)) :
    (fun values => reading ws l (assign values)) ''
      {values : Fin l.solver.numVars → Bool | φ (assign values) = true} =
        solutions ws m inline := by
  ext raw
  constructor
  · rintro ⟨values, hvalues, rfl⟩
    exact (hφ _).1 hvalues
  · intro hraw
    obtain ⟨values, rfl⟩ := h.exists_reading hraw
    exact ⟨values, (hφ _).2 hraw, rfl⟩

theorem Posed.finite_solutions (h : Posed r ws m inline l e) :
    (solutions ws m inline).Finite := by
  obtain ⟨φ, -, -, hφ⟩ := h.denotes
  rw [← h.image_reading hφ]
  exact (Set.toFinite _).image _

/-- There are as many models as solutions. -/
theorem Posed.models_eq (h : Posed r ws m inline l e)
    (hφ : ∀ ρ, φ ρ = true ↔ Solves ws m inline (reading ws l ρ)) :
    models l.solver.numVars φ = (solutions ws m inline).ncard := by
  rw [← ncard_models, ← h.image_reading hφ,
    Set.ncard_image_of_injective _ (h.valid.reading_injective h.full)]

/-- The formula has as many satisfying assignments as the call has solutions. -/
theorem Posed.ncard_satisfying (h : Posed r ws m inline l e) :
    (satisfying l (.ofBit e)).ncard = (solutions ws m inline).ncard := by
  obtain ⟨φ, he, hφ⟩ := h.holds
  have hset : satisfying l (.ofBit e) = {values | φ (assign values) = true} := by
    ext values
    show (∃ x, BitVector.valueOf l.solver.store (assign values) [e] = .ok x ∧ x ≠ 0) ↔ _
    rw [(Denotes.spells he).valueOf]
    constructor
    · rintro ⟨x, hx, hne⟩
      obtain rfl := Except.ok.inj hx
      cases hvalue : φ (assign values) with
      | false =>
        rw [hvalue] at hne
        exact absurd rfl hne
      | true => exact hvalue
    · intro hvalue
      refine ⟨_, rfl, ?_⟩
      rw [hvalue]
      exact Nat.one_ne_zero
  rw [hset, ncard_models]
  exact h.models_eq hφ

/-! ## The chance of a solution -/

/-- What is written for an assignment is the solution that it reads as. -/
theorem Posed.stores_conclude (h : Posed r ws m inline l e)
    {values values' : Fin l.solver.numVars → Bool}
    (hvalues : Solves ws m inline (reading ws l (assign values)))
    (hvalues' : Solves ws m inline (reading ws l (assign values'))) :
    stores m (reading ws l (assign values'))
      (conclude ws m l (.ok (some (Array.ofFn values)))) = true ↔ values = values' := by
  obtain ⟨ws', hconclude, hholds⟩ := h.conclude_eq hvalues
  have hraw : ∀ f, (ws'.slot f).raw = reading ws l (assign values) f := fun f => by
    rw [hholds f, Slot.setRaw_raw (hvalues.lt f)]
  rw [hconclude]
  unfold stores
  simp only [hraw, List.all_eq_true, beq_iff_eq]
  constructor
  · -- the other fields of both solutions are as they were, so the assignments read the same
    exact fun hfields => h.valid.reading_injective h.full (hvalues.ext hvalues' hfields)
  · rintro rfl f _
    rfl

/-- **Every solution is stored with the same chance.** -/
theorem Posed.chance_stores (h : Posed r ws m inline l e)
    (hraw : Solves ws m inline raw) :
    (draw r ws m inline).chance (stores m raw) = 1 / (solutions ws m inline).ncard := by
  obtain ⟨φ, he, hwithin, hφ⟩ := h.denotes
  obtain ⟨values₀, rfl⟩ := h.exists_reading hraw
  have hsat := (hφ _).2 hraw
  have hzero : e ≠ .zero := by
    rintro rfl
    rw [he.unique (denotes_zero h.valid.store.reduced)] at hsat
    cases hsat
  -- the mean over the models of an indicator
  unfold Sampler.chance
  rw [h.draw_eq, Sampler.mean_bind,
    h.valid.store.reduced.sample_mean h.numVars_lt he hwithin hzero, h.models_eq hφ]
  refine congrArg (· / _) ?_
  -- one assignment reads as the solution
  rw [Finset.sum_eq_single_of_mem values₀ (Finset.mem_univ _) fun values _ hne => ?_]
  · rw [if_pos hsat]
    exact if_pos ((h.stores_conclude hraw hraw).2 rfl)
  · split_ifs with hvalues
    · exact if_neg fun hstores => hne ((h.stores_conclude ((hφ _).1 hvalues) hraw).1 hstores)
    · rfl

/-- **Randomization is uniform.** The variables of the formula are the bits of the fields of the
call, its satisfying assignments are as many as the solutions, and the draw that every source
answers stores each solution with the same chance. All this holds unless the restrictions of the
fields outgrow the storage. -/
theorem Lowers.uniform (h : Lowers r ws m inline c l) :
    (∃ t l', (formula ws m inline).run.run (.start r.solver.reset) = .ok (.ok t, l') ∧
      l'.solver.numVars = ∑ f ∈ callFields m inline, (ws.slot f).width ∧
      (solutions ws m inline).Finite ∧
      (satisfying l' t).ncard = (solutions ws m inline).ncard ∧
      (∀ g, ((r.reseed g).randomizeWith ws m inline).map (fun o => (o.result, o.workspace)) =
        ((draw r ws m inline).run g).1) ∧
      ∀ raw, Solves ws m inline raw →
        (draw r ws m inline).chance (stores m raw) = 1 / (solutions ws m inline).ncard) ∨
    (r.randomizeWith ws m inline = .error .storageExhausted ∧
      Outgrows (start r.solver.reset) (formula ws m inline).run) := by
  rcases h.exists_posed with ⟨l', e, hposed⟩ | hout
  · exact Or.inl ⟨.ofBit e, l', hposed.run, hposed.numVars_eq, hposed.finite_solutions,
      hposed.ncard_satisfying, run_draw r ws m inline, fun raw hraw => hposed.chance_stores hraw⟩
  · exact Or.inr ⟨randomizeWith_of_outgrows hout, hout⟩

/-- Two is one of the three values below the one that turns to zero. -/
theorem twoBits_uniform : (draw (ofSeed 7 .interleaved) twoBits twoBitsModel ⟨[turned]⟩).chance
    (stores twoBitsModel (holding 2)) = 1 / 3 := by
  obtain ⟨c, l, h⟩ := twoBits_lowers
  obtain ⟨t, l', -, -, -, -, -, hchance⟩ | ⟨-, hout⟩ := h.uniform
  swap
  · exact absurd hout (not_outgrows_of_isOk (by decide +kernel))
  have hset : solutions twoBits twoBitsModel ⟨[turned]⟩ = holding '' ↑(Finset.range 3) := by
    ext raw
    refine twoBits_solves_iff.trans ⟨?_, ?_⟩
    · rintro ⟨n, hn, rfl⟩
      exact ⟨n, Finset.mem_coe.2 (Finset.mem_range.2 hn), rfl⟩
    · rintro ⟨n, hn, rfl⟩
      exact ⟨n, Finset.mem_range.1 (Finset.mem_coe.1 hn), rfl⟩
  -- the solutions are told apart by the value of the one field
  have hinj : Function.Injective holding := fun n n' heq => congrFun heq ⟨0⟩
  have hthree : (solutions twoBits twoBitsModel ⟨[turned]⟩).ncard = 3 := by
    rw [hset, Set.ncard_image_of_injective _ hinj, Set.ncard_coe_finset, Finset.card_range]
  rw [hchance _ (twoBits_solves_iff.2 ⟨2, by decide, rfl⟩), hthree]
  rfl

end Randomizer

end Stimulus

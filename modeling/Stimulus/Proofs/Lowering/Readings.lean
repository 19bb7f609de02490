import Mathlib.Data.Set.Function
import Stimulus.Proofs.Diagram.Count
import Stimulus.Proofs.Lowering.Fields

/-!
# Readings

An assignment to the variables gives every field a raw value: the one that its term
reads as, or the present one where the field has no term (`Lowering.reading`). Where
all variables belong to fields (`Lowering.Full`), assignments and raw values in range
correspond one to one (`Lowering.Valid.reading_injective`,
`Lowering.Valid.exists_reading`).
-/

set_option autoImplicit false

namespace Stimulus

open Diagram Store

namespace Lowering

variable {ws : Workspace} {l l' : Lowering} {ρ σ : Assignment} {f : Field} {t : BitVector}

/-! ## Raw values under an assignment -/

/-- The raw value of a field under an assignment: what its term reads as, or the present value if
it has no term. -/
def reading (ws : Workspace) (l : Lowering) (ρ : Assignment) (f : Field) : Nat :=
  match l.term? f with
  | some t => ((BitVector.valueOf l.solver.store ρ t.bits).toOption).getD 0
  | none => (ws.slot f).raw

theorem Valid.term?_of_mem (hl : l.Valid ws) (h : (f, t) ∈ l.terms.toList) :
    l.term? f = some t := by
  cases hterm : l.term? f with
  | none => exact absurd (List.mem_map_of_mem (f := Prod.fst) h) (term?_eq_none hterm)
  | some u =>
    -- no field has two terms
    have hpair := List.inj_on_of_nodup_map hl.nodup h (term?_eq_some hterm) rfl
    rw [(Prod.mk.inj hpair).2]

/-- The answer to a request is the term of the field from then on. -/
theorem Valid.term?_of_fieldTerm (hl : l.Valid ws)
    (hr : (fieldTerm ws f).run.run l = .ok (.ok t, l')) : l'.term? f = some t := by
  have hl' : l'.Valid ws := (hl.leads_fieldTerm f).valid hr
  rcases run_fieldTerm_cases hl.indexed hr with
    ⟨u, hterm, hu, rfl⟩ | ⟨-, u, solver, -, hu, rfl⟩ | ⟨-, -, hu, -⟩
  · cases hu
    exact hterm
  · cases hu
    apply hl'.term?_of_mem
    rw [TermTable.toList_append]
    exact List.mem_append_right _ (List.mem_singleton.2 rfl)
  · cases hu

theorem Valid.reading_of_laid (hl : l.Valid ws) {p : Field × BitVector} {vars : List Nat}
    (hp : p ∈ l.terms.toList) (h : Laid ws l.solver.store p vars) (ρ : Assignment) :
    reading ws l ρ p.1 = valueAt ρ vars := by
  unfold reading
  rw [hl.term?_of_mem hp]
  show ((BitVector.valueOf l.solver.store ρ p.2.bits).toOption).getD 0 = _
  rw [h.valueOf]
  rfl

theorem reading_of_not_mem (hf : f ∉ l.fields) (ρ : Assignment) :
    reading ws l ρ f = (ws.slot f).raw := by
  unfold reading
  cases hterm : l.term? f with
  | none => rfl
  | some t => exact absurd (List.mem_map_of_mem (term?_eq_some hterm)) hf

theorem Valid.reads_reading (hl : l.Valid ws) (ρ : Assignment) : l.Reads ρ (reading ws l ρ) := by
  intro p hp
  obtain ⟨vars, hvars⟩ := hl.laid_of_mem hp
  rw [hvars.valueOf, hl.reading_of_laid hp hvars]

theorem Valid.reading_lt (hl : l.Valid ws) (ρ : Assignment) (f : Field) :
    reading ws l ρ f < 2 ^ (ws.slot f).width := by
  by_cases hf : f ∈ l.fields
  · obtain ⟨p, hp, rfl⟩ := List.mem_map.1 hf
    obtain ⟨vars, hvars⟩ := hl.laid_of_mem hp
    rw [hl.reading_of_laid hp hvars]
    exact hvars.spells.lt ρ
  · rw [reading_of_not_mem hf]
    exact (ws.slot f).raw_lt_two_pow

/-- The raw values that an assignment reads as are its reading. -/
theorem Valid.reading_eq (hl : l.Valid ws) {raw : Field → Nat} (hr : l.Reads ρ raw)
    (hout : ∀ f, f ∉ l.fields → raw f = (ws.slot f).raw) : reading ws l ρ = raw := by
  funext f
  by_cases hf : f ∈ l.fields
  · obtain ⟨p, hp, rfl⟩ := List.mem_map.1 hf
    exact Except.ok.inj ((hl.reads_reading ρ p hp).symm.trans (hr p hp))
  · rw [reading_of_not_mem hf, hout f hf]

/-- A reading depends on the variables in use only. -/
theorem Valid.reading_congr (hl : l.Valid ws)
    (h : ∀ v, 0 < v → v ≤ l.solver.numVars → ρ v = σ v) : reading ws l ρ = reading ws l σ := by
  refine hl.reading_eq (fun p hp => ?_) fun f hf => reading_of_not_mem hf σ
  obtain ⟨vars, hvars, -, hrange⟩ := hl.laid
  obtain ⟨vs, hvs, hlaid⟩ := exists_of_forall₂ hvars hp
  rw [hlaid.valueOf, hl.reading_of_laid hp hlaid]
  refine congrArg Except.ok (valueAt_congr fun v hv => ?_)
  obtain ⟨hpos, hle⟩ := hrange v (List.mem_flatten.2 ⟨vs, hvs, hv⟩)
  exact h v hpos hle

/-! ## Lowerings without spare variables -/

/-- There are as many variables as the fields have bits. -/
def Full (ws : Workspace) (l : Lowering) : Prop :=
  l.solver.numVars = Layout.total (l.fields.map fun f => (ws.slot f).width)

theorem GrowsTo.full {s : Solver} (h : GrowsTo ws (start s) l) (hs : s.numVars = 0) :
    l.Full ws := by
  obtain ⟨more, hmore, hnum⟩ := h.terms
  obtain rfl : l.terms.toList = more := hmore
  have hzero : (start s).solver.numVars = 0 := hs
  unfold Full fields
  rw [hnum, hzero, Nat.zero_add, List.map_map]
  rfl

/-- The variables of the terms, and how many they are. -/
theorem Valid.exists_vars (hl : l.Valid ws) (hfull : l.Full ws) :
    ∃ vars, List.Forall₂ (Laid ws l.solver.store) l.terms.toList vars ∧
      vars.flatten.Perm (List.range' 1 l.solver.numVars) := by
  obtain ⟨vars, hvars, hnodup, hrange⟩ := hl.laid
  refine ⟨vars, hvars, ?_⟩
  -- there are as many of them as variables in use, so none is left out
  have hlengths : vars.map List.length = l.fields.map fun f => (ws.slot f).width := by
    unfold fields
    rw [List.map_map]
    exact map_eq_of_forall₂ hvars.flip fun _ _ h => h.length_eq
  refine (List.subperm_of_subset hnodup fun v hv => ?_).perm_of_length_le ?_
  · have := hrange v hv
    rw [List.mem_range'_1]
    omega
  · rw [List.length_range', Layout.length_flatten_eq_total, hlengths]
    exact Nat.le_of_eq hfull

/-- Readings tell assignments apart. -/
theorem Valid.reading_injective (hl : l.Valid ws) (hfull : l.Full ws) :
    Function.Injective fun values : Fin l.solver.numVars → Bool =>
      reading ws l (assign values) := by
  intro values values' h
  obtain ⟨vars, hvars, hperm⟩ := hl.exists_vars hfull
  have hagree : ∀ v, 0 < v → v ≤ l.solver.numVars → assign values v = assign values' v := by
    intro v hpos hle
    have hmem : v ∈ vars.flatten := hperm.mem_iff.2 (by rw [List.mem_range'_1]; omega)
    obtain ⟨vs, hvs, hv⟩ := List.mem_flatten.1 hmem
    -- the field that owns the variable has one reading under both
    obtain ⟨p, hp, hlaid⟩ := exists_of_forall₂ hvars.flip hvs
    have hp' := congrFun h p.1
    dsimp only at hp'
    rw [hl.reading_of_laid hp hlaid, hl.reading_of_laid hp hlaid] at hp'
    exact eq_of_valueAt_eq hp' v hv
  funext i
  have hi := hagree (i + 1) (Nat.succ_pos _) i.isLt
  rw [assign_apply _ (Nat.succ_pos _) i.isLt, assign_apply _ (Nat.succ_pos _) i.isLt] at hi
  exact hi

/-- Every choice of raw values in range is a reading. -/
theorem Valid.exists_reading (hl : l.Valid ws) {raw : Field → Nat}
    (hraw : ∀ f ∈ l.fields, raw f < 2 ^ (ws.slot f).width)
    (hout : ∀ f, f ∉ l.fields → raw f = (ws.slot f).raw) :
    ∃ values : Fin l.solver.numVars → Bool, reading ws l (assign values) = raw := by
  obtain ⟨ρ, hρ⟩ := hl.exists_reads hraw
  refine ⟨ρ.values _, ?_⟩
  rw [hl.reading_congr fun v hpos hle => assign_values ρ hpos hle]
  exact hl.reading_eq hρ hout

end Lowering

end Stimulus

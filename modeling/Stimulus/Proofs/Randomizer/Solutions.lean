import Stimulus.Proofs.Diagram.Sample
import Stimulus.Proofs.Lowering.Reached
import Stimulus.Proofs.Randomizer.Formula

/-!
# Calls and their solutions

A solution of a call (`Randomizer.Solves`) gives the random fields of the model
values of their types under which all constraints hold, and leaves everything else
as it is. A call whose constraints lower (`Randomizer.Lowers`) asks for a draw from
a diagram that holds exactly under the assignments that read as solutions
(`Randomizer.Posed`, `Randomizer.Lowers.exists_posed`), as long as the restrictions of
the fields fit the storage.
-/

set_option autoImplicit false

namespace Stimulus

open Diagram Store Quantity Lowering

namespace Randomizer

variable {r : Randomizer} {ws : Workspace} {m : Model} {inline : Scope} {c t : BitVector}
  {l : Lowering} {e : Edge} {f : Field} {raw : Field → Nat}

/-! ## Solutions -/

/-- Raw values of all fields that solve a call. -/
structure Solves (ws : Workspace) (m : Model) (inline : Scope) (raw : Field → Nat) : Prop where
  /-- Random fields of the model have values of their types. -/
  inRange : ∀ f ∈ m.fields, (ws.slot f).isRandom = true → raw f < 2 ^ (ws.slot f).width
  /-- Random fields over an enumeration have the values of members. -/
  member : ∀ f ∈ m.fields, (ws.slot f).isRandom = true → ∀ d, (ws.slot f).type = .enumeration d →
    ∃ e ∈ d.entries, (ws.quantity raw f).toInt = e.value.toInt
  /-- All other fields have their present values. -/
  keeps : ∀ f, ¬(f ∈ m.fields ∧ (ws.slot f).isRandom = true) → raw f = (ws.slot f).raw
  /-- The constraints of the enabled blocks hold. -/
  blocks : ∀ b ∈ m.blocks, b.enabled = true → ∀ e ∈ b.scope.constraints,
    e.holds (ws.quantity raw) = true
  /-- The constraints given along hold. -/
  inline : ∀ e ∈ inline.constraints, e.holds (ws.quantity raw) = true

theorem isSolved_iff : isSolved ws m f = true ↔ f ∈ m.fields ∧ (ws.slot f).isRandom = true := by
  unfold isSolved
  rw [Bool.and_eq_true, decide_eq_true_eq, and_comm]

/-- The constraints of a call are those of the enabled blocks and those given along. -/
theorem constraintsHold_iff (fields : Field → Quantity) :
    constraintsHold m inline fields = true ↔
      (∀ b ∈ m.blocks, b.enabled = true → ∀ e ∈ b.scope.constraints, e.holds fields = true) ∧
        ∀ e ∈ inline.constraints, e.holds fields = true := by
  unfold constraintsHold activeScopes Model.enabledScopes
  simp only [List.all_append, Bool.and_eq_true, List.all_eq_true, List.mem_map, List.mem_filter,
    List.mem_singleton, forall_exists_index, and_imp]
  constructor
  · rintro ⟨hblocks, hinline⟩
    exact ⟨fun b hb hon => hblocks _ b hb hon rfl, hinline _ rfl⟩
  · rintro ⟨hblocks, hinline⟩
    refine ⟨?_, ?_⟩
    · rintro s b hb hon rfl
      exact hblocks b hb hon
    · rintro s rfl
      exact hinline

theorem mem_activeFields_of_mem (hf : f ∈ m.fields) : f ∈ activeFields m inline :=
  Field.mem_collect.2 (Or.inl hf)

/-- Values in range solve a call where its constraints hold and it admits the values. -/
theorem solves_iff (hraw : ∀ f, raw f < 2 ^ (ws.slot f).width)
    (hout : ∀ f, f ∉ activeFields m inline → raw f = (ws.slot f).raw) :
    (constraintsHold m inline (ws.quantity raw) = true ∧
      ∀ f ∈ activeFields m inline, Admits ws m raw f) ↔ Solves ws m inline raw := by
  rw [constraintsHold_iff]
  constructor
  · rintro ⟨⟨hblocks, hinline⟩, hadmits⟩
    refine ⟨fun f _ _ => hraw f, fun f hf hrandom => ?_, fun f hkept => ?_, hblocks, hinline⟩
    · have h := hadmits f (mem_activeFields_of_mem hf)
      unfold Admits at h
      rwa [if_pos (isSolved_iff.2 ⟨hf, hrandom⟩)] at h
    · by_cases hf : f ∈ activeFields m inline
      · have h := hadmits f hf
        unfold Admits at h
        rwa [if_neg fun hsolved => hkept (isSolved_iff.1 hsolved)] at h
      · exact hout f hf
  · intro h
    refine ⟨⟨h.blocks, h.inline⟩, fun f _ => ?_⟩
    unfold Admits
    split_ifs with hsolved
    · obtain ⟨hf, hrandom⟩ := isSolved_iff.1 hsolved
      exact h.member f hf hrandom
    · exact h.keeps f fun hf => hsolved (isSolved_iff.2 hf)

theorem Solves.lt (h : Solves ws m inline raw) (f : Field) : raw f < 2 ^ (ws.slot f).width := by
  by_cases hf : f ∈ m.fields ∧ (ws.slot f).isRandom = true
  · exact h.inRange f hf.1 hf.2
  · rw [h.keeps f hf]
    exact (ws.slot f).raw_lt_two_pow

/-! ## The diagram of a call -/

/-- The constraints of a call lower to the term `c` without an error. -/
def Lowers (r : Randomizer) (ws : Workspace) (m : Model) (inline : Scope) (c : BitVector)
    (l : Lowering) : Prop :=
  (lowerConstraints ws m inline).run.run (.start r.solver.reset) = .ok (.ok c, l)

/-- The formula of the call is the single bit `e`, which is true where the assignment reads as a
solution. -/
structure Posed (r : Randomizer) (ws : Workspace) (m : Model) (inline : Scope) (l : Lowering)
    (e : Edge) : Prop where
  run : (formula ws m inline).run.run (.start r.solver.reset) = .ok (.ok (.ofBit e), l)
  valid : l.Valid ws
  /-- All variables belong to fields. -/
  full : l.Full ws
  /-- The fields of the call have terms, and no others. -/
  fields : l.fields = Field.collect [] (activeFields m inline)
  /-- The terms of the fields are laid out together. -/
  planned : Planned ws (start r.solver.reset) l
  /-- The nodes fit the storage, so the variables do as well. -/
  numVars_lt : l.solver.numVars < lastVariable
  /-- The bit is a function of the assignment. -/
  holds : ∃ φ, l.solver.store.Denotes e φ ∧
    ∀ ρ, φ ρ = true ↔ Solves ws m inline (reading ws l ρ)

/-- The fields of the model have terms. -/
theorem Posed.mem_fields (h : Posed r ws m inline l e) (hf : f ∈ m.fields) :
    f ∈ l.fields := by
  rw [h.fields, Field.mem_collect]
  exact Or.inr (mem_activeFields_of_mem hf)

/-- Every solution is a reading: it keeps what has no term. -/
theorem Posed.exists_reading (h : Posed r ws m inline l e) (hraw : Solves ws m inline raw) :
    ∃ values : Fin l.solver.numVars → Bool, reading ws l (assign values) = raw := by
  refine h.valid.exists_reading (fun f _ => hraw.lt f) fun f hf => ?_
  exact hraw.keeps f fun hsolved => hf (h.mem_fields hsolved.1)

/-- The formula is the conjunction of the constraints, with the restrictions added. -/
theorem formula_eq (ws : Workspace) (m : Model) (inline : Scope) :
    formula ws m inline = lowerConstraints ws m inline >>= fun c =>
      get >>= fun l => restrict ws m l.fields c := by
  unfold formula lowerConstraints
  rw [bind_assoc]

/-- The formula of a call is the conjunction of its constraints and of the restrictions. -/
theorem leads_formula (hl : l.Valid ws) (m : Model) (inline : Scope) :
    Leads ws l (formula ws m inline) (activeFields m inline) fun t l' =>
      (l'.Means ws t fun fields => flag (constraintsHold m inline fields &&
        l'.fields.all (restrictionHolds ws m fields))) ∧ Planned ws l l' := by
  rw [formula_eq, ← List.append_nil (activeFields m inline)]
  refine (leads_lowerConstraints hl m inline).bind fun c l₁ h₁ _ hc => Leads.get_bind ?_
  have hrestrict := succeeds_restrict (m := m) l₁.fields l₁ c _ h₁ (fun f hf => hf) hc.1
  refine hrestrict.leads.mono fun t l₂ _ g₂ hfields ht => ?_
  rw [Field.collect_nil] at hfields
  exact ⟨by rwa [hfields], hc.2.grow h₁ g₂ hfields⟩

/-- An assignment reads as a solution if the constraints hold for its values and the call admits
them. -/
theorem solves_reading_iff (hl : l.Valid ws)
    (hfields : l.fields = Field.collect [] (activeFields m inline)) (ρ : Assignment) :
    Solves ws m inline (reading ws l ρ) ↔
      constraintsHold m inline (ws.quantity (reading ws l ρ)) = true ∧
        ∀ f ∈ l.fields, Admits ws m (reading ws l ρ) f := by
  have hmem : ∀ f, f ∈ l.fields ↔ f ∈ activeFields m inline := fun f => by
    rw [hfields, Field.mem_collect, List.mem_nil_iff, false_or]
  rw [← solves_iff (hl.reading_lt ρ) fun f hf => reading_of_not_mem (fun h => hf ((hmem f).1 h)) ρ]
  simp only [hmem]

/-- What is read from a lowering whose formula holds is a solution. -/
theorem reading_solves_iff (hl : l.Valid ws)
    (hfields : l.fields = Field.collect [] (activeFields m inline)) (ρ : Assignment) :
    (constraintsHold m inline (ws.quantity (reading ws l ρ)) &&
      l.fields.all (restrictionHolds ws m (ws.quantity (reading ws l ρ)))) = true ↔
      Solves ws m inline (reading ws l ρ) := by
  rw [solves_reading_iff hl hfields, Bool.and_eq_true, List.all_eq_true]
  refine and_congr_right fun _ => forall₂_congr fun f _ => ?_
  exact restrictionHolds_iff (hl.reading_lt ρ f)

/-- **A formula that lowers poses the diagram of its call.** -/
theorem posed_of_run (hr : (formula ws m inline).run.run (.start r.solver.reset) =
    .ok (.ok t, l)) : ∃ e, t = .ofBit e ∧ Posed r ws m inline l e := by
  have hstart := sound_start_reset ws r.solver
  have hsound := hstart.step (fun hl => leads_formula hl m inline) hr
  obtain ⟨hl, hg, hfields, ⟨Q, hQ, hvalue⟩, hplanned⟩ :=
    (leads_formula hstart.valid m inline).of_run hr
  -- what means a truth value is a single bit already
  obtain ⟨e, rfl, he⟩ := (hQ.congr fun ρ => hvalue ρ _ (hl.reads_reading ρ)).exists_bit
  exact ⟨e, rfl, hr, hl, hg.full rfl, hfields, hplanned, hsound.numVars_lt, _, he,
    reading_solves_iff hl hfields⟩

/-- **A call whose constraints lower poses its diagram**, unless the restrictions outgrow the
storage. -/
theorem Lowers.exists_posed (h : Lowers r ws m inline c l) :
    (∃ l' e, Posed r ws m inline l' e) ∨
      Outgrows (start r.solver.reset) (formula ws m inline).run := by
  have hstart : Valid ws (start r.solver.reset) := valid_start (Solver.valid_reset r.solver)
  rcases leads_lowerConstraints hstart m inline with ⟨x, l₁, hyields, hl, -, hok⟩ | hout
  · obtain ⟨rfl, rfl, -⟩ := hyields.eq_of_run h
    obtain ⟨-, hc, -⟩ := hok c rfl
    -- the restrictions cannot fail
    obtain ⟨t, l₂, hyields', -, hg, -⟩ := Succeeds.get_bind (k := fun l => restrict ws m l.fields c)
      (succeeds_restrict l.fields l c _ hl (fun f hf => hf) hc)
    have hformula := yields_bind (k := fun c => get >>= fun l => restrict ws m l.fields c)
      hyields hyields' hg.store.size_le
    rw [← formula_eq] at hformula
    refine hformula.run_or_outgrows.imp_left fun hr => ?_
    obtain ⟨e, -, hposed⟩ := posed_of_run hr.1
    exact ⟨l₂, e, hposed⟩
  · exact absurd h hout.not_ok

/-- Where the formula outgrows the storage, the call ends with the full storage. -/
theorem randomizeWith_of_outgrows
    (h : Outgrows (start r.solver.reset) (formula ws m inline).run) :
    r.randomizeWith ws m inline = .error .storageExhausted := by
  have hrun : (formula ws m inline).run.run (.start r.solver.reset) =
      .error .storageExhausted := h.1
  unfold randomizeWith
  rw [hrun]
  rfl

end Randomizer

end Stimulus

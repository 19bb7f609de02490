import Stimulus.Proofs.Field.Legal
import Stimulus.Proofs.Lowering.Source
import Stimulus.Proofs.Randomizer.Solutions
import Stimulus.Proofs.Solver.Solution

/-!
# Calls

A call is a draw whose questions the source answers, and the questions do not depend
on the source (`Randomizer.run_draw`). So what holds of every value of the draw holds
of the call. Whatever the answers are, the call stores a solution or finds that there
is none (`Randomizer.Posed.always_draw`), and it changes solved fields only. So
randomization is sound and complete (`Randomizer.Lowers.sound_and_complete`).
-/

set_option autoImplicit false

namespace Stimulus

open Diagram Store Lowering Quantity

namespace Randomizer

variable {r : Randomizer} {ws : Workspace} {m : Model} {inline : Scope} {c t : BitVector}
  {l : Lowering} {e : Edge} {f : Field} {raw : Field → Nat}

/-- What is solved does not depend on the values. -/
theorem isSolved_setRaw (hf : f.id < ws.slots.size) (value : Nat) (g : Field) :
    isSolved (ws.setRaw f value) m g = isSolved ws m g := by
  unfold isSolved
  rw [Workspace.slot_setRaw hf]
  split
  · rename_i hg
    rw [hg]
    rfl
  · rfl

/-- **Writing back changes the solved fields among those given, and nothing else.** -/
theorem writeBack_spec {solver : Solver} {solution : Solution} :
    ∀ (ps : List (Field × BitVector)) (ws : Workspace),
      (∀ p ∈ ps, solver.read solution p.2 = .ok (raw p.1)) →
      ∃ ws', writeBack m solver solution ps ws = .ok ws' ∧ ∀ f, ws'.slot f =
        if f ∈ ps.map Prod.fst ∧ isSolved ws m f = true then (ws.slot f).setRaw (raw f)
        else ws.slot f := by
  intro ps
  induction ps with
  | nil => exact fun ws _ => ⟨ws, rfl, fun f => (if_neg fun h => List.not_mem_nil h.1).symm⟩
  | cons p ps ih =>
    obtain ⟨f, t⟩ := p
    intro ws hread
    have hrest := fun q hq => hread q (List.mem_cons_of_mem _ hq)
    unfold writeBack
    by_cases hf : isSolved ws m f = true
    · have hlt := Workspace.lt_size_of_isRandom (isSolved_iff.1 hf).2
      have hslot := Workspace.slot_setRaw hlt (raw f)
      obtain ⟨ws', hr, hws'⟩ := ih (ws.setRaw f (raw f)) hrest
      refine ⟨ws', ?_, fun g => ?_⟩
      · rw [if_pos hf, hread _ List.mem_cons_self]
        exact hr
      · rw [hws' g, isSolved_setRaw hlt, hslot g]
        simp only [List.map_cons, List.mem_cons]
        by_cases hg : g = f
        · -- if the field comes again, it is given the same value again
          subst hg
          rw [if_pos rfl, Slot.setRaw_setRaw, ite_self, if_pos ⟨Or.inl rfl, hf⟩]
        · simp only [hg, false_or, if_false]
    · obtain ⟨ws', hr, hws'⟩ := ih ws hrest
      refine ⟨ws', ?_, fun g => ?_⟩
      · rw [if_neg hf]
        exact hr
      · rw [hws' g]
        simp only [List.map_cons, List.mem_cons]
        refine if_congr ⟨fun h => ⟨Or.inr h.1, h.2⟩, fun h => ⟨h.1.resolve_left ?_, h.2⟩⟩ rfl rfl
        rintro rfl
        exact hf h.2

/-- Writing back reads from the store only. -/
theorem writeBack_reseed (solver : Solver) (g : Source) (solution : Solution)
    (ps : List (Field × BitVector)) (ws : Workspace) :
    writeBack m (solver.reseed g) solution ps ws = writeBack m solver solution ps ws := by
  induction ps generalizing ws with
  | nil => rfl
  | cons p ps ih =>
    obtain ⟨f, t⟩ := p
    unfold writeBack
    simp only [ih]
    rfl

/-! ## Calls as draws -/

/-- The randomizer with another source of draws. -/
def reseed (r : Randomizer) (g : Source) : Randomizer := ⟨r.solver.reseed g⟩

/-- What a call leaves behind after a draw: a solution is written to the fields. -/
def conclude (ws : Workspace) (m : Model) (l : Lowering) :
    Except Fault (Option (Array Bool)) → Except Fault (Except Error Unit × Workspace)
  | .error fault => .error fault
  | .ok none => .ok (.error .unsatisfiable, ws)
  | .ok (some values) =>
    (writeBack m l.solver ⟨values⟩ l.terms.toList ws).map fun ws => (.ok (), ws)

theorem conclude_reseed (ws : Workspace) (m : Model) (l : Lowering) (g : Source)
    (values : Except Fault (Option (Array Bool))) :
    conclude ws m (l.reseed g) values = conclude ws m l values := by
  cases values with
  | error fault => rfl
  | ok values =>
    cases values with
    | none => rfl
    | some values =>
      exact congrArg (Except.map fun ws => (Except.ok (), ws))
        (writeBack_reseed l.solver g ⟨values⟩ l.terms.toList ws)

/-- A call whose questions are still to be answered. -/
def draw (r : Randomizer) (ws : Workspace) (m : Model) (inline : Scope) :
    Sampler (Except Fault (Except Error Unit × Workspace)) :=
  match (formula ws m inline).run.run (.start r.solver.reset) with
  | .error fault => .done (.error fault)
  | .ok (.error e, _) => .done (.ok (.error e, ws))
  | .ok (.ok t, l) =>
    match Solver.build t.truth l.solver with
    | .error fault => .done (.error fault)
    | .ok (e, solver) => (solver.store.sample e solver.numVars).run >>= fun values =>
      .done (conclude ws m ⟨solver, l.table⟩ values)

/-- The formula of a call does not depend on the source of draws. -/
theorem quiet_formula (ws : Workspace) (m : Model) (inline : Scope) :
    Lowering.Quiet (formula ws m inline) :=
  inherited_formula inherited_quiet m inline

/-- Lowering the formula of a call draws nothing. -/
theorem source_of_formula {x : Except Error BitVector}
    (h : (formula ws m inline).run.run (.start r.solver.reset) = .ok (x, l)) :
    l.solver.source = r.solver.source := by
  have hquiet := quiet_formula ws m inline (.start r.solver.reset) r.solver.source
  have hself : (start r.solver.reset).reseed r.solver.source = start r.solver.reset := rfl
  rw [hself, h] at hquiet
  have hl : l = l.reseed r.solver.source := (Prod.mk.inj (Except.ok.inj hquiet)).2
  rw [hl]
  rfl

/-- The three ways in which a call ends: its formula does not lower, its formula has no solution, or
a solution is written back. -/
theorem randomizeWith_cases {o : Outcome} (h : r.randomizeWith ws m inline = .ok o) :
    (∃ e l, (formula ws m inline).run.run (.start r.solver.reset) = .ok (.error e, l) ∧
      o = ⟨.error e, ⟨l.solver⟩, ws⟩) ∨
    (∃ t l s, (formula ws m inline).run.run (.start r.solver.reset) = .ok (.ok t, l) ∧
      (Solver.solve t).run l.solver = .ok (none, s) ∧ o = ⟨.error .unsatisfiable, ⟨s⟩, ws⟩) ∨
    ∃ t l solution s ws', (formula ws m inline).run.run (.start r.solver.reset) = .ok (.ok t, l) ∧
      (Solver.solve t).run l.solver = .ok (some solution, s) ∧
      writeBack m s solution l.terms.toList ws = .ok ws' ∧ o = ⟨.ok (), ⟨s⟩, ws'⟩ := by
  unfold randomizeWith at h
  obtain ⟨⟨x, l⟩, hr, h⟩ := exists_of_bind_eq_ok h
  cases x with
  | error e =>
    cases h
    exact Or.inl ⟨e, l, hr, rfl⟩
  | ok t =>
    obtain ⟨⟨solution, s⟩, hsolve, h⟩ := exists_of_bind_eq_ok h
    cases solution with
    | none =>
      cases h
      exact Or.inr (Or.inl ⟨t, l, s, hr, hsolve, rfl⟩)
    | some solution =>
      obtain ⟨ws', hwrite, h⟩ := exists_of_bind_eq_ok h
      cases h
      exact Or.inr (Or.inr ⟨t, l, solution, s, ws', hr, hsolve, hwrite, rfl⟩)

/-- A call is its draw, answered by the source, and leaves the source where the answers end. -/
theorem randomizeWith_eq_run_draw_source (r : Randomizer) (ws : Workspace) (m : Model)
    (inline : Scope) : (r.randomizeWith ws m inline).map
        (fun o => ((o.result, o.workspace), o.randomizer.solver.source)) =
      ((draw r ws m inline).run r.solver.source).1.map
        fun p => (p, ((draw r ws m inline).run r.solver.source).2) := by
  unfold randomizeWith draw
  cases hr : (formula ws m inline).run.run (.start r.solver.reset) with
  | error fault => rfl
  | ok p =>
    obtain ⟨x, l⟩ := p
    have hsource := source_of_formula hr
    cases x with
    | error e =>
      show Except.ok ((_, _), l.solver.source) = _
      rw [hsource]
      rfl
    | ok t =>
      dsimp only
      cases hb : Solver.build t.truth l.solver with
      | error fault =>
        show Except.map _ ((Solver.solve t).run l.solver >>= _) = _
        rw [Solver.solve_of_build_error hb]
        rfl
      | ok p =>
        obtain ⟨e, s⟩ := p
        -- neither lowering nor the edge of the formula has taken from the source
        have hs : s.source = l.solver.source := by
          obtain ⟨store, -, rfl⟩ := Solver.exists_of_build hb
          rfl
        show Except.map _ ((Solver.solve t).run l.solver >>= _) = _
        rw [Solver.solve_of_build hb, Sampler.run_bind, hs, hsource]
        cases hd : (s.store.sample e s.numVars).run.run r.solver.source with
        | mk values source =>
          cases values with
          | error fault => rfl
          | ok values =>
            cases values with
            | none => rfl
            | some values =>
              show Except.map _ (writeBack m (s.reseed source) ⟨values⟩ l.terms.toList ws >>= _) =
                ((writeBack m s ⟨values⟩ l.terms.toList ws).map _).map _
              rw [writeBack_reseed]
              cases writeBack m s ⟨values⟩ l.terms.toList ws <;> rfl

/-- What a call ends in is what its draw ends in. -/
theorem randomizeWith_eq_run_draw (r : Randomizer) (ws : Workspace) (m : Model) (inline : Scope) :
    (r.randomizeWith ws m inline).map (fun o => (o.result, o.workspace)) =
      ((draw r ws m inline).run r.solver.source).1 := by
  have h := congrArg (Except.map Prod.fst) (randomizeWith_eq_run_draw_source r ws m inline)
  cases hcall : r.randomizeWith ws m inline <;> rw [hcall] at h <;>
    cases hdraw : ((draw r ws m inline).run r.solver.source).1 <;> rw [hdraw] at h <;> exact h

/-- The questions of a call do not depend on the source. -/
theorem draw_reseed (r : Randomizer) (ws : Workspace) (m : Model) (inline : Scope)
    (g : Source) : draw (r.reseed g) ws m inline = draw r ws m inline := by
  have hquiet := quiet_formula ws m inline (.start r.solver.reset) g
  unfold draw
  show (match (formula ws m inline).run.run ((start r.solver.reset).reseed g) with
    | .error fault => _
    | .ok (.error e, _) => _
    | .ok (.ok t, l) => _) = _
  rw [hquiet]
  cases (formula ws m inline).run.run (.start r.solver.reset) with
  | error fault => rfl
  | ok p =>
    obtain ⟨x, l⟩ := p
    cases x with
    | error e => rfl
    | ok t =>
      show (match Solver.build t.truth (l.solver.reseed g) with
        | .error fault => _
        | .ok (e, solver) => _) = _
      rw [Solver.quiet_build t.truth l.solver g]
      dsimp only
      cases Solver.build t.truth l.solver with
      | error fault => rfl
      | ok p =>
        obtain ⟨e, s⟩ := p
        refine congrArg ((s.store.sample e s.numVars).run >>= ·) (funext fun values => ?_)
        exact congrArg Sampler.done (conclude_reseed ws m ⟨s, l.table⟩ g values)

/-- **A call is one draw, whatever the source is that answers it.** -/
theorem run_draw (r : Randomizer) (ws : Workspace) (m : Model) (inline : Scope) (g : Source) :
    ((r.reseed g).randomizeWith ws m inline).map (fun o => (o.result, o.workspace)) =
      ((draw r ws m inline).run g).1 := by
  rw [randomizeWith_eq_run_draw, draw_reseed]
  rfl

/-! ## What a call ends in -/

/-- The 64 bits that are read are all bits of a field. -/
theorem read_eq (hl : l.Valid ws) (values : Fin l.solver.numVars → Bool) {p : Field × BitVector}
    (hp : p ∈ l.terms.toList) : l.solver.read ⟨Array.ofFn values⟩ p.2 =
      .ok (reading ws l (assign values) p.1) := by
  obtain ⟨vars, hvars⟩ := hl.laid_of_mem hp
  have hle : p.2.bits.length ≤ 64 := by
    rw [hvars.spells.length]
    exact (ws.slot p.1).width_le
  unfold Solver.read
  rw [Solution.value_ofFn, List.take_of_length_le hle, hvars.valueOf, hl.reading_of_laid hp hvars]

/-- The workspace in which every field has the raw value of a solution. -/
def Holds (ws : Workspace) (raw : Field → Nat) (ws' : Workspace) : Prop :=
  ∀ f, ws'.slot f = (ws.slot f).setRaw (raw f)

theorem Posed.denotes (h : Posed r ws m inline l e) : ∃ φ, l.solver.store.Denotes e φ ∧
    Within l.solver.numVars φ ∧ ∀ ρ, φ ρ = true ↔ Solves ws m inline (reading ws l ρ) := by
  obtain ⟨φ, he, hφ⟩ := h.holds
  refine ⟨φ, he, fun ρ σ hρσ => ?_, hφ⟩
  rw [Bool.eq_iff_iff, hφ, hφ, h.valid.reading_congr hρσ]

/-- What is written for an assignment that reads as a solution. -/
theorem conclude_of_solves (hl : l.Valid ws) (hfields : ∀ f ∈ m.fields, f ∈ l.fields)
    {values : Fin l.solver.numVars → Bool}
    (hsolves : Solves ws m inline (reading ws l (assign values))) :
    ∃ ws', conclude ws m l (.ok (some (Array.ofFn values))) = .ok (.ok (), ws') ∧
      Holds ws (reading ws l (assign values)) ws' := by
  obtain ⟨ws', hr, hslot⟩ := writeBack_spec (m := m) l.terms.toList ws
    fun p hp => read_eq hl values hp
  refine ⟨ws', ?_, fun f => ?_⟩
  · show (writeBack m l.solver ⟨Array.ofFn values⟩ l.terms.toList ws).map _ = _
    rw [hr]
    rfl
  · rw [hslot f]
    split_ifs with hf
    · rfl
    · -- a field that is not written keeps its value in the solution
      rw [hsolves.keeps f, Slot.setRaw_self]
      exact fun hsolved => hf ⟨hfields f hsolved.1, isSolved_iff.2 hsolved⟩

theorem Posed.conclude_eq (h : Posed r ws m inline l e) {values : Fin l.solver.numVars → Bool}
    (hsolves : Solves ws m inline (reading ws l (assign values))) :
    ∃ ws', conclude ws m l (.ok (some (Array.ofFn values))) = .ok (.ok (), ws') ∧
      Holds ws (reading ws l (assign values)) ws' :=
  conclude_of_solves h.valid (fun _ => h.mem_fields) hsolves

theorem Posed.draw_eq (h : Posed r ws m inline l e) : draw r ws m inline =
    (l.solver.store.sample e l.solver.numVars).run >>= fun values =>
      .done (conclude ws m l values) := by
  unfold draw
  rw [h.run]
  -- a single bit is its own truth value
  rfl

/-- **Whatever the answers are, the call stores a solution, or there is none.** -/
theorem Posed.always_draw (h : Posed r ws m inline l e) : (draw r ws m inline).Always fun o =>
    (∃ raw ws', o = .ok (.ok (), ws') ∧ Solves ws m inline raw ∧ Holds ws raw ws') ∨
      (o = .ok (.error .unsatisfiable, ws) ∧ ∀ raw, ¬ Solves ws m inline raw) := by
  obtain ⟨φ, he, hwithin, hφ⟩ := h.denotes
  rw [h.draw_eq]
  by_cases hzero : e = .zero
  · -- nothing is asked, and the constant false has no reading that solves the call
    subst hzero
    rw [sample_zero]
    refine Or.inr ⟨rfl, fun raw hraw => ?_⟩
    obtain ⟨values, rfl⟩ := h.exists_reading hraw
    have htrue := (hφ (assign values)).2 hraw
    rw [he.unique (denotes_zero h.valid.store.reduced)] at htrue
    cases htrue
  · -- what is drawn satisfies the formula, so it reads as a solution
    refine (h.valid.store.reduced.sample_always h.numVars_lt he hwithin hzero).bind fun a ha => ?_
    obtain ⟨out, rfl, hout⟩ := ha
    have hsolves := (hφ _).1 hout
    obtain ⟨ws', hconclude, hholds⟩ := h.conclude_eq hsolves
    exact Or.inl ⟨_, ws', hconclude, hsolves, hholds⟩

/-- A call whose formula lowers stores a solution, or there is none. -/
theorem Posed.exists_end (h : Posed r ws m inline l e) : ∃ o, r.randomizeWith ws m inline = .ok o ∧
    ((o.result = .ok () ∧ ∃ raw, Solves ws m inline raw ∧ Holds ws raw o.workspace) ∨
      (o.result = .error .unsatisfiable ∧ o.workspace = ws ∧
        ∀ raw, ¬ Solves ws m inline raw)) := by
  have hend := h.always_draw.run r.solver.source
  rw [← randomizeWith_eq_run_draw r ws m inline] at hend
  -- a fault is neither of the two ends
  cases hcall : r.randomizeWith ws m inline with
  | error fault =>
    rw [hcall] at hend
    rcases hend with ⟨raw, ws', hok, -⟩ | ⟨herror, -⟩
    · cases hok
    · cases herror
  | ok o =>
    rw [hcall] at hend
    refine ⟨o, rfl, ?_⟩
    rcases hend with ⟨raw, ws', hok, hsolves, hholds⟩ | ⟨herror, hnone⟩
    · have hpair : (o.result, o.workspace) = (Except.ok (), ws') := Except.ok.inj hok
      obtain ⟨hresult, hws⟩ := Prod.mk.inj hpair
      exact Or.inl ⟨hresult, raw, hsolves, hws ▸ hholds⟩
    · have hpair : (o.result, o.workspace) = (Except.error .unsatisfiable, ws) :=
        Except.ok.inj herror
      obtain ⟨hresult, hws⟩ := Prod.mk.inj hpair
      exact Or.inr ⟨hresult, hws, hnone⟩

/-- **Randomization is sound and complete.** It succeeds exactly if the call has a solution and
reports that there is none otherwise; after a success the stored values are a solution, and
nothing but the raw values of the random fields has changed. The one fault that there can be is a
full storage, where the restrictions of the fields take more nodes than there are indexes. -/
theorem Lowers.sound_and_complete (h : Lowers r ws m inline c l) :
    (∃ o, r.randomizeWith ws m inline = .ok o ∧
      (o.result = .ok () ↔ ∃ raw, Solves ws m inline raw) ∧
      (o.result ≠ .ok () → o.result = .error .unsatisfiable ∧ o.workspace = ws) ∧
      (o.result = .ok () → Solves ws m inline fun f => (o.workspace.slot f).raw) ∧
      (∀ f, o.workspace.slot f = (ws.slot f).setRaw (o.workspace.slot f).raw) ∧
      ∀ f, ¬(f ∈ m.fields ∧ (ws.slot f).isRandom = true) → o.workspace.slot f = ws.slot f) ∨
    (r.randomizeWith ws m inline = .error .storageExhausted ∧
      Outgrows (start r.solver.reset) (formula ws m inline).run) := by
  rcases h.exists_posed with ⟨l', e, hposed⟩ | hout
  · obtain ⟨o, hcall, hend⟩ := hposed.exists_end
    refine Or.inl ⟨o, hcall, ?_⟩
    rcases hend with ⟨hresult, raw, hsolves, hholds⟩ | ⟨hresult, hws, hnone⟩
    · have hraw : ∀ f, (o.workspace.slot f).raw = raw f := fun f => by
        rw [hholds f, Slot.setRaw_raw (hsolves.lt f)]
      refine ⟨⟨fun _ => ⟨raw, hsolves⟩, fun _ => hresult⟩, fun hne => absurd hresult hne,
        fun _ => ?_, fun f => ?_, fun f hf => ?_⟩
      · rw [funext hraw]
        exact hsolves
      · rw [hraw f, hholds f]
      · rw [hholds f, hsolves.keeps f hf, Slot.setRaw_self]
    · have hfails : o.result ≠ .ok () := fun hok => nomatch hok.symm.trans hresult
      refine ⟨⟨fun hok => absurd hok hfails, fun ⟨raw, hraw⟩ => absurd hraw (hnone raw)⟩,
        fun _ => ⟨hresult, hws⟩, fun hok => absurd hok hfails, fun f => ?_, fun f _ => ?_⟩
      · rw [hws, Slot.setRaw_self]
      · rw [hws]
  · exact Or.inr ⟨randomizeWith_of_outgrows hout, hout⟩

/-- Writing back declares no field. -/
theorem size_of_writeBack {solver : Solver} {solution : Solution} {ws' : Workspace}
    {ps : List (Field × BitVector)} (h : writeBack m solver solution ps ws = .ok ws') :
    ws'.slots.size = ws.slots.size := by
  induction ps generalizing ws with
  | nil =>
    cases h
    rfl
  | cons p ps ih =>
    unfold writeBack at h
    split at h
    · obtain ⟨raw, -, h⟩ := exists_of_bind_eq_ok h
      exact (ih h).trans Array.size_setIfInBounds
    · exact ih h

/-- **A call that succeeds has stored a solution**, in the fields that were declared before. -/
theorem exists_solution {o : Outcome} (h : r.randomizeWith ws m inline = .ok o)
    (hok : o.result = .ok ()) : ∃ raw, Solves ws m inline raw ∧ Holds ws raw o.workspace ∧
      o.workspace.slots.size = ws.slots.size := by
  rcases randomizeWith_cases h with ⟨e, l, -, rfl⟩ | ⟨t, l, s, -, -, rfl⟩ |
    ⟨t, l, solution, s, ws', hr, -, hwrite, rfl⟩
  · cases hok
  · cases hok
  · obtain ⟨e, -, hposed⟩ := posed_of_run hr
    obtain ⟨o, hcall, hend⟩ := hposed.exists_end
    rw [h] at hcall
    cases hcall
    rcases hend with ⟨-, raw, hsolves, hholds⟩ | ⟨hfails, -⟩
    · exact ⟨raw, hsolves, hholds, size_of_writeBack hwrite⟩
    · cases hfails

/-- A model of the workspace with one random field of two bits. -/
def twoBitsModel : Model := ⟨"m", [⟨0⟩], []⟩

theorem twoBits_lowers : ∃ c l,
    Lowers (.ofSeed 7 .interleaved) twoBits twoBitsModel ⟨[turned]⟩ c l :=
  ⟨_, _, rfl⟩

/-- The present values with another one for the field of two bits. -/
def holding (n : Nat) (f : Field) : Nat := if f = ⟨0⟩ then n else (twoBits.slot f).raw

/-- The field stays below the value that turns to zero. -/
theorem twoBits_solves_iff :
    Solves twoBits twoBitsModel ⟨[turned]⟩ raw ↔ ∃ n < 3, raw = holding n := by
  have hturned : turned.holds (twoBits.quantity raw) =
      (apply .xor ⟨2, false, raw ⟨0⟩⟩ ⟨1, true, 1⟩ : Quantity).holds := rfl
  have hmem : ∀ f, f ∈ twoBitsModel.fields ↔ f = ⟨0⟩ := fun f => List.mem_singleton
  constructor
  · intro h
    have hlt : raw ⟨0⟩ < 4 := h.inRange ⟨0⟩ ((hmem _).2 rfl) rfl
    have hholds := h.inline turned (List.mem_singleton.2 rfl)
    rw [hturned] at hholds
    refine ⟨raw ⟨0⟩, ?_, ?_⟩
    · -- three has the bits of the extended literal, so the constraint is zero
      by_contra hge
      obtain hthree : raw ⟨0⟩ = 3 := by omega
      rw [hthree] at hholds
      cases hholds
    · funext f
      unfold holding
      split_ifs with hf
      · rw [hf]
      · exact h.keeps f fun hsolved => hf ((hmem f).1 hsolved.1)
  · rintro ⟨n, hn, rfl⟩
    refine ⟨fun f hf _ => ?_, fun f hf _ d hd => ?_, fun f hf => ?_, fun b hb => ?_, fun e he => ?_⟩
    · obtain rfl := (hmem f).1 hf
      exact Nat.lt_trans hn (by decide)
    · obtain rfl := (hmem f).1 hf
      cases hd
    · refine if_neg fun hf' => hf ?_
      subst hf'
      exact ⟨(hmem _).2 rfl, rfl⟩
    · cases hb
    · obtain rfl := List.mem_singleton.1 he
      rw [hturned]
      revert n
      decide

/-- The field keeps a value that does not turn to zero. -/
theorem twoBits_sound_and_complete : ∃ o,
    (ofSeed 7 .interleaved).randomizeWith twoBits twoBitsModel ⟨[turned]⟩ = .ok o ∧
      o.result = .ok () ∧ (o.workspace.slot ⟨0⟩).raw < 3 := by
  obtain ⟨c, l, h⟩ := twoBits_lowers
  obtain ⟨o, ho, hok, -, hstored, -⟩ | ⟨-, hout⟩ := h.sound_and_complete
  swap
  · exact absurd hout (not_outgrows_of_isOk (by decide +kernel))
  have hresult := hok.2 ⟨_, twoBits_solves_iff.2 ⟨0, by decide, rfl⟩⟩
  obtain ⟨n, hn, hraw⟩ := twoBits_solves_iff.1 (hstored hresult)
  have hzero : (o.workspace.slot ⟨0⟩).raw = n := congrFun hraw ⟨0⟩
  exact ⟨o, ho, hresult, hzero ▸ hn⟩

end Randomizer

end Stimulus

import Stimulus.Proofs.Diagram.SameDraws
import Stimulus.Proofs.Randomizer.Calls

/-!
# The stimulus depends on the meaning

Two calls are equivalent (`Randomizer.Equivalent`) if their fields are alike, one by
one in the order in which they get their terms, and their constraints hold for the
same values. Alike fields get the same variables, so an assignment reads as the same
values in both calls (`Randomizer.Posed.map_reading`), and the formulas of equivalent
calls are one function of the variables (`Randomizer.Equivalent.solves_iff`). What is
drawn from a diagram is determined by its function, so the calls end alike
(`Randomizer.Lowers.same_stimulus`), however their constraints are written and whatever
the solvers have done before.
-/

set_option autoImplicit false

namespace Stimulus

open Diagram Store Lowering

/-- A property of related elements with the same images holds of all of them at once. -/
theorem forall_mem_iff_of_forall₂ {α β γ : Type} {R : α → β → Prop} {xs : List α} {ys : List β}
    {u : α → γ} {v : β → γ} {P : α → Prop} {Q : β → Prop} (h : List.Forall₂ R xs ys)
    (hmap : xs.map u = ys.map v) (hPQ : ∀ x y, R x y → u x = v y → (P x ↔ Q y)) :
    (∀ x ∈ xs, P x) ↔ ∀ y ∈ ys, Q y := by
  induction h with
  | nil => exact ⟨fun _ _ hy => (nomatch hy), fun _ _ hx => (nomatch hx)⟩
  | cons hxy _ ih =>
    obtain ⟨hhead, htail⟩ := List.cons_eq_cons.1 hmap
    rw [List.forall_mem_cons, List.forall_mem_cons, hPQ _ _ hxy hhead, ih htail]

/-! ## Types with the same values -/

namespace FieldType

variable {t t' : FieldType}

/-- Types that agree are one scalar type or enumerations with the same entries. -/
theorem eq_or_entries_eq_of_agrees (h : t.agrees t' = true) : t = t' ∨
    ∃ d d', t = .enumeration d ∧ t' = .enumeration d' ∧ d.entries = d'.entries := by
  unfold agrees at h
  split at h
  · rw [Bool.and_eq_true, beq_iff_eq, beq_iff_eq] at h
    obtain ⟨rfl, rfl⟩ := h
    exact Or.inl rfl
  · unfold Enumeration.sameContent at h
    rw [Bool.and_eq_true, beq_iff_eq, beq_iff_eq] at h
    exact Or.inr ⟨_, _, rfl, rfl, h.2⟩
  · cases h

theorem shape_eq_of_agrees (h : t.agrees t' = true) :
    t.width = t'.width ∧ t.signed = t'.signed := by
  rcases eq_or_entries_eq_of_agrees h with rfl | ⟨d, d', rfl, rfl, hentries⟩
  · exact ⟨rfl, rfl⟩
  · -- width and sign are computed from the entries
    have hsigned : d.signed = d'.signed := by rw [d.signed_eq, d'.signed_eq, hentries]
    have hwidth : d.width = d'.width := by rw [d.width_eq, d'.width_eq, hsigned, hentries]
    exact ⟨hwidth, hsigned⟩

/-- Enumerations that agree have the same entries. -/
theorem entries_iff_of_agrees (h : t.agrees t' = true) (P : List Entry → Prop) :
    (∀ d, t = .enumeration d → P d.entries) ↔ ∀ d, t' = .enumeration d → P d.entries := by
  rcases eq_or_entries_eq_of_agrees h with rfl | ⟨d, d', rfl, rfl, hentries⟩
  · exact Iff.rfl
  · constructor
    · rintro hd _ ⟨⟩
      exact hentries ▸ hd d rfl
    · rintro hd' _ ⟨⟩
      exact hentries ▸ hd' d' rfl

end FieldType

namespace Randomizer

variable {r r₁ r₂ : Randomizer} {ws ws₁ ws₂ : Workspace} {m m₁ m₂ : Model}
  {inline inline₁ inline₂ : Scope} {c₁ c₂ : BitVector} {l l₁ l₂ : Lowering}
  {e e₁ e₂ : Edge} {f g : Field} {raw raw₁ raw₂ : Field → Nat}

/-! ## Equivalent calls -/

/-- The fields of a call in the order in which they get their terms: those of the model in the
order of binding, then the others in the order of their first mention. -/
def declared (m : Model) (inline : Scope) : List Field := Field.collect [] (activeFields m inline)

/-- Fields of two calls with one type and one present value, both of which are solved, or neither
is. -/
structure Alike (ws₁ : Workspace) (m₁ : Model) (f : Field) (ws₂ : Workspace) (m₂ : Model)
    (g : Field) : Prop where
  /-- The types have the same values. -/
  type : (ws₁.slot f).type.agrees (ws₂.slot g).type = true
  /-- The present values are the same. -/
  raw : (ws₁.slot f).raw = (ws₂.slot g).raw
  /-- Both fields are random and of their models, or neither one is. -/
  solved : isSolved ws₁ m₁ f = isSolved ws₂ m₂ g

/-- Calls with alike fields, whose constraints hold for the same values. -/
structure Equivalent (ws₁ : Workspace) (m₁ : Model) (inline₁ : Scope) (ws₂ : Workspace)
    (m₂ : Model) (inline₂ : Scope) : Prop where
  /-- The fields are alike, one by one. -/
  fields : List.Forall₂ (fun f g => Alike ws₁ m₁ f ws₂ m₂ g) (declared m₁ inline₁)
    (declared m₂ inline₂)
  /-- The constraints of both calls hold for the same values, among those that the fields may
  have after the calls. -/
  holds : ∀ raw₁ raw₂, (declared m₁ inline₁).map raw₁ = (declared m₂ inline₂).map raw₂ →
    (∀ f ∈ declared m₁ inline₁, raw₁ f < 2 ^ (ws₁.slot f).width ∧ Admits ws₁ m₁ raw₁ f) →
    constraintsHold m₁ inline₁ (ws₁.quantity raw₁) =
      constraintsHold m₂ inline₂ (ws₂.quantity raw₂)

theorem Alike.width_eq (h : Alike ws₁ m₁ f ws₂ m₂ g) :
    (ws₁.slot f).width = (ws₂.slot g).width :=
  (FieldType.shape_eq_of_agrees h.type).1

/-- Alike fields with one raw value have one quantity. -/
theorem Alike.quantity_eq (h : Alike ws₁ m₁ f ws₂ m₂ g) (hraw : raw₁ f = raw₂ g) :
    ws₁.quantity raw₁ f = ws₂.quantity raw₂ g := by
  have hsigned : (ws₁.slot f).signed = (ws₂.slot g).signed :=
    (FieldType.shape_eq_of_agrees h.type).2
  unfold Workspace.quantity
  rw [h.width_eq, hsigned, hraw]

/-- Alike fields may have the same values. -/
theorem Alike.admits_iff (h : Alike ws₁ m₁ f ws₂ m₂ g) (hraw : raw₁ f = raw₂ g) :
    Admits ws₁ m₁ raw₁ f ↔ Admits ws₂ m₂ raw₂ g := by
  unfold Admits
  rw [h.solved, h.quantity_eq hraw, hraw, h.raw]
  split_ifs
  · exact FieldType.entries_iff_of_agrees h.type fun entries =>
      ∃ e ∈ entries, (ws₂.quantity raw₂ g).toInt = e.value.toInt
  · exact Iff.rfl

/-! ## Readings of equivalent calls -/

/-- The values of the fields are those that the variables planned for them spell. -/
theorem Posed.map_reading (h : Posed r ws m inline l e) (ρ : Assignment) :
    (declared m inline).map (reading ws l ρ) =
      (r.solver.layout.plan 1 ((declared m inline).map fun f => (ws.slot f).width)).map
        (valueAt ρ) := by
  obtain ⟨more, hmore, hlaid⟩ := h.planned
  obtain rfl : l.terms.toList = more := hmore
  have hfields : declared m inline = l.terms.toList.map Prod.fst := h.fields.symm
  rw [hfields, List.map_map, List.map_map]
  -- each term is read through its own variables
  have hread : List.Forall₂ (fun p vars => reading ws l ρ p.1 = valueAt ρ vars) l.terms.toList
      (r.solver.layout.plan 1 (l.terms.toList.map fun p => (ws.slot p.1).width)) := by
    rw [List.forall₂_iff_zip] at hlaid ⊢
    exact ⟨hlaid.1, fun hp => h.valid.reading_of_laid (List.of_mem_zip hp).1 (hlaid.2 hp) ρ⟩
  exact map_eq_of_forall₂ hread fun _ _ hp => hp

/-- The variables of a call are the bits of its fields. -/
theorem Posed.numVars_eq_total (h : Posed r ws m inline l e) :
    l.solver.numVars = Layout.total ((declared m inline).map fun f => (ws.slot f).width) := by
  have hfull := h.full
  unfold Full at hfull
  rw [hfull, h.fields]
  rfl

section Equivalent

variable (h : Equivalent ws₁ m₁ inline₁ ws₂ m₂ inline₂)
include h

/-- Equivalent calls lay out terms of the same widths. -/
theorem Equivalent.widths_eq : ((declared m₁ inline₁).map fun f => (ws₁.slot f).width) =
    (declared m₂ inline₂).map fun g => (ws₂.slot g).width :=
  map_eq_of_forall₂ h.fields fun _ _ hfg => hfg.width_eq

variable (h₁ : Posed r₁ ws₁ m₁ inline₁ l₁ e₁) (h₂ : Posed r₂ ws₂ m₂ inline₂ l₂ e₂)
include h₁ h₂

theorem Equivalent.numVars_eq : l₁.solver.numVars = l₂.solver.numVars := by
  rw [h₁.numVars_eq_total, h₂.numVars_eq_total, h.widths_eq]

variable (hlayout : r₁.solver.layout = r₂.solver.layout)
include hlayout

/-- An assignment gives the fields of equivalent calls the same values. -/
theorem Equivalent.map_reading_eq (ρ : Assignment) :
    (declared m₁ inline₁).map (reading ws₁ l₁ ρ) =
      (declared m₂ inline₂).map (reading ws₂ l₂ ρ) := by
  rw [h₁.map_reading, h₂.map_reading, h.widths_eq, hlayout]

/-- **An assignment reads as a solution of both calls, or of neither.** -/
theorem Equivalent.solves_iff (ρ : Assignment) :
    Solves ws₁ m₁ inline₁ (reading ws₁ l₁ ρ) ↔ Solves ws₂ m₂ inline₂ (reading ws₂ l₂ ρ) := by
  have hmap := h.map_reading_eq h₁ h₂ hlayout ρ
  have hadmits := forall_mem_iff_of_forall₂ h.fields hmap fun _ _ hfg hraw => hfg.admits_iff hraw
  have hfields₁ : l₁.fields = declared m₁ inline₁ := h₁.fields
  have hfields₂ : l₂.fields = declared m₂ inline₂ := h₂.fields
  rw [solves_reading_iff h₁.valid h₁.fields, solves_reading_iff h₂.valid h₂.fields, hfields₁,
    hfields₂, hadmits]
  refine and_congr_left fun hall => ?_
  rw [h.holds _ _ hmap fun f hf => ⟨h₁.valid.reading_lt ρ f, hadmits.2 hall f hf⟩]

end Equivalent

/-! ## The stimulus -/

/-- Values for as many variables. -/
theorem exists_ofFn_eq {n n' : Nat} (h : n = n') (out : Fin n → Bool) :
    ∃ out' : Fin n' → Bool, Array.ofFn out' = Array.ofFn out ∧ assign out' = assign out := by
  subst h
  exact ⟨out, rfl, rfl⟩

/-- What a call with a given draw ends in. -/
theorem Posed.exists_outcome (h : Posed r ws m inline l e)
    {values : Except Fault (Option (Array Bool))} {source : Source}
    {result : Except Error Unit} {ws' : Workspace}
    (hdraw : (l.solver.store.sample e l.solver.numVars).run.run r.solver.source =
      (values, source))
    (hconclude : conclude ws m l values = .ok (result, ws')) :
    ∃ o, r.randomizeWith ws m inline = .ok o ∧ o.result = result ∧ o.workspace = ws' ∧
      o.randomizer.solver.source = source := by
  have hrun : (draw r ws m inline).run r.solver.source = (.ok (result, ws'), source) := by
    rw [h.draw_eq, Sampler.run_bind, hdraw]
    show (conclude ws m l values, source) = _
    rw [hconclude]
  have hcall := randomizeWith_eq_run_draw_source r ws m inline
  rw [hrun] at hcall
  cases ho : r.randomizeWith ws m inline with
  | error fault =>
    rw [ho] at hcall
    cases hcall
  | ok o =>
    rw [ho] at hcall
    cases hcall
    exact ⟨o, rfl, rfl, rfl, rfl⟩

/-- What a call stores for an assignment that reads as a solution. -/
theorem Posed.exists_stored (h : Posed r ws m inline l e)
    {values : Fin l.solver.numVars → Bool} {source : Source}
    (hdraw : (l.solver.store.sample e l.solver.numVars).run.run r.solver.source =
      (.ok (some (Array.ofFn values)), source))
    (hsolves : Solves ws m inline (reading ws l (assign values))) :
    ∃ o, r.randomizeWith ws m inline = .ok o ∧ o.result = .ok () ∧
      (∀ f, (o.workspace.slot f).raw = reading ws l (assign values) f) ∧
      o.randomizer.solver.source = source := by
  obtain ⟨ws', hconclude, hholds⟩ := h.conclude_eq hsolves
  obtain ⟨o, ho, hresult, hws, hsource⟩ := h.exists_outcome hdraw hconclude
  refine ⟨o, ho, hresult, fun f => ?_, hsource⟩
  rw [hws, hholds f, Slot.setRaw_raw (hsolves.lt f)]

/-- Equivalent calls whose formulas lower end alike. -/
theorem Equivalent.exists_outcomes (hcalls : Equivalent ws₁ m₁ inline₁ ws₂ m₂ inline₂)
    (hp₁ : Posed r₁ ws₁ m₁ inline₁ l₁ e₁) (hp₂ : Posed r₂ ws₂ m₂ inline₂ l₂ e₂)
    (hlayout : r₁.solver.layout = r₂.solver.layout)
    (hsource : r₁.solver.source = r₂.solver.source) :
    ∃ o₁ o₂, r₁.randomizeWith ws₁ m₁ inline₁ = .ok o₁ ∧
      r₂.randomizeWith ws₂ m₂ inline₂ = .ok o₂ ∧ o₁.result = o₂.result ∧
      ((declared m₁ inline₁).map fun f => (o₁.workspace.slot f).raw) =
        ((declared m₂ inline₂).map fun g => (o₂.workspace.slot g).raw) ∧
      o₁.randomizer.solver.source = o₂.randomizer.solver.source := by
  obtain ⟨φ, he₁, hwithin, hφ⟩ := hp₁.denotes
  obtain ⟨ψ, he₂, -, hψ⟩ := hp₂.denotes
  -- both edges denote one function of the variables
  obtain rfl : φ = ψ := funext fun ρ => by
    rw [Bool.eq_iff_iff, hφ, hψ, hcalls.solves_iff hp₁ hp₂ hlayout]
  have hn := hcalls.numVars_eq hp₁ hp₂
  have hsame := hp₁.valid.store.reduced.run_sample_eq hp₂.valid.store.reduced hp₁.numVars_lt he₁
    he₂ hwithin r₁.solver.source
  cases hdraw₁ : (l₁.solver.store.sample e₁ l₁.solver.numVars).run.run r₁.solver.source with
  | mk values source =>
    have hdraw₂ : (l₂.solver.store.sample e₂ l₂.solver.numVars).run.run r₂.solver.source =
        (values, source) := by
      rw [← hn, ← hsource, ← hsame, hdraw₁]
    by_cases hzero : e₁ = .zero
    · -- there is no solution, and the fields keep their values
      rw [hzero, sample_zero] at hdraw₁
      cases hdraw₁
      obtain ⟨o₁, ho₁, hresult₁, hws₁, hs₁⟩ :=
        hp₁.exists_outcome (by rw [hzero, sample_zero]) rfl
      obtain ⟨o₂, ho₂, hresult₂, hws₂, hs₂⟩ := hp₂.exists_outcome hdraw₂ rfl
      refine ⟨o₁, o₂, ho₁, ho₂, hresult₁.trans hresult₂.symm, ?_, hs₁.trans hs₂.symm⟩
      rw [hws₁, hws₂]
      exact map_eq_of_forall₂ hcalls.fields fun _ _ hfg => hfg.raw
    · -- both calls store what the drawn assignment reads as
      obtain ⟨out₁, hvalues, hout⟩ := (hp₁.valid.store.reduced.sample_always hp₁.numVars_lt he₁
        hwithin hzero).run r₁.solver.source
      rw [hdraw₁] at hvalues
      dsimp only at hvalues
      subst hvalues
      obtain ⟨out₂, hvalues₂, hassign⟩ := exists_ofFn_eq hn out₁
      have hsolves₁ := (hφ _).1 hout
      rw [← hassign] at hout
      rw [← hvalues₂] at hdraw₂
      obtain ⟨o₁, ho₁, hresult₁, hraw₁, hs₁⟩ := hp₁.exists_stored hdraw₁ hsolves₁
      obtain ⟨o₂, ho₂, hresult₂, hraw₂, hs₂⟩ := hp₂.exists_stored hdraw₂ ((hψ _).1 hout)
      refine ⟨o₁, o₂, ho₁, ho₂, hresult₁.trans hresult₂.symm, ?_, hs₁.trans hs₂.symm⟩
      simp only [hraw₁, hraw₂, hassign]
      exact hcalls.map_reading_eq hp₁ hp₂ hlayout (assign out₁)

/-- **The stimulus depends on what the constraints mean, and on nothing else.** Two calls that lower
and are equivalent, with one layout and with their sources in the same state, have the same result,
leave the same values in their fields and leave their sources in the same state, unless the
restrictions of one of them outgrow the storage. -/
theorem Lowers.same_stimulus (h₁ : Lowers r₁ ws₁ m₁ inline₁ c₁ l₁)
    (h₂ : Lowers r₂ ws₂ m₂ inline₂ c₂ l₂) (hlayout : r₁.solver.layout = r₂.solver.layout)
    (hsource : r₁.solver.source = r₂.solver.source)
    (hcalls : Equivalent ws₁ m₁ inline₁ ws₂ m₂ inline₂) :
    (∃ o₁ o₂, r₁.randomizeWith ws₁ m₁ inline₁ = .ok o₁ ∧
      r₂.randomizeWith ws₂ m₂ inline₂ = .ok o₂ ∧ o₁.result = o₂.result ∧
      ((declared m₁ inline₁).map fun f => (o₁.workspace.slot f).raw) =
        ((declared m₂ inline₂).map fun g => (o₂.workspace.slot g).raw) ∧
      o₁.randomizer.solver.source = o₂.randomizer.solver.source) ∨
    Outgrows (start r₁.solver.reset) (formula ws₁ m₁ inline₁).run ∨
    Outgrows (start r₂.solver.reset) (formula ws₂ m₂ inline₂).run := by
  rcases h₁.exists_posed with ⟨k₁, e₁, hp₁⟩ | hout
  · rcases h₂.exists_posed with ⟨k₂, e₂, hp₂⟩ | hout
    · exact Or.inl (hcalls.exists_outcomes hp₁ hp₂ hlayout hsource)
    · exact Or.inr (Or.inr hout)
  · exact Or.inr (Or.inl hout)

/-- The field of two bits is not three. -/
def notThree : Expr :=
  .binary .ne (.field ⟨0⟩) (.literal ⟨3, 2, false, Nat.two_pos, by decide, by decide⟩)

/-- A model of the field of two bits with a block that says the same twice. -/
def notThreeModel : Model := ⟨"n", [⟨0⟩], [⟨"b", ⟨[notThree, notThree]⟩, true⟩]⟩

/-- The bits of the field do not turn to zero exactly if it is not three, and a solver that has
variables in use already draws the same value. -/
theorem twoBits_same_stimulus : ∃ o₁ o₂,
    (ofSeed 7 .interleaved).randomizeWith twoBits twoBitsModel ⟨[turned]⟩ = .ok o₁ ∧
    (⟨{ Solver.ofSeed 7 .interleaved with numVars := 5 }⟩ : Randomizer).randomizeWith twoBits
      notThreeModel .empty = .ok o₂ ∧
    o₁.result = o₂.result ∧ (o₁.workspace.slot ⟨0⟩).raw = (o₂.workspace.slot ⟨0⟩).raw ∧
    o₁.randomizer.solver.source = o₂.randomizer.solver.source := by
  obtain ⟨c₁, l₁, h₁⟩ := twoBits_lowers
  have h₂ : ∃ c₂ l₂, Lowers ⟨{ Solver.ofSeed 7 .interleaved with numVars := 5 }⟩ twoBits
      notThreeModel .empty c₂ l₂ := ⟨_, _, rfl⟩
  obtain ⟨c₂, l₂, h₂⟩ := h₂
  have hvalues : ∀ n < 4,
      constraintsHold twoBitsModel ⟨[turned]⟩ (twoBits.quantity fun _ => n) =
        constraintsHold notThreeModel .empty (twoBits.quantity fun _ => n) := by decide
  have hcalls : Equivalent twoBits twoBitsModel ⟨[turned]⟩ twoBits notThreeModel .empty := by
    refine ⟨List.Forall₂.cons ⟨by decide, rfl, by decide⟩ List.Forall₂.nil, ?_⟩
    intro raw₁ raw₂ hraw hrange
    have hlt : raw₁ ⟨0⟩ < 4 := (hrange ⟨0⟩ (by decide)).1
    have heq : raw₁ ⟨0⟩ = raw₂ ⟨0⟩ := List.head_eq_of_cons_eq hraw
    have hholds := hvalues (raw₁ ⟨0⟩) hlt
    nth_rewrite 2 [heq] at hholds
    exact hholds
  obtain ⟨o₁, o₂, ho₁, ho₂, hresult, hraw, hsource⟩ | hout | hout :=
    h₁.same_stimulus h₂ rfl rfl hcalls
  · exact ⟨o₁, o₂, ho₁, ho₂, hresult, List.head_eq_of_cons_eq hraw, hsource⟩
  · exact absurd hout (not_outgrows_of_isOk (by decide +kernel))
  · exact absurd hout (not_outgrows_of_isOk (by decide +kernel))

end Randomizer

end Stimulus

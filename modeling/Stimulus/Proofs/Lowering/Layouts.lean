import Mathlib.Data.Set.Card
import Stimulus.Proofs.Lowering.Verdict
import Stimulus.Proofs.Randomizer.Uniform
import Stimulus.Proofs.Solver.Solution

/-!
# Layouts of variables

How the fields of a scope came by their variables does not change the formula. The
scope succeeds or fails as its constraints say (`Lowering.judged_lowerScope`), its
term has the value of the constraints for the raw values that the field terms have
(`Lowering.Means.valueOf_of_gives`), and the number of its solutions is that of the
raw values for which the constraints hold (`Lowering.Sound.countSolutions_eq`).
None of this mentions variables, so two lowerings of one scope agree, as long as the
storage lasts (`Lowering.Reached.same_formula`).
-/

set_option autoImplicit false

namespace Stimulus

open Diagram Store Quantity

/-! ## Only mentioned fields count -/

section Locality

variable {u v : Field → Quantity}

mutual

/-- The meaning of an expression depends on the fields that it mentions only. -/
theorem Expr.meaning_congr : ∀ (e : Expr), (∀ f ∈ e.mentions, u f = v f) →
    e.meaning u = e.meaning v
  | .literal c, _ => rfl
  | .field f, h => h f List.mem_cons_self
  | .binary op lhs rhs, h => by
    rw [Expr.mentions_binary, List.forall_mem_append] at h
    exact congrArg₂ (apply op) (lhs.meaning_congr h.1) (rhs.meaning_congr h.2)
  | .bit base index, h => by
    rw [Expr.mentions_bit, List.forall_mem_append] at h
    exact congrArg₂ Quantity.bit (base.meaning_congr h.1) (index.meaning_congr h.2)
  | .slice base high low, h => by
    rw [Expr.mentions_slice, List.forall_mem_append, List.forall_mem_append] at h
    simp only [Expr.meaning, base.meaning_congr h.1.1, high.meaning_congr h.1.2,
      low.meaning_congr h.2]
  | .inside value ranges, h => by
    rw [Expr.mentions_inside, List.forall_mem_append] at h
    simp only [Expr.meaning, value.meaning_congr h.1, ranges.covers_congr _ h.2]

theorem Range.covers_congr : ∀ (r : Range) (q : Quantity), (∀ f ∈ r.mentions, u f = v f) →
    r.covers u q = r.covers v q
  | .point point, q, h => by
    simp only [Range.covers, point.meaning_congr h]
  | .interval low high, q, h => by
    rw [Range.mentions_interval, List.forall_mem_append] at h
    simp only [Range.covers, low.meaning_congr h.1, high.meaning_congr h.2]

theorem Ranges.covers_congr : ∀ (rs : Ranges) (q : Quantity), (∀ f ∈ rs.mentions, u f = v f) →
    rs.covers u q = rs.covers v q
  | .single range, q, h => range.covers_congr q h
  | .cons range rest, q, h => by
    rw [Ranges.mentions_cons, List.forall_mem_append] at h
    simp only [Ranges.covers, range.covers_congr q h.1, rest.covers_congr q h.2]

end

end Locality

namespace Scope

/-- The fields that the constraints mention, at every place. -/
def mentions (s : Scope) : List Field := s.constraints.flatMap Expr.mentions

/-- Whether all constraints hold. -/
def holds (s : Scope) (fields : Field → Quantity) : Bool :=
  s.constraints.all fun e => e.holds fields

/-- The first error of some constraints, if there is one. -/
noncomputable def checkAll (ws : Workspace) : List Expr → Except Error Unit
  | [] => return
  | e :: rest => do
    let _ ← e.shape ws
    checkAll ws rest

theorem mem_fields {s : Scope} {f : Field} : f ∈ s.fields ↔ f ∈ s.mentions := by
  have hfields : s.fields = Field.collect [] (s.constraints.flatMap Expr.fields) := rfl
  simp [hfields, Field.mem_collect, mentions, Expr.fields_eq]

theorem holds_congr {s : Scope} {u v : Field → Quantity} (h : ∀ f ∈ s.fields, u f = v f) :
    s.holds u = s.holds v := by
  unfold holds
  rw [Bool.eq_iff_iff, List.all_eq_true, List.all_eq_true]
  refine forall₂_congr fun e he => ?_
  rw [Expr.holds, e.meaning_congr fun f hf => h f (mem_fields.2 (List.mem_flatMap.2 ⟨e, he, hf⟩))]
  rfl

end Scope

namespace Lowering

variable {ws : Workspace} {l l' l₁ l₂ l₁' l₂' : Lowering} {t t₁ t₂ : BitVector} {s : Scope}
  {ρ ρ₁ ρ₂ : Assignment} {raw : Field → Nat} {fs : List Field} {κ : (Field → Quantity) → Bool}

/-! ## Verdicts on scopes -/

/-- **A conjunction lowers unless one of its constraints has an error**, the first of which is the
error of the whole. -/
theorem judged_lowerAll : ∀ (es : List Expr) (l : Lowering) (sofar : BitVector)
    (κ : (Field → Quantity) → Bool), l.Valid ws → l.Means ws sofar (fun fields => flag (κ fields)) →
    Judged l (lowerAll ws es sofar) (Scope.checkAll ws es) := by
  intro es
  induction es with
  | nil => exact fun l sofar κ _ _ => judged_pure l _ _
  | cons e rest ih =>
    intro l sofar κ hl hsofar
    refine (judged_lower e l hl).bind (leads_lower e l hl) fun a l₁ _ h₁ g₁ ha _ => ?_
    have hconjunct := h₁.succeeds_conjunct (hsofar.grow hl g₁) ha
    refine (hconjunct.judged ()).bind (w := fun _ => Scope.checkAll ws rest) hconjunct.leads
      fun b l₂ _ h₂ _ hb _ => ?_
    exact ih l₂ b _ h₂ hb

theorem Valid.judged_lowerScope (hl : l.Valid ws) (s : Scope) :
    Judged l (lowerScope ws s) (Scope.checkAll ws s.constraints) :=
  judged_lowerAll s.constraints l constantTrue _ hl hl.means_constantTrue

/-! ## Values under assignments -/

/-- The assignment gives the terms of some fields these raw values. -/
def Gives (l : Lowering) (ρ : Assignment) (fs : List Field)
    (raw : Field → Nat) : Prop :=
  ∀ f ∈ fs, ∃ t, l.term? f = some t ∧ BitVector.valueOf l.solver.store ρ t.bits = .ok (raw f)

/-- All raw values are given to the fields of a lowering by some assignment. -/
theorem Valid.exists_gives (hl : l.Valid ws) (hfs : ∀ f ∈ fs, f ∈ l.fields) (hraw : ws.Fits raw) :
    ∃ ρ, Gives l ρ fs raw := by
  obtain ⟨ρ, hρ⟩ := hl.exists_reads_of_fits hraw
  refine ⟨ρ, fun f hf => ?_⟩
  obtain ⟨p, hp, rfl⟩ := List.mem_map.1 (hfs f hf)
  exact ⟨p.2, hl.term?_of_mem hp, hρ p hp⟩

theorem Gives.reading_eq (h : Gives l ρ fs raw) {f : Field} (hf : f ∈ fs) :
    reading ws l ρ f = raw f := by
  obtain ⟨t, ht, hvalue⟩ := h f hf
  unfold reading
  rw [ht]
  show ((BitVector.valueOf l.solver.store ρ t.bits).toOption).getD 0 = _
  rw [hvalue]
  rfl

/-- **The term of a scope is true where its constraints hold**, for the raw values that the
assignment gives to the fields of the scope. -/
theorem Means.valueOf_of_gives (ht : l.Means ws t fun fields => flag (s.holds fields))
    (hl : l.Valid ws) (h : Gives l ρ s.fields raw) :
    BitVector.valueOf l.solver.store ρ t.bits = .ok (s.holds (ws.quantity raw)).toNat := by
  obtain ⟨Q, hQ, hvalue⟩ := ht
  -- the other fields of the lowering do not matter
  have hlocal : s.holds (ws.quantity (reading ws l ρ)) = s.holds (ws.quantity raw) :=
    Scope.holds_congr fun f hf => by rw [Workspace.quantity, h.reading_eq hf]; rfl
  rw [hQ.spells.valueOf, hvalue ρ _ (hl.reads_reading ρ), ← hlocal]
  rfl

/-! ## Numbers of solutions -/

/-- The raw values of some fields for which a condition holds. All other fields have their present
values. -/
def tuples (ws : Workspace) (fs : List Field) (κ : (Field → Quantity) → Bool) :
    Set (Field → Nat) :=
  {raw | (∀ f ∈ fs, raw f < 2 ^ (ws.slot f).width) ∧ (∀ f, f ∉ fs → raw f = (ws.slot f).raw) ∧
    κ (ws.quantity raw) = true}

theorem tuples_congr {gs : List Field} (h : ∀ f, f ∈ fs ↔ f ∈ gs) :
    tuples ws fs κ = tuples ws gs κ := by
  simp only [tuples, h]

/-- **The count is the number of raw values for which the condition holds.** -/
theorem Sound.countSolutions_eq (h : Sound ws l) (hfull : l.Full ws)
    (ht : l.Means ws t fun fields => flag (κ fields)) :
    ∃ s, Solver.countSolutions t l.solver = .ok ((tuples ws l.fields κ).ncard, s) := by
  have hl := h.valid
  obtain ⟨Q, hQ, hvalue⟩ := ht
  have hholds : ∀ ρ, (Q ρ).holds = κ (ws.quantity (reading ws l ρ)) := fun ρ => by
    rw [hvalue ρ _ (hl.reads_reading ρ), holds_flag]
  -- the term depends on the variables in use only, as the readings do
  have hwithin : Within l.solver.numVars fun ρ => (Q ρ).holds := fun ρ σ hρσ => by
    simp only [hholds, hl.reading_congr hρσ]
  -- assignments to the variables and tuples of raw values correspond one to one
  have himage : (fun values => reading ws l (assign values)) ''
      {values : Fin l.solver.numVars → Bool | (Q (assign values)).holds = true} =
        tuples ws l.fields κ := by
    ext raw
    constructor
    · rintro ⟨values, hvalues, rfl⟩
      refine ⟨fun f _ => hl.reading_lt _ f, fun f hf => reading_of_not_mem hf _, ?_⟩
      rwa [← hholds]
    · rintro ⟨hlt, hout, hκ⟩
      obtain ⟨values, rfl⟩ := hl.exists_reading hlt hout
      refine ⟨values, ?_, rfl⟩
      rwa [← hholds] at hκ
  -- the term is a single bit, which is its own truth value
  obtain ⟨e, rfl, -⟩ := (hQ.congr fun ρ => hvalue ρ _ (hl.reads_reading ρ)).exists_bit
  have hcount := Solver.countSolutions_spec (e := e) hl.store hQ hwithin h.numVars_lt rfl
  rw [← ncard_models l.solver.numVars fun ρ => (Q ρ).holds] at hcount
  rw [← himage, Set.ncard_image_of_injective _ (hl.reading_injective hfull)]
  exact ⟨_, hcount⟩

/-! ## Two lowerings of one scope -/

/-- What a run of a scope says: its error is that of the constraints, and its term is there with
those of all its fields. -/
theorem Valid.of_run_lowerScope {r : Except Error BitVector} (hl : l.Valid ws)
    (hr : (lowerScope ws s).run.run l = .ok (r, l')) :
    (∀ e, r = .error e ↔ Scope.checkAll ws s.constraints = .error e) ∧ ∀ t, r = .ok t →
      l'.Valid ws ∧ (∀ f ∈ s.fields, f ∈ l'.fields) ∧
        l'.Means ws t fun fields => flag (s.holds fields) := by
  have hjudged := hl.judged_lowerScope s
  cases r with
  | error err =>
    rw [hjudged.of_run_error hr]
    exact ⟨fun e => by rw [Except.error.injEq, Except.error.injEq], nofun⟩
  | ok t =>
    obtain ⟨u, hu⟩ := hjudged.exists_of_run hr
    obtain ⟨hl', -, hfields, ht⟩ := (hl.leads_lowerScope s).of_run hr
    refine ⟨fun e => by rw [hu]; exact ⟨nofun, nofun⟩, ?_⟩
    rintro _ ⟨⟩
    refine ⟨hl', fun f hf => ?_, ht⟩
    rw [hfields, Field.mem_collect]
    exact Or.inr (Scope.mem_fields.1 hf)

/-- **Two lowerings of one scope have the same outcome**, whatever was done before and whatever
variables the fields have, as long as neither exceeds the storage. They have the same error, or
terms that are both true or both false for the same raw values of the fields, of which every choice
is given to the terms by some assignment; and where both have variables for the same fields and no
others, they have as many solutions. -/
theorem Reached.same_formula (h₁ : Reached ws l₁) (h₂ : Reached ws l₂) (s : Scope) :
    ((∃ r l', (lowerScope ws s).run.run l₁ = .ok (r, l')) ∨ Exceeds l₁ (lowerScope ws s).run) ∧
    ((∃ r l', (lowerScope ws s).run.run l₂ = .ok (r, l')) ∨ Exceeds l₂ (lowerScope ws s).run) ∧
    ∀ r₁ r₂ l₁' l₂', (lowerScope ws s).run.run l₁ = .ok (r₁, l₁') →
      (lowerScope ws s).run.run l₂ = .ok (r₂, l₂') →
      (∀ e, r₁ = .error e ↔ r₂ = .error e) ∧ ∀ t₁ t₂, r₁ = .ok t₁ → r₂ = .ok t₂ →
        (∀ raw, ws.Fits raw →
          (∃ ρ₁, Gives l₁' ρ₁ s.fields raw) ∧ ∃ ρ₂, Gives l₂' ρ₂ s.fields raw) ∧
        (∀ raw ρ₁ ρ₂, Gives l₁' ρ₁ s.fields raw → Gives l₂' ρ₂ s.fields raw → ∃ b : Bool,
          BitVector.valueOf l₁'.solver.store ρ₁ t₁.bits = .ok b.toNat ∧
            BitVector.valueOf l₂'.solver.store ρ₂ t₂.bits = .ok b.toNat) ∧
        (Full ws l₁' → Full ws l₂' → (∀ f, f ∈ l₁'.fields ↔ f ∈ l₂'.fields) → ∃ n s₁ s₂,
          Solver.countSolutions t₁ l₁'.solver = .ok (n, s₁) ∧
            Solver.countSolutions t₂ l₂'.solver = .ok (n, s₂)) := by
  refine ⟨(h₁.valid.leads_lowerScope s).run_or_exceeds h₁.sound.bounded,
    (h₂.valid.leads_lowerScope s).run_or_exceeds h₂.sound.bounded, ?_⟩
  intro r₁ r₂ l₁' l₂' hr₁ hr₂
  obtain ⟨herror₁, hok₁⟩ := h₁.valid.of_run_lowerScope hr₁
  obtain ⟨herror₂, hok₂⟩ := h₂.valid.of_run_lowerScope hr₂
  refine ⟨fun e => (herror₁ e).trans (herror₂ e).symm, fun t₁ t₂ ht₁ ht₂ => ?_⟩
  obtain ⟨hl₁, hfields₁, hmeans₁⟩ := hok₁ t₁ ht₁
  obtain ⟨hl₂, hfields₂, hmeans₂⟩ := hok₂ t₂ ht₂
  refine ⟨fun raw hraw => ⟨hl₁.exists_gives hfields₁ hraw, hl₂.exists_gives hfields₂ hraw⟩,
    fun raw ρ₁ ρ₂ hρ₁ hρ₂ => ⟨s.holds (ws.quantity raw), hmeans₁.valueOf_of_gives hl₁ hρ₁,
      hmeans₂.valueOf_of_gives hl₂ hρ₂⟩, fun hfull₁ hfull₂ hsame => ?_⟩
  have hsound₁ := h₁.sound.step (fun hl => hl.leads_lowerScope s) hr₁
  have hsound₂ := h₂.sound.step (fun hl => hl.leads_lowerScope s) hr₂
  obtain ⟨s₁, hcount₁⟩ := hsound₁.countSolutions_eq hfull₁ hmeans₁
  obtain ⟨s₂, hcount₂⟩ := hsound₂.countSolutions_eq hfull₂ hmeans₂
  rw [← tuples_congr hsame] at hcount₂
  exact ⟨_, s₁, s₂, hcount₁, hcount₂⟩

/-- A workspace with two random fields of one bit. -/
def twoFields : Workspace :=
  ⟨#[{ Slot.blank with isRandom := true, binding := some ⟨0, "a"⟩ },
    { Slot.blank with isRandom := true, binding := some ⟨1, "b"⟩ }], 0⟩

/-- One field is different from the other. -/
def apart : Scope := ⟨[.binary .xor (.field ⟨0⟩) (.field ⟨1⟩)]⟩

/-- With variables on demand, or declared in the other order one field after the other. -/
theorem apart_same_formula : ∃ t₁ t₂ l₀ l₁' l₂' n s₁ s₂,
    (declare twoFields [⟨1⟩, ⟨0⟩]).run.run (start (.ofSeed 1 .sequential)) = .ok (.ok (), l₀) ∧
    (lowerScope twoFields apart).run.run (start (.ofSeed 0 .interleaved)) = .ok (.ok t₁, l₁') ∧
    (lowerScope twoFields apart).run.run l₀ = .ok (.ok t₂, l₂') ∧
    Solver.countSolutions t₁ l₁'.solver = .ok (n, s₁) ∧
    Solver.countSolutions t₂ l₂'.solver = .ok (n, s₂) := by
  have hruns : ∃ t₁ t₂ l₀ l₁' l₂',
      (declare twoFields [⟨1⟩, ⟨0⟩]).run.run (start (.ofSeed 1 .sequential)) =
        Except.ok (.ok (), l₀) ∧
      (lowerScope twoFields apart).run.run (start (.ofSeed 0 .interleaved)) =
        Except.ok (.ok t₁, l₁') ∧
      (lowerScope twoFields apart).run.run l₀ = Except.ok (.ok t₂, l₂') ∧
      l₁'.fields = [⟨0⟩, ⟨1⟩] ∧ l₂'.fields = [⟨1⟩, ⟨0⟩] ∧
      l₁'.solver.numVars = 2 ∧ l₂'.solver.numVars = 2 :=
    ⟨_, _, _, _, _, rfl, rfl, rfl, rfl, rfl, rfl, rfl⟩
  obtain ⟨t₁, t₂, l₀, l₁', l₂', hdeclare, hr₁, hr₂, hf₁, hf₂, hn₁, hn₂⟩ := hruns
  obtain ⟨-, -, hsame⟩ := Reached.new.same_formula (Reached.new.declare hdeclare) apart
  obtain ⟨-, hterms⟩ := hsame _ _ _ _ hr₁ hr₂
  obtain ⟨-, -, hcount⟩ := hterms t₁ t₂ rfl rfl
  have hfull₁ : Full twoFields l₁' := by
    rw [Full, hn₁, hf₁]
    rfl
  have hfull₂ : Full twoFields l₂' := by
    rw [Full, hn₂, hf₂]
    rfl
  have hfields : ∀ f, f ∈ l₁'.fields ↔ f ∈ l₂'.fields := fun f => by
    simp [hf₁, hf₂, or_comm]
  obtain ⟨n, s₁, s₂, hcount₁, hcount₂⟩ := hcount hfull₁ hfull₂ hfields
  exact ⟨t₁, t₂, l₀, l₁', l₂', n, s₁, s₂, hdeclare, hr₁, hr₂, hcount₁, hcount₂⟩

end Lowering

end Stimulus

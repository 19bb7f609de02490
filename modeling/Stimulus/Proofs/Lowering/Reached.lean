import Stimulus.Proofs.Runs
import Stimulus.Proofs.Lowering.Meaning
import Stimulus.Proofs.Lowering.Readings

/-!
# Lowerings that are reached

A lowering is reached (`Lowering.Reached`) by lowering expressions and asking for
terms, in any order and with errors in between, on a solver that may have been
used for anything before, while fields are declared, bound and assigned. Every
reached lowering is valid, so the term of an expression has its type and its value
under every assignment (`Lowering.Reached.lower_preserves_meaning`).
-/

set_option autoImplicit false

namespace Stimulus

open Diagram Store

/-- Every vector over the edges of a store means some quantity. -/
theorem Diagram.Store.Carries.means {s : Store} {a : BitVector} (ha : s.Carries a)
    (hs : s.Reduced) : ∃ Q, s.Means a Q := by
  obtain ⟨n, X, -, hX⟩ := ha.spells hs
  exact ⟨_, hX.means (Nat.succ_pos n)⟩

/-- Bound fields stay bound and keep their types. -/
def Workspace.EvolvesTo (ws ws' : Workspace) : Prop :=
  ∀ f, (ws.slot f).isBound = true →
    (ws'.slot f).isBound = true ∧ (ws'.slot f).type = (ws.slot f).type

namespace Lowering

variable {ws ws' : Workspace} {l l' : Lowering} {t : BitVector} {f : Field}

/-- Lowerings on a solver that is new, reset or in use, after any lowering steps, computations on
the store, fresh terms and draws, while the fields evolve. -/
inductive Reached : Workspace → Lowering → Prop
  | new {ws : Workspace} {seed : UInt64} {layout : Layout} :
    Reached ws (start (.ofSeed seed layout))
  | again {ws : Workspace} {l : Lowering} : Reached ws l → Reached ws (start l.solver)
  | reset {ws : Workspace} {l : Lowering} : Reached ws l → Reached ws (start l.solver.reset)
  | evolve {ws ws' : Workspace} {l : Lowering} :
    Reached ws l → ws.EvolvesTo ws' → Reached ws' l
  | lower {ws : Workspace} {l l' : Lowering} {e : Expr} {r : Except Error BitVector} :
    Reached ws l → (lower ws e).run.run l = .ok (r, l') → Reached ws l'
  | fieldTerm {ws : Workspace} {l l' : Lowering} {f : Field} {r : Except Error BitVector} :
    Reached ws l → (fieldTerm ws f).run.run l = .ok (r, l') → Reached ws l'
  | declare {ws : Workspace} {l l' : Lowering} {fs : List Field} {r : Except Error Unit} :
    Reached ws l → (declare ws fs).run.run l = .ok (r, l') → Reached ws l'
  | conj {ws : Workspace} {l l' : Lowering} {a b : BitVector} {r : Except Error BitVector} :
    Reached ws l → l.solver.store.Carries a → l.solver.store.Carries b →
      (Lowering.and a b).run.run l = .ok (r, l') → Reached ws l'
  | disj {ws : Workspace} {l l' : Lowering} {a b : BitVector} {r : Except Error BitVector} :
    Reached ws l → l.solver.store.Carries a → l.solver.store.Carries b →
      (Lowering.or a b).run.run l = .ok (r, l') → Reached ws l'
  | call {ws : Workspace} {l : Lowering} {c : Call} {es : List Edge} {store : Store} :
    Reached ws l → l.solver.store.Allows c → c.run l.solver.store = .ok (es, store) →
      Reached ws ⟨{ l.solver with store := store }, l.table⟩
  | freshVariable {ws : Workspace} {l : Lowering} {shape : Shape} {t : BitVector} {s : Solver} :
    Reached ws l → 1 ≤ shape.width → Solver.freshVariable shape l.solver = .ok (t, s) →
      Reached ws ⟨s, l.table⟩
  | freshVariables {ws : Workspace} {l : Lowering} {shapes : List Shape} {ts : List BitVector}
    {s : Solver} : Reached ws l → (∀ shape ∈ shapes, 1 ≤ shape.width) →
      Solver.freshVariables shapes l.solver = .ok (ts, s) → Reached ws ⟨s, l.table⟩
  | draw {ws : Workspace} {l : Lowering} {source : Source} :
    Reached ws l → Reached ws ⟨{ l.solver with source := source }, l.table⟩

/-! ## Validity -/

theorem valid_start {s : Solver} (hs : s.Valid 0) : Valid ws (start s) :=
  ⟨hs, List.nodup_nil, TermTable.agrees_empty, [], List.Forall₂.nil, List.nodup_nil,
    fun _ hv => absurd hv List.not_mem_nil⟩

theorem Valid.evolve (hl : l.Valid ws) (hws : ws.EvolvesTo ws') : l.Valid ws' := by
  obtain ⟨vars, hvars, hnodup, hrange⟩ := hl.laid
  refine ⟨hl.solver, hl.nodup, hl.indexed, vars, hvars.imp fun p vs h => ?_, hnodup, hrange⟩
  obtain ⟨hbound, htype⟩ := hws p.1 h.bound
  have hwidth : (ws'.slot p.1).width = (ws.slot p.1).width := congrArg FieldType.width htype
  have hsigned : (ws'.slot p.1).signed = (ws.slot p.1).signed := congrArg FieldType.signed htype
  exact ⟨hbound, h.signed_eq.trans hsigned.symm, h.length_eq.trans hwidth.symm, hwidth ▸ h.spells⟩

/-- More variables on a store that has grown. -/
theorem Valid.with_solver (hl : l.Valid ws) {s : Solver} (hs : s.Valid 0)
    (hg : l.solver.store.GrowsTo s.store) (hnum : l.solver.numVars ≤ s.numVars) :
    Valid ws ⟨s, l.table⟩ := by
  obtain ⟨vars, hvars, hnodup, hrange⟩ := hl.laid
  refine ⟨hs, hl.nodup, hl.indexed, vars, hvars.imp fun _ _ h => h.grow hl.store.reduced hg, hnodup,
    fun v hv => ?_⟩
  have := hrange v hv
  show 0 < v ∧ v ≤ s.numVars
  omega

/-- What a lowering keeps: it is valid, and its storage has the limit and what a new storage has. -/
structure Sound (ws : Workspace) (l : Lowering) : Prop where
  valid : l.Valid ws
  bounded : l.solver.store.bounded = true
  growsTo : empty.GrowsTo l.solver.store

theorem sound_start_reset (ws : Workspace) (s : Solver) : Sound ws (start s.reset) where
  valid := valid_start (Solver.valid_reset s)
  bounded := rfl
  growsTo := Store.GrowsTo.refl empty

/-- There are numbers for more variables. -/
theorem Sound.numVars_lt (h : Sound ws l) : l.solver.numVars < lastVariable := by
  have hle := h.valid.solver.numVars_le h.bounded
  unfold maxNodes at hle
  unfold lastVariable
  omega

section Sound

variable {α : Type} {x : Lower α} {fs : List Field} {Q : α → Lowering → Prop}

/-- A step that ends keeps a lowering sound. -/
theorem Sound.step (h : Sound ws l) (hx : l.Valid ws → Leads ws l x fs Q) {r : Except Error α}
    (hr : x.run.run l = .ok (r, l')) : Sound ws l' := by
  obtain ⟨hl', hg, hsame, -⟩ := (hx h.valid).of_end hr
  exact ⟨hl', hsame.trans h.bounded, h.growsTo.trans hg.store⟩

/-- Terms for anything but fields keep a lowering sound. -/
theorem Sound.allocate (h : Sound ws l) {y : Solving α} {n : Nat} {P : α → Store → Prop}
    (hy : Solver.Allocates 0 True l.solver y n P) {a : α} {s : Solver}
    (hr : y l.solver = .ok (a, s)) : Sound ws ⟨s, l.table⟩ := by
  obtain ⟨t, rfl, hs, hg, hsame, -⟩ := hy.of_run hr
  exact ⟨h.valid.with_solver hs hg (Nat.le_add_right _ _), hsame.trans h.bounded,
    h.growsTo.trans hg⟩

/-- A connective of two vectors keeps a lowering sound. -/
theorem Sound.connective (h : Sound ws l) {a b : BitVector} {y : Build BitVector}
    (ha : l.solver.store.Carries a) (hb : l.solver.store.Carries b)
    {P : (Assignment → Quantity) → (Assignment → Quantity) → BitVector → Store → Prop}
    (hy : ∀ {A B}, l.solver.store.Means a A → l.solver.store.Means b B →
      l.solver.store.Gives y (P A B))
    {r : Except Error BitVector} (hr : (solving (Solver.build y)).run.run l = .ok (r, l')) :
    Sound ws l' := by
  obtain ⟨A, hA⟩ := ha.means h.valid.store.reduced
  obtain ⟨B, hB⟩ := hb.means h.valid.store.reduced
  exact h.step (fun hl => (hl.succeeds_build (Q := fun _ _ => True) (hy hA hB)
    fun _ _ _ _ _ => trivial).leads) hr

end Sound

/-- **What runs reach is sound.** -/
theorem Reached.sound (h : Reached ws l) : Sound ws l := by
  induction h with
  | new => exact sound_start_reset _ (.ofSeed _ _)
  | again _ ih => exact ⟨valid_start ih.valid.solver, ih.bounded, ih.growsTo⟩
  | reset _ _ => exact sound_start_reset _ _
  | evolve _ hws ih => exact ⟨ih.valid.evolve hws, ih.bounded, ih.growsTo⟩
  | lower _ hr ih => exact ih.step (leads_lower _ _) hr
  | fieldTerm _ hr ih => exact ih.step (fun hl => hl.leads_fieldTerm _) hr
  | declare _ hr ih => exact ih.step (fun hl => hl.leads_declare _) hr
  | conj _ ha hb hr ih =>
    exact ih.connective ha hb (fun hA hB => gives_and ih.valid.store hA hB) hr
  | disj _ ha hb hr ih =>
    exact ih.connective ha hb (fun hA hB => gives_or ih.valid.store hA hB) hr
  | call _ hc hr ih =>
    have hgives := ih.valid.store.gives_call hc
    obtain ⟨hs, hg, -⟩ := hgives.of_run hr
    exact ⟨(ih.valid.with_store hs hg).1, (hgives.bounded_of_run hr).trans ih.bounded,
      ih.growsTo.trans hg⟩
  | freshVariable _ hw hr ih =>
    exact ih.allocate (ih.valid.solver.allocates_freshVariable hw fun _ => trivial) hr
  | freshVariables _ hw hr ih =>
    exact ih.allocate (ih.valid.solver.allocates_freshVariables hw fun _ _ _ _ => trivial) hr
  | draw _ ih =>
    have hs := ih.valid.solver
    exact ⟨ih.valid.with_solver ⟨hs.store, hs.base_le, hs.named⟩ (Store.GrowsTo.refl _)
      (Nat.le_refl _), ih.bounded, ih.growsTo⟩

theorem Reached.valid (h : Reached ws l) : l.Valid ws := h.sound.valid

/-! ## Values -/

/-- **Lowering preserves meaning.** The term has the type and, under every assignment, the value
of the expression, for the raw values that the fields have under the assignment; and every choice
of raw values for the fields is that of some assignment. -/
theorem Reached.lower_preserves_meaning {e : Expr} (h : Reached ws l)
    (hr : (Lowering.lower ws e).run.run l = .ok (.ok t, l')) :
    (∀ f ∈ e.fields, f ∈ l'.fields) ∧
    (∀ raw, (∀ f ∈ l'.fields, raw f < 2 ^ (ws.slot f).width) → ∃ ρ, l'.Reads ρ raw) ∧
    (∀ ρ, ∃ raw, l'.Reads ρ raw ∧ ∀ f ∈ l'.fields, raw f < 2 ^ (ws.slot f).width) ∧
    ∀ ρ raw, l'.Reads ρ raw →
      t.width = (e.meaning (ws.quantity raw)).width ∧
      t.signed = (e.meaning (ws.quantity raw)).signed ∧
      BitVector.valueOf l'.solver.store ρ t.bits = .ok (e.meaning (ws.quantity raw)).raw := by
  -- the fault of a lowering step is excluded by the run
  obtain ⟨hl', -, hfields, Q, hQ, hvalue⟩ := (leads_lower e l h.valid).of_run hr
  refine ⟨fun f hf => ?_, fun raw => hl'.exists_reads,
    fun ρ => ⟨reading ws l' ρ, hl'.reads_reading ρ, fun f _ => hl'.reading_lt ρ f⟩,
    fun ρ raw hread => ?_⟩
  · rw [Expr.fields_eq, Field.mem_collect] at hf
    rw [hfields, Field.mem_collect]
    exact Or.inr (hf.resolve_left List.not_mem_nil)
  · have hq : Q ρ = e.meaning (ws.quantity raw) := hvalue ρ raw hread
    rw [← hq]
    exact ⟨(hQ.type_eq ρ).1.symm, (hQ.type_eq ρ).2.symm, hQ.spells.valueOf ρ⟩

/-- A workspace with one random field of two bits. -/
def twoBits : Workspace :=
  ⟨#[⟨.scalar 2 false, true, 0, some ⟨0, "x"⟩, by decide, by decide, by decide⟩], 0⟩

/-- The field of this workspace with all its bits turned over by a single signed bit. -/
def turned : Expr :=
  .binary .xor (.field ⟨0⟩) (.literal ⟨1, 1, true, Nat.one_pos, by decide, by decide⟩)

theorem turned_keeps_meaning : ∃ t l',
    (Lowering.lower twoBits turned).run.run (start (.ofSeed 0 .interleaved)) = .ok (.ok t, l') ∧
      ∃ ρ, l'.Reads ρ (fun _ => 1) ∧ t.width = 2 ∧ t.signed = false ∧
        BitVector.valueOf l'.solver.store ρ t.bits = .ok 2 := by
  have hr : ∃ t l', (Lowering.lower twoBits turned).run.run (start (.ofSeed 0 .interleaved)) =
      Except.ok (.ok t, l') ∧ l'.fields = [⟨0⟩] := ⟨_, _, rfl, rfl⟩
  obtain ⟨t, l', hr, hfields⟩ := hr
  obtain ⟨-, hreads, -, hmeaning⟩ := Reached.new.lower_preserves_meaning hr
  obtain ⟨ρ, hρ⟩ := hreads (fun _ => 1) fun f hf => by
    rw [hfields, List.mem_singleton] at hf
    subst hf
    decide
  exact ⟨t, l', hr, ρ, hρ, hmeaning ρ _ hρ⟩

end Lowering

end Stimulus

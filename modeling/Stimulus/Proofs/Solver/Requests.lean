import Stimulus.Proofs.Lowering.Meaning
import Stimulus.Proofs.Lowering.Readings
import Stimulus.Proofs.Runs
import Stimulus.Proofs.Solver.Solution

/-!
# Runs of a solver

A run is a sequence of requests to a solver since its last reset, each on terms that
the run has given before; a new solver is its own reset. Whatever the order in which
terms are built and variables are taken, the run is sound (`Solver.Run.sound`): every
variable in use has a node, and every term depends on variables in use only. So there
are more nodes than variables (`Solver.Sound.numVars_add_two_le_size`), and the three
ways to ask for solutions meet no fault and agree (`Solver.Run.questions_agree`).
-/

set_option autoImplicit false

namespace Stimulus

open Diagram Store Quantity

/-! ## Quantities of the first variables -/

namespace Diagram

/-- The quantity depends on the variables `1, …, n` only. -/
def Upto {α : Type} (n : Nat) (f : Assignment → α) : Prop :=
  ∀ ρ σ : Assignment, (∀ v, 0 < v → v ≤ n → ρ v = σ v) → f ρ = f σ

variable {α β γ : Type} {n k : Nat} {f : Assignment → α} {g : Assignment → β}

theorem Upto.mono (h : Upto n f) (hnk : n ≤ k) : Upto k f := fun ρ σ hρσ =>
  h ρ σ fun v hv hvn => hρσ v hv (Nat.le_trans hvn hnk)

theorem upto_const (n : Nat) (a : α) : Upto n fun _ => a := fun _ _ _ => rfl

theorem Upto.map (h : Upto n f) (op : α → β) : Upto n fun ρ => op (f ρ) := fun ρ σ hρσ =>
  congrArg op (h ρ σ hρσ)

theorem Upto.map₂ (hf : Upto n f) (hg : Upto n g) (op : α → β → γ) :
    Upto n fun ρ => op (f ρ) (g ρ) := fun ρ σ hρσ =>
  congrArg₂ op (hf ρ σ hρσ) (hg ρ σ hρσ)

theorem upto_valueAt {vars : List Nat} (h : ∀ v ∈ vars, 0 < v ∧ v ≤ n) :
    Upto n fun ρ => valueAt ρ vars := fun _ _ hρσ =>
  valueAt_congr fun v hv => hρσ v (h v hv).1 (h v hv).2

end Diagram

namespace Solver

/-! ## Requests -/

/-- A call of the solver with its arguments. -/
inductive Request where
  | constant (value width : Nat) (signed : Bool)
  | freshVariable (shape : Shape)
  | freshVariables (shapes : List Shape)
  | toBool (a : BitVector)
  | and (a b : BitVector)
  | or (a b : BitVector)
  | not (a : BitVector)
  | apply (op : Operator) (a b : BitVector)
  | selectBit (base index : BitVector)
  | slice (a : BitVector) (high low : Nat)
  | solve (a : BitVector)
  | witness (a : BitVector)
  | countSolutions (a : BitVector)

namespace Request

/-- The one term that a computation gives, as a list. -/
def term (x : Solving BitVector) : Solving (List BitVector) := return [← x]

/-- A question about a term gives no new terms. -/
def question {α : Type} (x : Solving α) : Solving (List BitVector) := do
  discard x
  return []

/-- The request itself, which gives the terms of its result. -/
def run : Request → Solving (List BitVector)
  | constant value width signed => term (liftM (Solver.constant value width signed))
  | freshVariable shape => term (Solver.freshVariable shape)
  | freshVariables shapes => Solver.freshVariables shapes
  | toBool a => term (Solver.toBool a)
  | and a b => term (Solver.and a b)
  | or a b => term (Solver.or a b)
  | not a => term (Solver.not a)
  | apply op a b => term (Solver.apply op a b)
  | selectBit base index => term (Solver.selectBit base index)
  | slice a high low => term (liftM (a.extract high low))
  | solve a => question (Solver.solve a)
  | witness a => question (Solver.witness a)
  | countSolutions a => question (Solver.countSolutions a)

/-- Requests on given terms: new terms have at least one bit, and a slice stays within its term. -/
def Legal (terms : List BitVector) : Request → Prop
  | constant _ width _ => 1 ≤ width
  | freshVariable shape => 1 ≤ shape.width
  | freshVariables shapes => ∀ shape ∈ shapes, 1 ≤ shape.width
  | toBool a | not a | solve a | witness a | countSolutions a => a ∈ terms
  | and a b | or a b | apply _ a b | selectBit a b => a ∈ terms ∧ b ∈ terms
  | slice a high low => a ∈ terms ∧ low ≤ high ∧ high < a.width

end Request

/-- The solvers that requests reach from a reset, with the terms given on the way. -/
inductive Run : Solver → List BitVector → Prop
  | reset (s : Solver) : Run s.reset []
  | request {s s' : Solver} {terms new : List BitVector} {r : Request} :
    Run s terms → r.Legal terms → r.run s = .ok (new, s') → Run s' (terms ++ new)

variable {s s' : Solver} {terms new : List BitVector} {a b : BitVector} {r : Request}
  {P Q : Assignment → Quantity}

/-! ## What runs keep -/

/-- The term means a quantity of the variables in use. -/
def Supports (s : Solver) (a : BitVector) : Prop := ∃ Q, s.store.Means a Q ∧ Upto s.numVars Q

/-- The terms of a solver depend on its variables, each of which has a node. -/
structure Sound (s : Solver) (terms : List BitVector) : Prop where
  /-- The store is valid, and every variable in use is the function of an edge. -/
  valid : s.Valid 0
  /-- The storage has a limit. -/
  bounded : s.store.bounded = true
  /-- The store has grown from the empty one. -/
  growsTo : empty.GrowsTo s.store
  /-- No term depends on any other variable. -/
  supports : ∀ a ∈ terms, s.Supports a

theorem sound_reset (s : Solver) : Sound s.reset [] where
  valid := valid_reset s
  bounded := rfl
  growsTo := GrowsTo.refl empty
  supports _ ha := absurd ha List.not_mem_nil

/-- The solver grows, with terms that depend on variables in use. -/
theorem Sound.extend (h : Sound s terms) (hs : s'.Valid 0)
    (hbounded : s'.store.bounded = s.store.bounded) (hg : s.store.GrowsTo s'.store)
    (hn : s.numVars ≤ s'.numVars) (hnew : ∀ a ∈ new, s'.Supports a) : Sound s' (terms ++ new) where
  valid := hs
  bounded := hbounded.trans h.bounded
  growsTo := h.growsTo.trans hg
  supports a ha := by
    rcases List.mem_append.1 ha with ha | ha
    · obtain ⟨Q, hmeans, hQ⟩ := h.supports a ha
      exact ⟨Q, hmeans.grow h.valid.store.reduced hg, hQ.mono hn⟩
    · exact hnew a ha

/-- There are numbers for more variables. -/
theorem Sound.numVars_lt (h : Sound s terms) : s.numVars < 2 ^ 31 := by
  have hle := h.valid.numVars_le h.bounded
  unfold maxNodes at hle
  omega

theorem Sound.numVars_lt_lastVariable (h : Sound s terms) : s.numVars < lastVariable :=
  Nat.lt_trans h.numVars_lt (by decide)

/-! ## One request -/

/-- The request goes through and keeps the solver sound, or the storage or the numbers of variables
do not last for it. -/
def Proceeds (s : Solver) (terms : List BitVector) (x : Solving (List BitVector)) : Prop :=
  (∃ new s', x s = .ok (new, s') ∧ Sound s' (terms ++ new)) ∨ Exceeds s x ∨ Overflows (x s)

/-- A computation on the store whose term means a quantity of the variables in use. -/
theorem Sound.proceeds_build (h : Sound s terms) {x : Build BitVector}
    (hx : s.store.Gives x fun t store => store.Means t Q) (hQ : Upto s.numVars Q) :
    s.Proceeds terms (Request.term (build x)) := by
  obtain ⟨t, store, hyields, hs, hg, ht⟩ := hx
  have hterm : Yields s (Request.term (build x)) [t] { s with store := store } :=
    (yields_build hyields).bind (.within rfl rfl rfl) (Nat.le_refl _)
  rcases hterm.run_or_outgrows with ⟨hr, hbounded⟩ | hfull
  · refine Or.inl ⟨[t], _, hr, h.extend (h.valid.with_store hs hg) hbounded hg (Nat.le_refl _)
      fun a ha => ?_⟩
    rw [List.mem_singleton.1 ha]
    exact ⟨Q, ht, hQ⟩
  · exact Or.inr (Or.inl hfull.exceeds)

/-- A term that needs no new node. -/
theorem Sound.proceeds_answer (h : Sound s terms) {y : Except Fault BitVector} (hy : y = .ok a)
    (ha : s.store.Means a Q) (hQ : Upto s.numVars Q) :
    s.Proceeds terms (Request.term (liftM y)) := by
  subst hy
  refine Or.inl ⟨[a], s, rfl, h.extend h.valid rfl (GrowsTo.refl _) (Nat.le_refl _) fun t ht => ?_⟩
  rw [List.mem_singleton.1 ht]
  exact ⟨Q, ha, hQ⟩

/-- A question goes through with the edge of its term. -/
theorem Sound.proceeds_question (h : Sound s terms) (ha : s.store.Means a Q) {α : Type}
    {x : Solving α} (hrun : ∀ e s', build a.truth s = .ok (e, s') →
      ∃ answer source, x s = .ok (answer, { s' with source := source }))
    (hfull : Outgrows s (build a.truth) → Outgrows s x) :
    s.Proceeds terms (Request.question x) := by
  rcases exists_truth_or_outgrows h.valid.store ha with ⟨e, s', hr⟩ | hout
  · obtain ⟨answer, source, hanswer⟩ := hrun e s' hr
    obtain ⟨store, htruth, rfl, hs, hg, -⟩ := truth_of_run h.valid.store ha hr
    have hbounded := (h.valid.store.gives_truth ha.spells).bounded_of_run htruth
    refine Or.inl ⟨[], { s with store := store, source := source }, ?_, h.extend
      (h.valid.with_store hs hg).with_source hbounded hg (Nat.le_refl _) fun a ha =>
        absurd ha List.not_mem_nil⟩
    show ((x s).map _ >>= _) = _
    rw [hanswer]
    rfl
  · obtain ⟨hrun, answer, s', hfree, hsize⟩ := hfull hout
    refine Or.inr (Or.inl (Outgrows.exceeds ⟨?_, [], s', ?_, hsize⟩))
    · show ((x s).map _ >>= _) = _
      rw [hrun]
      rfl
    · show ((x (unlimited s)).map _ >>= _) = _
      rw [hfree]
      rfl

theorem Fresh.supports {shape : Shape} {vars : List Nat} (h : Fresh s.store shape a vars)
    (hw : 1 ≤ shape.width) (hvars : ∀ v ∈ vars, 0 < v ∧ v ≤ s.numVars) : s.Supports a :=
  ⟨_, h.2.2.means hw, (upto_valueAt hvars).map (Quantity.mk shape.width a.signed)⟩

/-- A computation that takes variables for terms which depend on variables in use. -/
theorem Sound.proceeds_allocate (h : Sound s terms) {x : Solving (List BitVector)} {n : Nat}
    (hx : Allocates 0 True s x n fun new t => ∀ a ∈ new, (s.advance n t).Supports a) :
    s.Proceeds terms x := by
  refine hx.run_or_exceeds.imp_left fun ⟨new, t, hr⟩ => ⟨new, _, hr, ?_⟩
  obtain ⟨u, heq, hvalid, hg, hbounded, hnew⟩ := hx.of_run hr
  rw [heq]
  exact h.extend hvalid hbounded hg (Nat.le_add_right _ _) hnew

theorem Sound.proceeds_freshVariable (h : Sound s terms) (shape : Shape) (hw : 1 ≤ shape.width) :
    s.Proceeds terms (Request.term (Solver.freshVariable shape)) := by
  refine h.proceeds_allocate ((h.valid.allocates_freshVariable hw fun _ => trivial).mono
    fun r t _ _ hr a ha => ?_).map
  rw [List.mem_singleton.1 ha]
  refine Fresh.supports (s := s.advance shape.width t) hr hw fun v hv => ?_
  rw [List.mem_range'_1] at hv
  have hle : v ≤ s.numVars + shape.width := by omega
  exact ⟨by omega, hle⟩

theorem Sound.proceeds_freshVariables (h : Sound s terms) (shapes : List Shape)
    (hw : ∀ shape ∈ shapes, 1 ≤ shape.width) :
    s.Proceeds terms (Solver.freshVariables shapes) := by
  have hperm := s.layout.plan_perm (s.numVars + 1) (shapes.map Shape.width)
  refine h.proceeds_allocate ((h.valid.allocates_freshVariables hw fun _ _ _ _ => trivial).mono
    fun ts t _ _ hts a ha => ?_)
  obtain ⟨p, hp, hfresh⟩ := exists_of_forall₂ hts ha
  have hzip := List.of_mem_zip hp
  refine Fresh.supports (s := s.advance (Layout.total (shapes.map Shape.width)) t) hfresh
    (hw _ hzip.2) fun v hv => ?_
  -- the plan takes the variables that come into use, and no others
  have hrange := hperm.mem_iff.1 (List.mem_flatten.2 ⟨p.1, hzip.1, hv⟩)
  rw [List.mem_range'_1] at hrange
  have hle : v ≤ s.numVars + Layout.total (shapes.map Shape.width) := by omega
  exact ⟨by omega, hle⟩

/-- **Every legal request goes through and keeps a solver sound, or the storage or the numbers of
variables do not last for it.** -/
theorem Sound.proceeds (h : Sound s terms) :
    ∀ {r : Request}, r.Legal terms → s.Proceeds terms r.run
  | .constant value width signed, hw => by
    have hbits := spells_constantBits h.valid.store.reduced value width
    exact h.proceeds_answer (ofBits_of_length signed hbits.length hw) (hbits.means hw)
      (upto_const _ _)
  | .freshVariable shape, hw => h.proceeds_freshVariable shape hw
  | .freshVariables shapes, hw => h.proceeds_freshVariables shapes hw
  | .toBool a, ha => by
    obtain ⟨P, hP, hPn⟩ := h.supports a ha
    exact h.proceeds_build (h.valid.store.gives_truth hP.spells).ofBit
      (hPn.map fun p => flag p.holds)
  | .and a b, ⟨ha, hb⟩ => by
    obtain ⟨P, hP, hPn⟩ := h.supports a ha
    obtain ⟨Q, hQ, hQn⟩ := h.supports b hb
    exact h.proceeds_build (Lowering.gives_and h.valid.store hP hQ)
      (hPn.map₂ hQn fun p q => flag (p.holds && q.holds))
  | .or a b, ⟨ha, hb⟩ => by
    obtain ⟨P, hP, hPn⟩ := h.supports a ha
    obtain ⟨Q, hQ, hQn⟩ := h.supports b hb
    exact h.proceeds_build (Lowering.gives_or h.valid.store hP hQ)
      (hPn.map₂ hQn fun p q => flag (p.holds || q.holds))
  | .not a, ha => by
    obtain ⟨P, hP, hPn⟩ := h.supports a ha
    refine h.proceeds_build
      (((h.valid.store.gives_truth hP.spells).mono fun e t ht _ he => ?_).map)
      (hPn.map fun p => flag (!p.holds))
    exact (he.neg ht.reduced).means
  | .apply op a b, ⟨ha, hb⟩ => by
    obtain ⟨P, hP, hPn⟩ := h.supports a ha
    obtain ⟨Q, hQ, hQn⟩ := h.supports b hb
    exact h.proceeds_build (h.valid.store.gives_apply hP hQ op) (hPn.map₂ hQn (Quantity.apply op))
  | .selectBit a b, ⟨ha, hb⟩ => by
    obtain ⟨P, hP, hPn⟩ := h.supports a ha
    obtain ⟨Q, hQ, hQn⟩ := h.supports b hb
    exact h.proceeds_build (h.valid.store.gives_select hP.spells hQ.spells).ofBit
      (hPn.map₂ hQn Quantity.bit)
  | .slice a high low, ⟨ha, hrange⟩ => by
    obtain ⟨P, hP, hPn⟩ := h.supports a ha
    exact h.proceeds_answer (if_pos hrange) (Lowering.Means.slice hP hrange.1 hrange.2)
      (hPn.map (·.slice high low))
  | .solve a, ha => by
    obtain ⟨P, hP, hPn⟩ := h.supports a ha
    have hwithin : Within s.numVars fun ρ => (P ρ).holds := hPn.map Quantity.holds
    refine h.proceeds_question hP (fun e s' hr => ?_) fun hout =>
      (outgrows_questions h.valid.store hP hwithin h.numVars_lt_lastVariable hout).1
    obtain ⟨r, source, hanswer, -⟩ :=
      solve_spec h.valid.store hP hwithin h.numVars_lt_lastVariable hr
    exact ⟨r, source, hanswer⟩
  | .witness a, ha => by
    obtain ⟨P, hP, hPn⟩ := h.supports a ha
    have hwithin : Within s.numVars fun ρ => (P ρ).holds := hPn.map Quantity.holds
    refine h.proceeds_question hP (fun e s' hr => ?_) fun hout =>
      (outgrows_questions h.valid.store hP hwithin h.numVars_lt_lastVariable hout).2.1
    obtain ⟨r, hanswer, -⟩ := witness_spec h.valid.store hP hwithin hr
    exact ⟨r, s'.source, hanswer⟩
  | .countSolutions a, ha => by
    obtain ⟨P, hP, hPn⟩ := h.supports a ha
    have hwithin : Within s.numVars fun ρ => (P ρ).holds := hPn.map Quantity.holds
    refine h.proceeds_question hP (fun e s' hr => ?_) fun hout =>
      (outgrows_questions h.valid.store hP hwithin h.numVars_lt_lastVariable hout).2.2
    exact ⟨_, s'.source, countSolutions_spec h.valid.store hP hwithin h.numVars_lt_lastVariable hr⟩

/-! ## Whole runs -/

/-- **Runs are sound.** -/
theorem Run.sound (h : Run s terms) : Sound s terms := by
  induction h with
  | reset s => exact sound_reset s
  | request _ hlegal hr ih =>
    rcases ih.proceeds hlegal with ⟨new, s', hr', hsound⟩ | ⟨hfull, -⟩ | ⟨number, -, hover⟩
    · rw [hr] at hr'
      cases hr'
      exact hsound
    · rw [hr] at hfull
      cases hfull
    · rw [hr] at hover
      cases hover

/-- The bits of a term that depends on some variables have equal values where these do. -/
theorem Supports.evaluate_eq (h : s.Supports a) {ρ σ : Assignment}
    (hρσ : ∀ v, 0 < v → v ≤ s.numVars → ρ v = σ v) {e : Edge} (he : e ∈ a.bits) :
    ∃ b, s.store.evaluate e ρ = .ok b ∧ s.store.evaluate e σ = .ok b := by
  obtain ⟨Q, hmeans, hQ⟩ := h
  obtain ⟨i, hi⟩ := List.getElem?_of_mem he
  have hbit := hmeans.spells.get? hi
  refine ⟨_, hbit.evaluate ρ, ?_⟩
  rw [hbit.evaluate σ, hQ ρ σ hρσ]

/-- Whether some number of a term is not zero, by what the term reads as. -/
theorem holds_eq_false_iff (ha : s.store.Means a Q) (hQ : Upto s.numVars Q) :
    (∀ ρ, (Q ρ).holds = false) ↔ ∀ values : Fin s.numVars → Bool,
      BitVector.valueOf s.store (assign values) a.bits = .ok 0 := by
  have hvalue : ∀ ρ, BitVector.valueOf s.store ρ a.bits = .ok 0 ↔ (Q ρ).holds = false := fun ρ => by
    rw [ha.spells.valueOf, Except.ok.injEq]
    unfold Quantity.holds
    rw [decide_eq_false_iff_not, Decidable.not_not]
  constructor
  · exact fun hfalse values => (hvalue _).2 (hfalse _)
  · intro hzero ρ
    rw [← hQ _ _ fun v hv hvn => assign_values ρ hv hvn]
    exact (hvalue _).1 (hzero (ρ.values s.numVars))

/-- **Drawing, the greedy solution and counting agree on every term of every run.** The term
depends on the variables in use only; the three questions go through; they find nothing exactly if
no assignment to these variables makes the term other than zero, and what they find is a solution
of the term. No other request meets a fault either. All this holds as long as the storage lasts, and
the numbers of variables. -/
theorem Run.questions_agree (h : Run s terms) :
    (∀ r : Request, r.Legal terms →
      (∃ new s', r.run s = .ok (new, s')) ∨ Exceeds s r.run ∨ Overflows (r.run s)) ∧
    ∀ a ∈ terms,
      (∀ ρ σ : Assignment, (∀ v, 0 < v → v ≤ s.numVars → ρ v = σ v) → ∀ e ∈ a.bits,
        ∃ b, s.store.evaluate e ρ = .ok b ∧ s.store.evaluate e σ = .ok b) ∧
      ((∃ drawn found count s₁ s₂ s₃, solve a s = .ok (drawn, s₁) ∧
        witness a s = .ok (found, s₂) ∧ countSolutions a s = .ok (count, s₃) ∧
        (drawn = none ↔ found = none) ∧ (found = none ↔ count = 0) ∧
        (count = 0 ↔ ∀ values : Fin s.numVars → Bool,
          BitVector.valueOf s.store (assign values) a.bits = .ok 0) ∧
        (∀ m, drawn = some m → m.values.size = s.numVars ∧
          ∃ t s', toBool a s₁ = .ok (t, s') ∧ s'.read m t = .ok 1) ∧
        ∀ m, found = some m → m.values.size = s.numVars ∧
          ∃ t s', toBool a s₂ = .ok (t, s') ∧ s'.read m t = .ok 1) ∨
      Outgrows s (solve a) ∧ Outgrows s (witness a) ∧ Outgrows s (countSolutions a)) := by
  have hsound := h.sound
  have hstore := hsound.valid.store
  have hlast := hsound.numVars_lt_lastVariable
  refine ⟨fun r hr => ?_, fun a ha => ?_⟩
  · exact (hsound.proceeds hr).imp_left fun ⟨new, s', hr', _⟩ => ⟨new, s', hr'⟩
  · obtain ⟨Q, hmeans, hQ⟩ := hsound.supports a ha
    have hwithin : Within s.numVars fun ρ => (Q ρ).holds := hQ.map Quantity.holds
    refine ⟨fun ρ σ hρσ e he => (hsound.supports a ha).evaluate_eq hρσ he, ?_⟩
    rcases exists_truth_or_outgrows hstore hmeans with ⟨e, s', hr⟩ | hout
    · obtain ⟨drawn, source, hr₁, hdrawn⟩ := solve_spec hstore hmeans hwithin hlast hr
      obtain ⟨found, hr₂, hfound⟩ := witness_spec hstore hmeans hwithin hr
      have hr₃ := countSolutions_spec hstore hmeans hwithin hlast hr
      have hcount := hwithin.models_eq_zero_iff
      obtain ⟨store, -, rfl, -⟩ := truth_of_run hstore hmeans hr
      refine Or.inl ⟨drawn, found, _, _, _, _, hr₁, hr₂, hr₃, ?_, ?_, ?_, fun m hm => ?_,
        fun m hm => ?_⟩
      · rw [hdrawn.eq_none_iff, hfound.eq_none_iff]
      · rw [hfound.eq_none_iff, hcount]
      · rw [hcount, holds_eq_false_iff hmeans hQ]
      · subst hm
        exact confirmed (s := s) hstore hsound.growsTo hmeans hr hdrawn
      · subst hm
        exact confirmed (s := s) hstore hsound.growsTo hmeans hr hfound
    · exact Or.inr (outgrows_questions hstore hmeans hwithin hlast hout)

/-- A new solver after its first variable, of one bit. -/
def oneVariable : Solver := ⟨firstLiteral, 1, .interleaved, .ofSeed 7⟩

theorem run_oneVariable : Run oneVariable [⟨[.ofIndex 2], false⟩] :=
  Run.request (r := .freshVariable ⟨1, false⟩) (Run.reset (ofSeed 7 .interleaved)) (Nat.le_refl 1)
    rfl

/-- The variable can be true, so there is a greedy solution, with one value. -/
theorem oneVariable_questions_agree :
    Run oneVariable [⟨[.ofIndex 2], false⟩] ∧ ∃ m s',
      witness ⟨[.ofIndex 2], false⟩ oneVariable = .ok (some m, s') ∧ m.values.size = 1 := by
  refine ⟨run_oneVariable, ?_⟩
  obtain ⟨-, ⟨drawn, found, count, s₁, s₂, s₃, -, hfound, -, -, hnone, hcount, -, hsolution⟩ |
    ⟨-, hout, -⟩⟩ := run_oneVariable.questions_agree.2 _ (List.mem_singleton.2 rfl)
  · cases found with
    | none =>
      -- the term reads as one where the variable is true
      have hzero := hcount.1 (hnone.1 rfl) fun _ => true
      cases hzero
    | some m => exact ⟨m, s₂, hfound, (hsolution m rfl).1⟩
  · exact absurd hout (not_outgrows_of_isOk (by decide +kernel))

end Solver

end Stimulus

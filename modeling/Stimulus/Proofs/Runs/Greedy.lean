import Stimulus.Proofs.Diagram.SameDraws
import Stimulus.Proofs.Runs.Sampling
import Stimulus.Proofs.Solver.Requests

/-!
# Greedy witnesses over runs

The greedy witness of an edge is a list of signed numbers, one for every decision. On every store
that a run reaches it is there exactly if the edge has a solution, every assignment that meets the
numbers satisfies the edge, and a negative number only stands where its variable cannot be true
(`Store.Greedy`). A solver makes the variables of the positive numbers true, and no others.

Two stores that keep one function give the same numbers, because a walk sees nothing but the
functions of the edges that it comes to (`Store.Walks.unique`). All of this is in
`Store.greedy_witness`.
-/

set_option autoImplicit false

namespace Stimulus

open Diagram Store

namespace Diagram

/-- The assignment makes the decision that a signed number stands for. -/
def Meets (ρ : Assignment) (code : Int) : Prop := ρ code.natAbs = decide (0 < code)

namespace Decision

variable {d : Decision} {v : Nat}

/-- A decision as a signed number of any size. -/
def signed (d : Decision) : Int := if d.value then d.var else -d.var

theorem natAbs_signed (d : Decision) : d.signed.natAbs = d.var := by
  unfold signed
  split <;> simp

theorem signed_eq_natCast (hpos : 0 < d.var) : d.signed = v ↔ d = ⟨v, true⟩ := by
  obtain ⟨u, b⟩ := d
  cases b with
  | false =>
    have hne : -(u : Int) ≠ v := by
      have : 0 < u := hpos
      omega
    simpa [signed] using hne
  | true => simp [signed]

theorem eq_of_signed_eq_neg (hpos : 0 < d.var) (h : d.signed = -(v : Int)) : d = ⟨v, false⟩ := by
  obtain ⟨u, b⟩ := d
  cases b with
  | false => simpa [signed] using h
  | true =>
    have hu : (u : Int) = -v := h
    have hpos : 0 < u := hpos
    omega

/-- A number on a variable is positive where the variable is true. -/
theorem meets_signed (hpos : 0 < d.var) (ρ : Assignment) :
    Meets ρ d.signed ↔ ρ d.var = d.value := by
  unfold Meets
  rw [natAbs_signed]
  obtain ⟨u, b⟩ := d
  have hu : 0 < u := hpos
  cases b with
  | false =>
    have hneg : ¬ (u : Int) < 0 := by omega
    simp [signed, hneg]
  | true => simp [signed, hu]

/-- Variables of 31 bits are written as they are. -/
theorem code_eq_signed (hvar : d.var < 2 ^ 31) : d.code = .ok d.signed := by
  obtain ⟨v, b⟩ := d
  have hvar : v < 2 ^ 31 := hvar
  have hword : (Edge.ofWord v).code = v := if_pos hvar
  have hleast : (v : Int) ≠ Edge.leastCode := by
    unfold Edge.leastCode
    omega
  unfold code
  simp only [hword, if_neg hleast]
  cases b <;> rfl

end Decision

namespace Store

variable {s t : Store} {n : Nat} {e f : Edge} {ds ds' : List Decision} {φ : Assignment → Bool}

/-! ## One walk -/

/-- **A variable is only decided to be false where it cannot be true**: no solution makes it true
after the earlier decisions. -/
theorem Walks.forced (h : s.Walks e ds) (hs : s.Reduced) (he : s.Denotes e φ)
    {before after : List Decision} {d : Decision} (hds : ds = before ++ d :: after)
    (hd : d.value = false) {ρ : Assignment} (hbefore : ∀ c ∈ before, ρ c.var = c.value)
    (hρ : ρ d.var = true) : φ ρ = false := by
  induction h generalizing φ before with
  | one =>
    rw [eq_comm, List.append_eq_nil_iff] at hds
    cases hds.2
  | @node e node b ds ht hnode hb _ ih =>
    cases before with
    | nil =>
      obtain ⟨rfl, -⟩ := List.cons.inj hds
      -- the high side is the constant false
      have hhigh := he.side hs ht hnode true
      rw [show e.along (node.side true) = .zero from hb.1 hd] at hhigh
      have hfalse := congrFun (hhigh.unique (denotes_zero hs)) ρ
      rwa [← hρ, Assignment.set_eq_self] at hfalse
    | cons c before =>
      obtain ⟨rfl, hrest⟩ := List.cons.inj hds
      have hfixed : ρ node.var = b := hbefore ⟨node.var, b⟩ List.mem_cons_self
      have hfalse := ih (he.side hs ht hnode b) hrest
        fun c hc => hbefore c (List.mem_cons_of_mem _ hc)
      rwa [← hfixed, Assignment.set_eq_self] at hfalse

/-! ## Two walks -/

/-- **Walks from edges with one function decide the same**, whatever stores they go through. -/
theorem Walks.unique (h : s.Walks e ds) (h' : t.Walks f ds') (hs : s.Reduced) (ht : t.Reduced)
    (he : s.Denotes e φ) (hf : t.Denotes f φ) : ds = ds' := by
  induction h generalizing f ds' φ with
  | one =>
    have hterm := he.isTerminal_eq hs hf ht
    cases h' with
    | one => rfl
    | node hft =>
      rw [hft] at hterm
      cases hterm
  | @node e node b ds het hnode hb _ ih =>
    have hterm := he.isTerminal_eq hs hf ht
    cases h' with
    | one =>
      rw [het] at hterm
      cases hterm
    | @node _ node' b' ds' hft hnode' hb' hrest' =>
      have hvar := he.var_eq hs hf ht het hft hnode hnode'
      have hside : ∀ c, t.Denotes (f.along (node'.side c)) fun ρ => φ (ρ.set node.var c) := by
        intro c
        rw [hvar]
        exact hf.side ht hft hnode' c
      -- the high sides have one function, so both are the constant false or none is
      have hhigh : e.along node.high = .zero ↔ f.along node'.high = .zero := by
        have hside₁ := he.side hs het hnode true
        constructor
        · intro hzero
          rw [← hzero]
          exact (hside₁.eq_of_isTerminal hs (hside true) ht (hzero ▸ rfl)).symm
        · intro hzero
          rw [← hzero]
          exact ((hside true).eq_of_isTerminal ht hside₁ hs (hzero ▸ rfl)).symm
      obtain rfl : b = b' := by
        have hfalse : b = false ↔ b' = false := hb.trans (hhigh.trans hb'.symm)
        rwa [Bool.eq_false_iff, Bool.eq_false_iff, not_iff_not, ← Bool.eq_iff_iff] at hfalse
      rw [← hvar, ih hrest' (he.side hs het hnode b) (hside b)]

theorem Reduced.witness_eq (hs : s.Reduced) (ht : t.Reduced) (he : s.Denotes e φ)
    (hf : t.Denotes f φ) : s.witness e = t.witness f := by
  by_cases hzero : e = .zero
  · have hzero' : f = .zero := by
      rw [← hzero]
      exact (he.eq_of_isTerminal hs hf ht (by rw [hzero]; rfl)).symm
    unfold witness
    rw [if_pos hzero, if_pos hzero']
  · have hzero' : f ≠ .zero := fun h =>
      hzero ((hf.eq_of_isTerminal ht he hs (by rw [h]; rfl)).symm.trans h)
    obtain ⟨ds, hds, hwalks⟩ := hs.walks_witness he.has hzero
    obtain ⟨ds', hds', hwalks'⟩ := ht.walks_witness hf.has hzero'
    rw [hds, hds', hwalks.unique hwalks' hs ht he hf]

/-! ## Signed numbers -/

theorem mapM_code (h : ∀ d ∈ ds, d.var < 2 ^ 31) :
    ds.mapM Decision.code = .ok (ds.map Decision.signed) := by
  induction ds with
  | nil => rfl
  | cons d ds ih =>
    rw [List.mapM_cons, Decision.code_eq_signed (h d List.mem_cons_self),
      ih fun c hc => h c (List.mem_cons_of_mem d hc)]
    rfl

theorem witnessCodes_of_witness (h : s.witness e = .ok (some ds)) (hds : ∀ d ∈ ds, d.var < 2 ^ 31) :
    s.witnessCodes e = .ok (some (ds.map Decision.signed)) := by
  unfold witnessCodes
  rw [h]
  show some <$> ds.mapM Decision.code = _
  rw [mapM_code hds]
  rfl

/-- Numbers on increasing variables that lead to a solution of the edge, a negative one only where
the numbers before it leave no solution with its variable true. -/
structure Greedy (s : Store) (e : Edge) (codes : List Int) : Prop where
  /-- Every number stands for a decision. -/
  nonzero : ∀ c ∈ codes, c ≠ 0
  /-- The variables increase. -/
  increasing : codes.Pairwise fun c d => c.natAbs < d.natAbs
  /-- The numbers lead to solutions only. -/
  holds : ∀ ρ, (∀ c ∈ codes, Meets ρ c) → s.evaluate e ρ = .ok true
  /-- No solution meets the numbers before a negative one and makes its variable true. -/
  forced : ∀ (before after : List Int) (v : Nat), codes = before ++ -(v : Int) :: after →
    ∀ ρ, (∀ c ∈ before, Meets ρ c) → ρ v = true → s.evaluate e ρ = .ok false

theorem Walks.greedy (h : s.Walks e ds) (hs : s.Reduced) (he : s.Denotes e φ)
    (hds : Decides n 0 φ ds) : s.Greedy e (ds.map Decision.signed) where
  nonzero c hc := by
    obtain ⟨d, hd, rfl⟩ := List.mem_map.1 hc
    have hpos := (hds.range d hd).1
    rw [← d.natAbs_signed] at hpos
    exact Int.natAbs_pos.1 hpos
  increasing := by
    rw [List.pairwise_map]
    simpa only [Decision.natAbs_signed] using hds.increasing
  holds ρ hρ := by
    rw [he.evaluate, hds.holds ρ fun d hd => ?_]
    exact (Decision.meets_signed (hds.range d hd).1 ρ).1 (hρ _ (List.mem_map_of_mem hd))
  forced before after v hcodes ρ hρ hv := by
    -- the numbers come from decisions, among them one that makes the variable false
    obtain ⟨before, rest, rfl, rfl, hrest⟩ := List.map_eq_append_iff.1 hcodes
    obtain ⟨d, after, rfl, hd, rfl⟩ := List.map_eq_cons_iff.1 hrest
    have hpos : ∀ d' ∈ before ++ d :: after, 0 < d'.var := fun d' hd' => (hds.range d' hd').1
    obtain rfl := Decision.eq_of_signed_eq_neg (hpos d (by simp)) hd
    rw [he.evaluate, h.forced hs he rfl rfl (fun d' hd' => ?_) hv]
    exact (Decision.meets_signed (hpos d' (by simp [hd'])) ρ).1 (hρ _ (List.mem_map_of_mem hd'))

/-- **The numbers of an edge over variables of 31 bits are greedy, and there are none exactly if
it has no solution.** -/
theorem Reduced.witnessCodes_spec (hs : s.Reduced) (he : s.Denotes e φ) (hφ : Within n φ)
    (hn : n < 2 ^ 31) : ∃ found, s.witnessCodes e = .ok found ∧
      (found = none ↔ ∀ ρ, s.evaluate e ρ = .ok false) ∧
      ∀ codes, found = some codes → s.Greedy e codes := by
  have hfalse : (∀ ρ, s.evaluate e ρ = .ok false) ↔ e = .zero := by
    rw [Solver.eq_zero_iff hs he]
    simp only [he.evaluate, Except.ok.injEq]
  by_cases hzero : e = .zero
  · refine ⟨none, ?_, iff_of_true rfl (hfalse.2 hzero), fun codes hcodes => nomatch hcodes⟩
    rw [hzero]
    rfl
  · obtain ⟨ds, hds, hwalks⟩ := hs.walks_witness he.has hzero
    have hdecides := hwalks.decides hs he hφ (Under.zero hs he.has)
    refine ⟨_, witnessCodes_of_witness hds fun d hd =>
      Nat.lt_of_le_of_lt (hdecides.range d hd).2 hn, iff_of_false (nomatch ·) (mt hfalse.1 hzero),
      fun codes hcodes => ?_⟩
    cases hcodes
    exact hwalks.greedy hs he hdecides

end Store

end Diagram

namespace Solver

variable {s : Solver} {terms : List BitVector} {a : BitVector}

/-! ## Solutions of a solver -/

theorem value_ofFn_mem {n v : Nat} {ds : List Decision} (h : ∀ d ∈ ds, 0 < d.var ∧ d.var ≤ n) :
    Solution.value ⟨Array.ofFn fun i : Fin n => decide (⟨i + 1, true⟩ ∈ ds)⟩ v =
      decide ((v : Int) ∈ ds.map Decision.signed) := by
  have hmem : (v : Int) ∈ ds.map Decision.signed ↔ ⟨v, true⟩ ∈ ds := by
    rw [List.mem_map]
    constructor
    · rintro ⟨d, hd, hv⟩
      rwa [← (Decision.signed_eq_natCast (h d hd).1).1 hv]
    · exact fun hd => ⟨_, hd, rfl⟩
  rw [Solution.value_ofFn, decide_eq_decide.2 hmem]
  by_cases hv : 0 < v ∧ v ≤ n
  · rw [assign_apply _ hv.1 hv.2]
    simp only [Nat.sub_add_cancel hv.1]
  · unfold assign
    rw [dif_neg hv, decide_eq_false fun hd => hv (h _ hd)]

/-- **The greedy solution of a term makes the variables of the positive numbers true.** -/
theorem Sound.witness_eq (h : s.Sound terms) (ha : a ∈ terms) :
    (∃ e s' found, build a.truth s = .ok (e, s') ∧ s'.store.witnessCodes e = .ok found ∧
      (found = none ↔ ∀ ρ, s'.store.evaluate e ρ = .ok false) ∧
      (found = none → witness a s = .ok (none, s')) ∧
      ∀ codes, found = some codes → s'.store.Greedy e codes ∧ ∃ m : Solution,
        witness a s = .ok (some m, s') ∧ m.values.size = s.numVars ∧
          ∀ v : Nat, m.value v = decide ((v : Int) ∈ codes)) ∨ Outgrows s (witness a) := by
  obtain ⟨Q, hmeans, hQ⟩ := h.supports a ha
  have hφ : Within s.numVars fun ρ => (Q ρ).holds := hQ.map Quantity.holds
  have hn := h.numVars_lt
  rcases exists_truth_or_outgrows h.valid.store hmeans with ⟨e, s', hr⟩ | hout
  swap
  · exact Or.inr (outgrows_questions h.valid.store hmeans hφ h.numVars_lt_lastVariable hout).2.1
  obtain ⟨store, -, rfl, hvalid, -, he⟩ := truth_of_run h.valid.store hmeans hr
  obtain ⟨found, hfound, hnone, hgreedy⟩ := hvalid.reduced.witnessCodes_spec he hφ hn
  refine Or.inl ⟨e, _, found, hr, hfound, hnone, fun hempty => ?_, fun codes hcodes =>
    ⟨hgreedy codes hcodes, ?_⟩⟩
  · subst hempty
    obtain rfl := (eq_zero_iff hvalid.reduced he).2 fun ρ => by
      have hρ := hnone.1 rfl ρ
      rw [he.evaluate] at hρ
      exact Except.ok.inj hρ
    rw [witness_of_build hr]
    rfl
  · subst hcodes
    have hzero : e ≠ .zero := by
      rintro rfl
      cases hfound
    obtain ⟨ds, hds, hdecides⟩ := hvalid.reduced.witness_spec he hφ hzero
    have hcodes := witnessCodes_of_witness hds fun d hd =>
      Nat.lt_of_le_of_lt (hdecides.range d hd).2 hn
    rw [hfound] at hcodes
    cases hcodes
    refine ⟨_, ?_, Array.size_ofFn, fun v => value_ofFn_mem hdecides.range⟩
    rw [witness_of_build hr, hds]
    show (do return some (← Solution.ofDecisions s.numVars ds) : Solving _)
      { s with store := store } = _
    rw [Solution.ofDecisions_eq_ofFn hdecides.range]
    rfl

end Solver

/-! ## Stores of any run -/

namespace Diagram.Store

/-- The stores that calls reach, and those of solvers that requests reach. -/
inductive Managed : Store → Prop
  | calls {s : Store} : s.Reached → Managed s
  | requests {s : Solver} {terms : List BitVector} : s.Run terms → Managed s.store

theorem Managed.reduced {s : Store} (h : s.Managed) : s.Reduced := by
  cases h with
  | calls h => exact h.valid.reduced
  | requests h => exact h.sound.valid.store.reduced

/-- **Greedy witnesses are fixed by the function alone.** On the store of any run, the witness of an
edge over variables of 31 bits is missing exactly if the edge has no solution, and else it is a
greedy list of numbers. All stores that keep one function give the same witness. The greedy solution
of a term makes exactly the variables of the positive numbers true, of those in use, unless the edge
of the term outgrows the storage. -/
theorem greedy_witness :
    (∀ s e, Managed s → s.Has e → s.OnVariables 2147483647 e →
      ∃ found, s.witnessCodes e = .ok found ∧
        (found = none ↔ ∀ ρ, s.evaluate e ρ = .ok false) ∧
        ∀ codes, found = some codes → s.Greedy e codes) ∧
    (∀ s t e f, Managed s → Managed t → s.Has e → t.Has f →
      (∀ ρ, s.evaluate e ρ = t.evaluate f ρ) → s.witnessCodes e = t.witnessCodes f) ∧
    ∀ (solver : Solver) terms a, solver.Run terms → a ∈ terms →
      (∃ e solver' found, Solver.build a.truth solver = .ok (e, solver') ∧
        solver'.store.witnessCodes e = .ok found ∧
        (found = none ↔ ∀ ρ, solver'.store.evaluate e ρ = .ok false) ∧
        (found = none → Solver.witness a solver = .ok (none, solver')) ∧
        ∀ codes, found = some codes → solver'.store.Greedy e codes ∧ ∃ m : Solution,
          Solver.witness a solver = .ok (some m, solver') ∧ m.values.size = solver.numVars ∧
            ∀ v : Nat, m.value v = decide ((v : Int) ∈ codes)) ∨
      Outgrows solver (Solver.witness a) := by
  refine ⟨fun s e hs he hvars => ?_, fun s t e f hs ht he hf hef => ?_,
    fun solver terms a hrun ha => ?_⟩
  · obtain ⟨φ, hφ⟩ := hs.reduced.denotes he
    exact hs.reduced.witnessCodes_spec hφ (hvars.within hs.reduced hφ) (by decide)
  · obtain ⟨φ, hφ⟩ := hs.reduced.denotes he
    have hfφ : t.Denotes f φ := ⟨hf, fun ρ => by rw [← hef, hφ.evaluate]⟩
    unfold witnessCodes
    rw [hs.reduced.witness_eq ht.reduced hφ hfφ]
  · exact hrun.sound.witness_eq ha

/-- Where the disjunction of two variables is false both are, and the first one is decided first.
A solver with one variable makes it true. -/
theorem disjunction_greedy_witness :
    disjunction.witnessCodes (-.ofIndex 3) = .ok (some [-1, -2]) ∧
      disjunction.Greedy (-.ofIndex 3) [-1, -2] ∧
      ∃ m s', Solver.witness ⟨[.ofIndex 2], false⟩ Solver.oneVariable = .ok (some m, s') ∧
        m.value 1 = true ∧ ∀ v : Nat, v ≠ 1 → m.value v = false := by
  obtain ⟨hfound, -, hsolver⟩ := greedy_witness
  have hsecond : disjunction.OnVariables 2147483647 (-(.ofIndex 2)) :=
    .node rfl rfl (by decide) (.terminal rfl) (.terminal rfl)
  have hvars : disjunction.OnVariables 2147483647 (-(.ofIndex 3)) :=
    .node rfl rfl (by decide) hsecond (.terminal rfl)
  obtain ⟨found, hcodes, -, hgreedy⟩ :=
    hfound disjunction _ (.calls reached_disjunction) ⟨by decide, by decide⟩ hvars
  have hdisjunction : disjunction.witnessCodes (-.ofIndex 3) = .ok (some [-1, -2]) := rfl
  obtain rfl := Except.ok.inj (hcodes.symm.trans hdisjunction)
  obtain ⟨e, s', found, he, hcodes', -, -, hsome⟩ | hout :=
    hsolver _ _ _ Solver.run_oneVariable (List.mem_singleton.2 rfl)
  swap
  · exact absurd hout (not_outgrows_of_isOk (by decide +kernel))
  -- the term is its only bit, and needs no node
  obtain ⟨rfl, rfl⟩ : e = .ofIndex 2 ∧ s' = Solver.oneVariable := by
    have hbit : Solver.build (BitVector.truth ⟨[.ofIndex 2], false⟩) Solver.oneVariable =
        .ok (.ofIndex 2, Solver.oneVariable) := rfl
    exact Prod.mk.inj (Except.ok.inj (he.symm.trans hbit))
  have hone : Solver.oneVariable.store.witnessCodes (.ofIndex 2) = .ok (some [1]) := rfl
  obtain rfl := Except.ok.inj (hcodes'.symm.trans hone)
  obtain ⟨-, m, hm, -, hvalue⟩ := hsome [1] rfl
  refine ⟨hdisjunction, hgreedy _ rfl, m, _, hm, hvalue 1, fun v hv => ?_⟩
  rw [hvalue v, decide_eq_false]
  simpa using hv

end Diagram.Store

end Stimulus

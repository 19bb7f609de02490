import Stimulus.Proofs.BitVector.Apply
import Stimulus.Proofs.BitVector.Parts
import Stimulus.Proofs.Diagram.Sample
import Stimulus.Proofs.Diagram.Witness
import Stimulus.Proofs.Solver.Fresh

/-!
# Asking for solutions

A solver may be asked in three ways whether a term can be true. For a term that
depends on the variables in use, all of them meet no fault and give the same answer,
unless the edge of the term outgrows the storage: a drawn solution and the greedy one
are there exactly if the term is not zero everywhere (`Solver.solve_spec`,
`Solver.witness_spec`), and the count is the number of assignments to these variables
that make the term true (`Solver.countSolutions_spec`). A solution gives a value to
each variable in use, and the term reads as true under it (`Solver.confirmed`).
-/

set_option autoImplicit false

namespace Stimulus

open Diagram Store

variable {n v : Nat} {φ : Assignment → Bool} {ds : List Decision}

/-! ## Solutions as assignments -/

namespace Solution

theorem value_ofFn (values : Fin n → Bool) :
    Solution.value ⟨Array.ofFn values⟩ = assign values := by
  funext v
  unfold Solution.value
  by_cases hv : v = 0
  · subst hv
    rfl
  · rw [if_neg hv]
    -- variables after the last one are false on both sides
    by_cases hvn : v ≤ n
    · rw [assign_apply values (Nat.pos_of_ne_zero hv) hvn, Array.getD,
        dif_pos (by rw [Array.size_ofFn]; omega)]
      exact Array.getElem_ofFn _
    · unfold assign
      rw [Array.getD, dif_neg (by rw [Array.size_ofFn]; omega), dif_neg fun h => hvn h.2]

/-- The values after a decision. A variable that is decided to be false is so already. -/
def afterDecision (n : Nat) (values : Array Bool) (d : Decision) : Except Fault (Array Bool) :=
  if d.value then
    if 0 < d.var ∧ d.var ≤ n then .ok (values.setIfInBounds (d.var - 1) true)
    else .error .uncounted
  else .ok values

theorem ofDecisions_eq (n : Nat) (ds : List Decision) : ofDecisions n ds =
    (do return ⟨← ds.foldlM (afterDecision n) (Array.replicate n false)⟩) := rfl

/-- One decision: only a true one sets its variable. -/
theorem afterDecision_ofFn {values : Fin n → Bool} {d : Decision} (hpos : 0 < d.var)
    (hle : d.var ≤ n) : afterDecision n (Array.ofFn values) d =
      .ok (Array.ofFn fun i => values i || decide (d = ⟨i + 1, true⟩)) := by
  obtain ⟨v, b⟩ := d
  unfold afterDecision
  cases b with
  | false =>
    have hkeep : (fun i : Fin n => values i || decide (Decision.mk v false = ⟨i + 1, true⟩)) =
        values := funext fun i => by simp
    rw [hkeep]
    exact if_neg Bool.false_ne_true
  | true =>
    have hset : put values v true =
        fun i : Fin n => values i || decide (Decision.mk v true = ⟨i + 1, true⟩) := by
      funext i
      unfold put
      by_cases hi : i + 1 = v
      · simp [hi]
      · simp [hi, Ne.symm hi]
    rw [if_pos rfl, if_pos ⟨hpos, hle⟩, ofFn_put values hpos, hset]

/-- Decisions one after the other: the true ones set their variables. -/
theorem foldlM_afterDecision : ∀ (ds : List Decision) (values : Fin n → Bool),
    (∀ d ∈ ds, 0 < d.var ∧ d.var ≤ n) → ds.foldlM (afterDecision n) (Array.ofFn values) =
      .ok (Array.ofFn fun i => values i || decide (⟨i + 1, true⟩ ∈ ds)) := by
  intro ds
  induction ds with
  | nil =>
    intro values _
    simp only [List.not_mem_nil, decide_false, Bool.or_false]
    rfl
  | cons d ds ih =>
    intro values hrange
    obtain ⟨hpos, hle⟩ := hrange d List.mem_cons_self
    rw [List.foldlM_cons, afterDecision_ofFn hpos hle]
    refine (ih _ fun d' hd' => hrange d' (List.mem_cons_of_mem d hd')).trans ?_
    simp only [List.mem_cons, Bool.or_assoc, Bool.decide_or, eq_comm]

/-- **In the solution of decisions exactly the true ones are true.** -/
theorem ofDecisions_eq_ofFn (h : ∀ d ∈ ds, 0 < d.var ∧ d.var ≤ n) :
    ofDecisions n ds = .ok ⟨Array.ofFn fun i : Fin n => decide (⟨i + 1, true⟩ ∈ ds)⟩ := by
  have hstart : Array.replicate n false = Array.ofFn fun _ : Fin n => false :=
    Array.ext (by simp) (by simp)
  rw [ofDecisions_eq, hstart, foldlM_afterDecision ds _ h]
  simp only [Bool.false_or]
  rfl

/-- **The solution of decisions that make a function true makes it true.** -/
theorem ofDecisions_spec (h : Decides n 0 φ ds) :
    ∃ out : Fin n → Bool, ofDecisions n ds = .ok ⟨Array.ofFn out⟩ ∧ φ (assign out) = true := by
  refine ⟨_, ofDecisions_eq_ofFn h.range, h.holds _ fun d hd => ?_⟩
  rw [assign_apply _ (h.range d hd).1 (h.range d hd).2]
  show decide (⟨d.var - 1 + 1, true⟩ ∈ ds) = d.value
  rw [Nat.sub_add_cancel (h.range d hd).1, Bool.eq_iff_iff, decide_eq_true_eq]
  constructor
  · -- no variable is decided twice
    intro htrue
    have hinj := List.inj_on_of_nodup_map (f := Decision.var)
      (List.pairwise_map.2 (h.increasing.imp Nat.ne_of_lt)) htrue hd rfl
    rw [← hinj]
  · intro hvalue
    rwa [← hvalue]

/-- A solution of the function over `1, …, n`, or nothing if it is false. -/
def Settles (n : Nat) (φ : Assignment → Bool) : Option Solution → Prop
  | none => ∀ ρ, φ ρ = false
  | some m => ∃ out : Fin n → Bool, m = ⟨Array.ofFn out⟩ ∧ φ (assign out) = true

theorem Settles.eq_none_iff {r : Option Solution} (h : Settles n φ r) :
    r = none ↔ ∀ ρ, φ ρ = false := by
  cases r with
  | none => exact ⟨fun _ => h, fun _ => rfl⟩
  | some m =>
    obtain ⟨out, -, hout⟩ := h
    refine ⟨(nomatch ·), fun hfalse => ?_⟩
    rw [hfalse] at hout
    cases hout

end Solution

namespace Solver

variable {s s' : Solver} {a : BitVector} {Q : Assignment → Quantity} {e : Edge}

/-! ## The edge of a term -/

/-- The edge where a term is true, once it is there. -/
theorem truth_of_run (hs : s.store.Valid) (ha : s.store.Means a Q)
    (h : build a.truth s = .ok (e, s')) : ∃ store, a.truth s.store = .ok (e, store) ∧
      s' = { s with store := store } ∧ store.Valid ∧ s.store.GrowsTo store ∧
        store.Denotes e fun ρ => (Q ρ).holds := by
  rw [build_eq] at h
  cases hr : a.truth s.store with
  | error fault =>
    rw [hr] at h
    cases h
  | ok p =>
    obtain ⟨f, store⟩ := p
    rw [hr] at h
    cases h
    exact ⟨store, rfl, rfl, (hs.gives_truth ha.spells).of_run hr⟩

/-- The edge of a term is there, unless it outgrows the storage. -/
theorem exists_truth_or_outgrows (hs : s.store.Valid) (ha : s.store.Means a Q) :
    (∃ e s', build a.truth s = .ok (e, s')) ∨ Outgrows s (build a.truth) := by
  obtain ⟨e, store, hyields, -⟩ := hs.gives_truth ha.spells
  exact (yields_build hyields).run_or_outgrows.imp_left fun hr => ⟨e, _, hr.1⟩

/-- What a term of at most 64 bits reads as under a solution. -/
theorem read_eq (ha : s.store.Means a Q) (hw : a.width ≤ 64) (m : Solution) :
    s.read m a = .ok (Q m.value).raw := by
  unfold read
  rw [List.take_of_length_le hw, ha.spells.valueOf]

/-- **A solution gives a value to every variable, and the term reads as true under it.** The edge
of the term is stored, so it is there once more. -/
theorem confirmed {m : Solution} {store : Store} {source : Source} (hs : s.store.Valid)
    (hempty : empty.GrowsTo s.store) (ha : s.store.Means a Q)
    (h : build a.truth s = .ok (e, { s with store := store }))
    (hm : Solution.Settles n (fun ρ => (Q ρ).holds) (some m)) :
    m.values.size = n ∧ ∃ t s', toBool a { s with store := store, source := source } =
      .ok (t, s') ∧ s'.read m t = .ok 1 := by
  obtain ⟨out, rfl, hout⟩ := hm
  obtain ⟨_, hr, heq, hstore, -, he⟩ := truth_of_run hs ha h
  cases heq
  obtain ⟨u, hagain, -, hsame⟩ :=
    ((BitVector.composed_truth a).repeats hs hempty hr).later store hstore (.refl store)
  have hbool : toBool a { s with store := store, source := source } =
      .ok (.ofBit e, { s with store := u, source := source }) :=
    build_ok (bind_of_ok hagain)
  refine ⟨Array.size_ofFn, _, _, hbool, ?_⟩
  have hbit : (Quantity.flag (Q (assign out)).holds).raw = 1 := congrArg Bool.toNat hout
  rw [read_eq (s := { s with store := u, source := source })
    (he.grow hstore.reduced hsame.growsTo).means (Nat.le_add_left 1 63), Solution.value_ofFn, hbit]

/-! ## The three questions -/

/-- The draw of a solution, once the term is an edge. -/
theorem solve_of_build (h : build a.truth s = .ok (e, s')) :
    (solve a).run s = match (s'.store.sample e s'.numVars).run.run s'.source with
      | (.error fault, _) => .error fault
      | (.ok values, source) => .ok (values.map Solution.mk, { s' with source := source }) :=
  bind_of_ok h

theorem solve_of_build_error {fault : Fault} (h : build a.truth s = .error fault) :
    (solve a).run s = .error fault :=
  bind_of_error h

/-- The greedy solution, once the term is an edge. -/
theorem witness_of_build (h : build a.truth s = .ok (e, s')) :
    witness a s = (do
      match ← (liftM (s'.store.witness e) : Solving _) with
      | none => return none
      | some ds => return some (← Solution.ofDecisions s'.numVars ds) : Solving _) s' :=
  bind_of_ok h

/-- The count, once the term is an edge. -/
theorem countSolutions_of_build {w : Nat} {known : Counts} (h : build a.truth s = .ok (e, s'))
    (hw : s'.store.countAfter s'.numVars 0 e ∅ = .ok (w, known)) :
    countSolutions a s = .ok (w, s') := by
  have hcount := count_of_countAfter hw
  refine (bind_of_ok h).trans ?_
  show ((liftM (s'.store.count e s'.numVars) : Solving _)) s' = _
  rw [hcount]
  rfl

/-- The edge of a term is the constant false exactly if the term is never true. -/
theorem eq_zero_iff {store : Store} (hs : store.Reduced) (he : store.Denotes e φ) :
    e = .zero ↔ ∀ ρ, φ ρ = false := by
  constructor
  · rintro rfl ρ
    rw [he.unique (denotes_zero hs)]
  · intro hfalse
    exact hs.canonical (he.congr hfalse) (denotes_zero hs)

/-- A question about an edge outgrows the storage where the edge does so. -/
theorem outgrows_question {α : Type} {k : Edge → Solving α} (h : Outgrows s (build a.truth))
    (hk : ∀ e s', build a.truth (unlimited s) = .ok (e, s') →
      ∃ r s'', k e s' = .ok (r, s'') ∧ s''.store = s'.store) :
    Outgrows s (build a.truth >>= k) := by
  obtain ⟨hfull, e, s', hfree, hsize⟩ := h
  obtain ⟨r, s'', hr, hstore⟩ := hk e s' hfree
  refine ⟨bind_of_error hfull, r, s'', (bind_of_ok hfree).trans hr, ?_⟩
  show maxNodes < s''.store.nodes.size
  rw [hstore]
  exact hsize

variable (hs : s.store.Valid) (ha : s.store.Means a Q)
  (hQ : Within s.numVars fun ρ => (Q ρ).holds)
include hs ha hQ

/-- **Drawing a solution gives one, unless there is none.** -/
theorem solve_spec (hn : s.numVars < lastVariable) (h : build a.truth s = .ok (e, s')) :
    ∃ r source, solve a s = .ok (r, { s' with source := source }) ∧
      Solution.Settles s.numVars (fun ρ => (Q ρ).holds) r := by
  obtain ⟨store, -, rfl, hvalid, -, he⟩ := truth_of_run hs ha h
  have hsolve : solve a s = _ := solve_of_build h
  by_cases hzero : e = .zero
  · refine ⟨none, s.source, ?_, (eq_zero_iff hvalid.reduced he).1 hzero⟩
    rw [hsolve, hzero, sample_zero]
    rfl
  · -- the answers do not matter, every draw ends in a solution
    have hdraw := (hvalid.reduced.sample_always hn he hQ hzero).run s.source
    obtain ⟨out, hout, hholds⟩ := hdraw
    refine ⟨some ⟨Array.ofFn out⟩, ((store.sample e s.numVars).run.run s.source).2, ?_,
      out, rfl, hholds⟩
    rw [hsolve]
    dsimp only
    rw [← Prod.mk.eta (p := (store.sample e s.numVars).run.run s.source), hout]
    rfl

/-- **The greedy solution is one, unless there is none.** -/
theorem witness_spec (h : build a.truth s = .ok (e, s')) : ∃ r, witness a s = .ok (r, s') ∧
    Solution.Settles s.numVars (fun ρ => (Q ρ).holds) r := by
  obtain ⟨store, -, rfl, hvalid, -, he⟩ := truth_of_run hs ha h
  by_cases hzero : e = .zero
  · refine ⟨none, ?_, (eq_zero_iff hvalid.reduced he).1 hzero⟩
    rw [witness_of_build h, hzero]
    rfl
  · obtain ⟨ds, hds, hdecides⟩ := hvalid.reduced.witness_spec he hQ hzero
    obtain ⟨out, hout, hholds⟩ := Solution.ofDecisions_spec hdecides
    refine ⟨some ⟨Array.ofFn out⟩, ?_, out, rfl, hholds⟩
    rw [witness_of_build h, hds]
    show (do return some (← Solution.ofDecisions s.numVars ds) : Solving _)
      { s with store := store } = _
    rw [hout]
    rfl

/-- **The count is the number of assignments to the variables in use that make the term true.** -/
theorem countSolutions_spec (hn : s.numVars < lastVariable)
    (h : build a.truth s = .ok (e, s')) :
    countSolutions a s = .ok (models s.numVars fun ρ => (Q ρ).holds, s') := by
  obtain ⟨store, -, rfl, hvalid, -, he⟩ := truth_of_run hs ha h
  obtain ⟨w, known, hcount, -, hw⟩ := hvalid.reduced.countAfter_spec hn he hQ
    (Under.zero hvalid.reduced he.has) (Nat.zero_le _) (knows_empty store s.numVars)
  rw [Nat.pow_zero, Nat.mul_one] at hw
  rw [← hw]
  exact countSolutions_of_build h hcount

/-- Where the edge of a term outgrows the storage, so do all three questions. -/
theorem outgrows_questions (hn : s.numVars < lastVariable) (h : Outgrows s (build a.truth)) :
    Outgrows s (solve a) ∧ Outgrows s (witness a) ∧ Outgrows s (countSolutions a) := by
  have hs' : (unlimited s).store.Valid := hs.unbounded
  have ha' : (unlimited s).store.Means a Q := ha.grow hs.reduced s.store.growsTo_unbounded
  have hQ' : Within (unlimited s).numVars fun ρ => (Q ρ).holds := hQ
  have hn' : (unlimited s).numVars < lastVariable := hn
  refine ⟨outgrows_question h fun e s' hr => ?_, outgrows_question h fun e s' hr => ?_,
    outgrows_question h fun e s' hr => ?_⟩
  · obtain ⟨r, source, hrun, -⟩ := solve_spec hs' ha' hQ' hn' hr
    exact ⟨r, _, (bind_of_ok hr).symm.trans hrun, rfl⟩
  · obtain ⟨r, hrun, -⟩ := witness_spec hs' ha' hQ' hr
    exact ⟨r, _, (bind_of_ok hr).symm.trans hrun, rfl⟩
  · exact ⟨_, _, (bind_of_ok hr).symm.trans (countSolutions_spec hs' ha' hQ' hn' hr), rfl⟩

end Solver

end Stimulus

import Stimulus.Proofs.Diagram.Interleaved
import Stimulus.Proofs.Diagram.Size
import Stimulus.Proofs.Solver.Comparisons
import Stimulus.Proofs.Solver.Interleaved

/-!
# Comparisons of interleaved terms stay linear

Two terms of one width that a solver allocates together have their bits side by side. So their
comparison is one of alternating digits, and its diagram has three nodes for every bit of a term,
the terminal included, whatever the flags of the terms and the comparison
(`Solver.comparisonSize_exact`).
-/

set_option autoImplicit false

namespace Stimulus

open Diagram Store TwosComplement

namespace TwosComplement

variable {x n : Nat}

/-- One more digit at the low end. -/
theorem decode_cons (hx : x < 2 ^ (n + 1)) (b signed : Bool) :
    decode (b.toNat + 2 * x) (n + 2) signed = b.toNat + 2 * decode x (n + 1) signed := by
  have hb := Bool.toNat_lt b
  have hpow : 2 ^ (n + 2) = 2 * 2 ^ (n + 1) := Nat.pow_succ'
  cases signed with
  | false => rw [decode_unsigned (by omega), decode_unsigned hx, Nat.cast_add, Nat.cast_mul]; rfl
  | true =>
    rw [decode_signed (by omega), decode_signed hx]
    split <;> split <;> omega

end TwosComplement

namespace Diagram

variable {ps : List (Nat × Nat)} {p : Nat × Nat} {v : Nat} {signed : Bool}

/-! ## Digits as numbers -/

/-- The number with the first digits of the pairs. -/
def firsts (ps : List (Nat × Nat)) (ρ : Assignment) : Nat := valueAt ρ (ps.map Prod.fst)

/-- The number with the second digits of the pairs. -/
def seconds (ps : List (Nat × Nat)) (ρ : Assignment) : Nat := valueAt ρ (ps.map Prod.snd)

theorem firsts_cons (p : Nat × Nat) (ps : List (Nat × Nat)) (ρ : Assignment) :
    firsts (p :: ps) ρ = (ρ p.1).toNat + 2 * firsts ps ρ := rfl

theorem seconds_cons (p : Nat × Nat) (ps : List (Nat × Nat)) (ρ : Assignment) :
    seconds (p :: ps) ρ = (ρ p.2).toNat + 2 * seconds ps ρ := rfl

theorem valueAt_lt (ρ : Assignment) (vars : List Nat) : valueAt ρ vars < 2 ^ vars.length := by
  induction vars with
  | nil => exact Nat.one_pos
  | cons v vars ih =>
    have hb := Bool.toNat_lt (ρ v)
    rw [valueAt_cons, List.length_cons, Nat.pow_succ]
    omega

theorem firsts_lt (ps : List (Nat × Nat)) (ρ : Assignment) : firsts ps ρ < 2 ^ ps.length := by
  have hlt := valueAt_lt ρ (ps.map Prod.fst)
  rwa [List.length_map] at hlt

theorem seconds_lt (ps : List (Nat × Nat)) (ρ : Assignment) : seconds ps ρ < 2 ^ ps.length := by
  have hlt := valueAt_lt ρ (ps.map Prod.snd)
  rwa [List.length_map] at hlt

theorem same_eq (ps : List (Nat × Nat)) (ρ : Assignment) :
    same ps ρ = decide (firsts ps ρ = seconds ps ρ) := by
  induction ps with
  | nil => rfl
  | cons p ps ih =>
    rw [same_cons, ih, firsts_cons, seconds_cons]
    cases ρ p.1 <;> cases ρ p.2 <;> simp <;> omega

/-- The verdict so far counts as one at the place of the least digit. -/
theorem less_eq (signed : Bool) (p : Nat × Nat) (ps : List (Nat × Nat)) (sofar : Bool)
    (ρ : Assignment) : less signed (p :: ps) sofar ρ =
      decide (decode (firsts (p :: ps) ρ) (ps.length + 1) signed <
        decode (seconds (p :: ps) ρ) (ps.length + 1) signed + sofar.toNat) := by
  induction ps generalizing p sofar with
  | nil =>
    show (if ρ p.1 = ρ p.2 then sofar else ρ p.2 ^^ (signed && true)) =
      decide (decode ((ρ p.1).toNat + 2 * 0) 1 signed <
        decode ((ρ p.2).toNat + 2 * 0) 1 signed + sofar.toNat)
    generalize ρ p.1 = x
    generalize ρ p.2 = y
    revert x y
    cases signed <;> cases sofar <;> decide
  | cons q ps ih =>
    have hverdict : verdict signed (q :: ps) (ρ p.2) = ρ p.2 := by
      unfold verdict
      rw [List.isEmpty_cons, Bool.and_false, Bool.xor_false]
    rw [less_cons, hverdict, ih, firsts_cons p, seconds_cons p, List.length_cons,
      decode_cons (firsts_lt _ ρ), decode_cons (seconds_lt _ ρ), decide_eq_decide]
    cases ρ p.1 <;> cases ρ p.2 <;> cases sofar <;> simp <;> omega

/-! ## Subfunctions of comparisons -/

/-- The relation of the two numbers that the digits of the pairs encode. -/
def compared (op : Operator) (signed : Bool) (ps : List (Nat × Nat)) : Assignment → Bool :=
  fun ρ =>
    op.relates (decode (firsts ps ρ) ps.length signed) (decode (seconds ps ρ) ps.length signed)

theorem compared_eq (signed : Bool) (p : Nat × Nat) (ps : List (Nat × Nat)) :
    compared .eq signed (p :: ps) = same (p :: ps) := by
  funext ρ
  rw [same_eq]
  exact decide_eq_decide.2 (decode_inj (firsts_lt (p :: ps) ρ) (seconds_lt (p :: ps) ρ)
    (Nat.succ_pos ps.length) signed)

theorem compared_lt (signed : Bool) (p : Nat × Nat) (ps : List (Nat × Nat)) :
    compared .lt signed (p :: ps) = less signed (p :: ps) false := by
  funext ρ
  rw [less_eq]
  exact decide_eq_decide.2 (by rw [Bool.toNat_false, Int.natCast_zero, Int.add_zero]; rfl)

theorem compared_le (signed : Bool) (p : Nat × Nat) (ps : List (Nat × Nat)) :
    compared .le signed (p :: ps) = less signed (p :: ps) true := by
  funext ρ
  rw [less_eq]
  exact decide_eq_decide.2 Int.lt_add_one_iff.symm

/-- A comparison and its opposite have the same subfunctions. -/
theorem subfunctions_compared {op op' : Operator} (h : op.opposite? = some op') (signed : Bool)
    (ps : List (Nat × Nat)) :
    subfunctions (compared op signed ps) = subfunctions (compared op' signed ps) := by
  rw [← subfunctions_not (compared op' signed ps)]
  exact congrArg subfunctions (funext fun ρ => op.relates_opposite? h _ _)

/-- **Every comparison of alternating digits** has three subfunctions for every pair. -/
theorem Alternate.encard_compared (h : Alternate v (p :: ps)) (hv : 0 < v) (signed : Bool)
    {op : Operator} (hop : op.isComparison = true) :
    (subfunctions (compared op signed (p :: ps))).encard = (3 * (ps.length + 1) : Nat) := by
  have hlt : (subfunctions (compared .lt signed (p :: ps))).encard = _ :=
    (compared_lt signed p ps) ▸ h.encard_subfunctions_less hv signed false
  have hle : (subfunctions (compared .le signed (p :: ps))).encard = _ :=
    (compared_le signed p ps) ▸ h.encard_subfunctions_less hv signed true
  have heq : (subfunctions (compared .eq signed (p :: ps))).encard = _ :=
    (compared_eq signed p ps) ▸ h.encard_subfunctions_same hv
  cases op with
  | eq => exact heq
  | ne => rw [subfunctions_compared rfl, heq]
  | lt => exact hlt
  | ge => rw [subfunctions_compared rfl, hlt]
  | le => exact hle
  | gt => rw [← subfunctions_compared (show Operator.le.opposite? = some .gt from rfl), hle]
  | _ => cases hop

end Diagram

namespace Quantity

variable {p q : Quantity}

/-- What a comparison reads of an operand as wide as the other one. -/
theorem InRange.against_of_width_eq (hp : p.InRange) (h : p.width = q.width) :
    p.against q = decode p.raw p.width (p.signed && q.signed) := by
  rw [← hp.decode_against (w := p.width) (by rw [← h, Nat.max_self]) rfl]
  unfold extend toInt
  rw [wrap_decode hp.raw_lt hp.width_pos]

/-- A comparison of operands of one width reads both as signed or both as unsigned. -/
theorem relates_of_width_eq {op : Operator} (hp : p.InRange) (hq : q.InRange)
    (h : p.width = q.width) : op.relates (p.against q) (q.against p) =
      op.relates (decode p.raw p.width (p.signed && q.signed))
        (decode q.raw q.width (p.signed && q.signed)) := by
  rw [hp.against_of_width_eq h, hq.against_of_width_eq h.symm, Bool.and_comm q.signed]

end Quantity

/-! ## Terms side by side -/

namespace Solver

variable {s s' s₁ : Solver} {terms ts : List BitVector} {w : Nat} {op : Operator}

/-- The variables of two interleaved terms, bit by bit. -/
def sideBySide (first w : Nat) : List (Nat × Nat) :=
  (List.range w).map fun i => (first + 2 * i, first + 2 * i + 1)

theorem sideBySide_succ (first w : Nat) :
    sideBySide first (w + 1) = (first, first + 1) :: sideBySide (first + 2) w := by
  unfold sideBySide
  rw [List.range_succ_eq_map, List.map_cons, List.map_map]
  refine congrArg _ (List.map_congr_left fun i _ => ?_)
  show (first + 2 * (i + 1), first + 2 * (i + 1) + 1) = _
  rw [show first + 2 * (i + 1) = first + 2 + 2 * i by omega]

theorem alternate_sideBySide (first w : Nat) : Alternate first (sideBySide first w) := by
  induction w generalizing first with
  | zero => trivial
  | succ w ih =>
    rw [sideBySide_succ]
    exact ⟨Nat.le_refl _, Nat.lt_succ_self _, ih (first + 2)⟩

theorem length_sideBySide (first w : Nat) : (sideBySide first w).length = w := by
  unfold sideBySide
  rw [List.length_map, List.length_range]

/-- The comparison of two interleaved terms has three subfunctions for every bit. -/
theorem encard_sideBySide {first : Nat} (hfirst : 0 < first) (hw : 1 ≤ w) (signed : Bool)
    (hop : op.isComparison = true) :
    (subfunctions (compared op signed (sideBySide first w))).encard = (3 * w : Nat) := by
  obtain ⟨n, rfl⟩ : ∃ n, w = n + 1 := ⟨w - 1, by omega⟩
  have h := alternate_sideBySide first (n + 1)
  have hlength := length_sideBySide (first + 2) n
  rw [sideBySide_succ] at h ⊢
  rw [h.encard_compared hfirst signed hop, hlength]

/-- The plan of two interleaved terms of one width. -/
theorem plan_two (first w : Nat) : Layout.interleaved.plan first [w, w] =
    [(sideBySide first w).map Prod.fst, (sideBySide first w).map Prod.snd] := by
  have hrank : ∀ i ∈ List.range w, Layout.interleaved.rank [w, w] 0 i = 2 * i ∧
      Layout.interleaved.rank [w, w] 1 i = 2 * i + 1 := by
    intro i hi
    have hi := List.mem_range.1 hi
    -- before a bit come the lower ones of both terms, and the bit of the first term at its side
    have hbefore : Layout.before [w, w] i = 2 * i := by
      show min w i + (min w i + 0) = 2 * i
      omega
    have hside : Layout.reaching [w] i = 1 := by
      rw [Layout.reaching_singleton, if_pos hi]
    exact ⟨hbefore, congrArg₂ Nat.add hbefore hside⟩
  have hfst : (List.range w).map (fun i => first + Layout.interleaved.rank [w, w] 0 i) =
      (sideBySide first w).map Prod.fst := by
    unfold sideBySide
    rw [List.map_map]
    exact List.map_congr_left fun i hi => congrArg (first + ·) (hrank i hi).1
  have hsnd : (List.range w).map (fun i => first + Layout.interleaved.rank [w, w] 1 i) =
      (sideBySide first w).map Prod.snd := by
    unfold sideBySide
    rw [List.map_map]
    exact List.map_congr_left fun i hi => congrArg (first + ·) (hrank i hi).2
  rw [← hfst, ← hsnd]
  rfl

/-- Two fresh terms of one width read as the numbers of the pairs. -/
theorem freshVariables_two (hs : s.store.Reached) (hn : s.numVars ≤ maxNodes)
    (hlayout : s.layout = .interleaved) (hw : 1 ≤ w) {σ τ : Bool}
    (hr : freshVariables [⟨w, σ⟩, ⟨w, τ⟩] s = .ok (ts, s')) :
    ∃ a b, ts = [a, b] ∧ s'.store.Reached ∧
      s'.store.Means a (fun ρ => ⟨w, a.signed, firsts (sideBySide (s.numVars + 1) w) ρ⟩) ∧
      s'.store.Means b (fun ρ => ⟨w, b.signed, seconds (sideBySide (s.numVars + 1) w) ρ⟩) := by
  have hshapes : ∀ shape ∈ [Shape.mk w σ, Shape.mk w τ], 1 ≤ shape.width :=
    List.forall_mem_cons.2 ⟨hw, List.forall_mem_singleton.2 hw⟩
  have hreached : s'.store.Reached := OnRun.ends_freshVariables hs hshapes _ _ hr
  obtain ⟨store, rfl, -, -, -, hts⟩ := (allocates_of_interleaved hs hn hlayout hshapes).of_run hr
  have hplan : Layout.interleaved.plan (s.numVars + 1)
      ([Shape.mk w σ, Shape.mk w τ].map Shape.width) = _ := plan_two (s.numVars + 1) w
  rw [hplan] at hts
  rcases hts with _ | ⟨ha, hts⟩
  rcases hts with _ | ⟨hb, hts⟩
  cases hts
  exact ⟨_, _, rfl, hreached, ha.2.2.means hw, hb.2.2.means hw⟩

/-- **Comparisons of interleaved terms have three nodes for every bit.** Where two terms of one
width are allocated together, whatever their flags are, every comparison of them is a single bit
whose diagram has three nodes for every bit of a term, the terminal included, right after the
allocation and on every store that a run makes of it. Only the storage can be too small for the
comparison. -/
theorem comparisonSize_exact (hs : s.store.Reached) (hn : s.numVars ≤ maxNodes)
    (hlayout : s.layout = .interleaved) (hw : 1 ≤ w) {σ τ : Bool}
    (hr : freshVariables [⟨w, σ⟩, ⟨w, τ⟩] s = .ok (ts, s')) :
    ∃ a b, ts = [a, b] ∧ s'.store.Reached ∧
      ∀ s₁ : Solver, s₁.store.Reached → s'.store.GrowsTo s₁.store →
        ∀ op : Operator, op.isComparison = true →
          (∃ f s₂, apply op a b s₁ = .ok (.ofBit f, s₂) ∧
            s₂.store.diagramSize f = .ok (3 * w)) ∨ Outgrows s₁ (apply op a b) := by
  obtain ⟨a, b, rfl, hreached, ha, hb⟩ := freshVariables_two hs hn hlayout hw hr
  refine ⟨a, b, rfl, hreached, fun s₁ hs₁ hg op hop => ?_⟩
  have hreduced := hreached.valid.reduced
  have ha' := ha.grow hreduced hg
  have hb' := hb.grow hreduced hg
  obtain ⟨r, store, hyields, hstore, -, f, rfl, hf⟩ := hs₁.valid.gives_comparison ha' hb' hop
  refine (yields_build hyields).run_or_outgrows.imp_left fun hrun => ⟨f, _, hrun.1, ?_⟩
  -- both terms are read by one flag, and the size counts the subfunctions of the comparison
  have hcompared : store.Denotes f
      (compared op (a.signed && b.signed) (sideBySide (s.numVars + 1) w)) := by
    refine hf.congr fun ρ => ?_
    rw [Quantity.relates_of_width_eq (ha'.inRange ρ) (hb'.inRange ρ) rfl]
    unfold compared
    rw [length_sideBySide]
  obtain ⟨size, hsize, hcount⟩ := hstore.reduced.diagramSize_eq hcompared
  rw [encard_sideBySide (Nat.succ_pos _) hw _ hop, Nat.cast_inj] at hcount
  rw [hsize, hcount]

/-- A signed and an unsigned term of two bits, after another variable: the order has six nodes. -/
theorem oneVariable_comparisonSize_exact :
    ∃ a b s', freshVariables [⟨2, true⟩, ⟨2, false⟩] oneVariable = .ok ([a, b], s') ∧
      ∃ f s₂, apply .lt a b s' = .ok (.ofBit f, s₂) ∧ s₂.store.diagramSize f = .ok 6 := by
  have hreached := run_oneVariable.reached.1
  have hw : ∀ shape ∈ [Shape.mk 2 true, Shape.mk 2 false], 1 ≤ shape.width := by decide
  have hallocates := allocates_of_interleaved hreached (by decide) rfl hw
  obtain ⟨ts, s', hr⟩ := hallocates.exists_of_room (by decide) (by decide)
  obtain ⟨a, b, rfl, hreached', hsize⟩ :=
    comparisonSize_exact hreached (by decide) rfl (Nat.le_succ 1) hr
  have hfits : ((freshVariables [⟨2, true⟩, ⟨2, false⟩] >>= fun ts =>
      apply .lt (ts.getD 0 ⟨[], false⟩) (ts.getD 1 ⟨[], false⟩)) oneVariable).isOk = true := by
    decide +kernel
  rw [bind_of_ok hr] at hfits
  exact ⟨a, b, s', hr, (hsize s' hreached' (Store.GrowsTo.refl _) .lt rfl).resolve_right
    (not_outgrows_of_isOk hfits)⟩

end Solver

end Stimulus

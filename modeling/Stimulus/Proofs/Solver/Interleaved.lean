import Stimulus.Proofs.Solver.Stores

/-!
# Interleaved terms

Terms that a solver allocates together take the next variables without a gap, and their bits are
the bare nodes of these variables (`Solver.interleaved_exact`): position after position, and at
each position term after term. As no variable is shared or left out, the terms take every choice of
raw values, each of them under exactly one assignment to these variables.
-/

set_option autoImplicit false

namespace Stimulus

open Diagram Store

/-! ## Nodes of variables -/

namespace Diagram.Store

variable {s : Store} {e : Edge} {v : Nat}

/-- The edge of a variable: it is not complemented, its node tests the variable between the two
constants, and it is true where the variable is. -/
structure IsVariable (s : Store) (e : Edge) (v : Nat) : Prop where
  /-- The edge is not complemented. -/
  regular : e.isNegated = false
  /-- The node tests the variable only. -/
  node : s.node e = .ok ⟨v, .zero, .one⟩
  /-- The edge has the value of the variable. -/
  evaluate : ∀ ρ, s.evaluate e ρ = .ok (ρ v)

/-- The edge with the function of a variable is the edge of this variable. -/
theorem Denotes.isVariable (he : s.Denotes e fun ρ => ρ v) (hs : s.Reduced) : s.IsVariable e v := by
  have ht : e.isTerminal = false := by
    rw [← Bool.not_eq_true, Edge.isTerminal_iff_index]
    exact Nat.ne_of_gt (two_le_index_of_var hs he)
  obtain ⟨n, hn, hform⟩ := hs.get? he.has ht
  have hside := fun b => he.side hs ht hn b
  -- a node that tests another variable would have equal sides
  have hvar : n.var = v := by
    by_contra hne
    have hskip : ∀ b, s.Denotes (e.along (n.side b)) fun ρ => ρ v := fun b =>
      (hside b).congr fun ρ => ρ.set_of_ne b (Ne.symm hne)
    exact hform.low_ne_high (Edge.along_inj.1 (hs.canonical (hskip false) (hskip true)))
  subst hvar
  have hlow : e.along n.low = .zero :=
    hs.canonical ((hside false).congr fun ρ => ρ.set_self n.var false) (denotes_zero hs)
  have hhigh : e.along n.high = .one :=
    hs.canonical ((hside true).congr fun ρ => ρ.set_self n.var true) (denotes_one hs)
  -- a complemented edge would need a complemented high edge
  have hregular : e.isNegated = false := by
    by_contra hneg
    rw [Edge.along, if_pos (Bool.not_eq_false _ ▸ hneg)] at hhigh
    have hzero : n.high = .zero := by rw [← Edge.neg_neg n.high, hhigh, Edge.neg_one]
    exact Bool.false_ne_true (hform.high_regular.symm.trans (hzero ▸ rfl))
  rw [Edge.along_of_pos hregular] at hlow hhigh
  refine ⟨hregular, ?_, he.evaluate⟩
  rw [node_of_get? hn, ← hlow, ← hhigh]

/-- Some variables spell the same numbers under two assignments exactly if these agree on them. -/
theorem map_valueAt_eq_iff {ρ σ : Assignment} {vars : List (List Nat)} :
    vars.map (valueAt ρ) = vars.map (valueAt σ) ↔ ∀ v ∈ vars.flatten, ρ v = σ v := by
  rw [List.map_inj_left]
  constructor
  · intro h v hv
    obtain ⟨vs, hvs, hv⟩ := List.mem_flatten.1 hv
    exact eq_of_valueAt_eq (h vs hvs) v hv
  · intro h vs hvs
    exact valueAt_congr fun v hv => h v (List.mem_flatten.2 ⟨vs, hvs, hv⟩)

end Diagram.Store

/-! ## Terms of a plan -/

namespace Solver

variable {s s' : Solver} {terms ts : List BitVector} {store : Store} {shapes : List Shape}
  {raws : List Nat} {ρ : Assignment} {plan : List (List Nat)}

/-- The terms are over the variables of a plan. -/
def Planned (store : Store) (ts : List BitVector) (plan : List (List Nat)) : Prop :=
  List.Forall₂ (fun t vars => store.Spells vars.length t.bits fun ρ => valueAt ρ vars) ts plan

theorem planned_of_fresh (hlen : plan.length = shapes.length)
    (h : List.Forall₂ (fun t p => Fresh store p.2 t p.1) ts (plan.zip shapes)) :
    Planned store ts plan := by
  have hfst : Planned store ts ((plan.zip shapes).map Prod.fst) :=
    List.forall₂_map_right_iff.2 (h.imp fun t p ht => ht.2.1 ▸ ht.2.2)
  rwa [List.map_fst_zip (Nat.le_of_eq hlen)] at hfst

theorem shapes_of_fresh (hlen : plan.length = shapes.length)
    (h : List.Forall₂ (fun t p => Fresh store p.2 t p.1) ts (plan.zip shapes)) :
    List.Forall₂ (fun t shape => t.width = shape.width ∧ t.signed = shape.signed) ts shapes := by
  have hsnd : List.Forall₂ (fun t (shape : Shape) => t.width = shape.width ∧
      t.signed = shape.signed) ts ((plan.zip shapes).map Prod.snd) :=
    List.forall₂_map_right_iff.2 (h.imp fun t p ht => ⟨ht.2.2.length, ht.1⟩)
  rwa [List.map_snd_zip (Nat.le_of_eq hlen.symm)] at hsnd

/-- The bits of planned terms are the edges of the variables at their places. -/
theorem Planned.isVariable {layout : Layout} {first : Nat} {widths : List Nat}
    (h : Planned store ts (layout.plan first widths)) (hs : store.Reduced) {j i : Nat}
    {t : BitVector} {e : Edge} (ht : ts[j]? = some t) (he : t.bits[i]? = some e) :
    store.IsVariable e (layout.number first widths (j, i)) := by
  obtain ⟨vars, hvars, hspells⟩ := getElem?_of_forall₂ h ht
  obtain ⟨v, hv, hdenotes⟩ := getElem?_of_forall₂ (hspells.denotes_vars rfl) he
  rw [Layout.getElem?_plan] at hvars
  obtain ⟨w, -, rfl⟩ := Option.map_eq_some_iff.1 hvars
  rw [List.getElem?_map] at hv
  obtain ⟨i', hi', rfl⟩ := Option.map_eq_some_iff.1 hv
  obtain ⟨hlt, hget⟩ := List.getElem?_eq_some_iff.1 hi'
  rw [List.getElem_range hlt] at hget
  subst hget
  exact hdenotes.isVariable hs

/-- Planned terms read as the numbers that their variables spell. -/
theorem Planned.forall₂_valueOf_iff (h : Planned store ts plan) :
    List.Forall₂ (fun t x => BitVector.valueOf store ρ t.bits = .ok x) ts raws ↔
      plan.map (valueAt ρ) = raws := by
  induction h generalizing raws with
  | nil =>
    rw [List.forall₂_nil_left_iff]
    exact eq_comm
  | cons ht _ ih =>
    cases raws with
    | nil => constructor <;> intro h <;> cases h
    | cons x raws =>
      rw [List.forall₂_cons, ih, ht.valueOf, List.map_cons, List.cons.injEq, Except.ok.injEq]

theorem Planned.forall₂_lt (h : Planned store ts plan)
    (hraws : List.Forall₂ (fun t x => x < 2 ^ t.width) ts raws) :
    List.Forall₂ (fun x vars => x < 2 ^ vars.length) raws plan := by
  induction h generalizing raws with
  | nil =>
    cases hraws
    exact List.Forall₂.nil
  | cons ht _ ih =>
    cases hraws with
    | cons hx hraws => exact List.Forall₂.cons (ht.length ▸ hx) (ih hraws)

/-- **Planned terms take all raw values**, each choice of them under exactly the assignments that
have certain values at the variables of the plan. -/
theorem Planned.exists_iff (h : Planned store ts plan) (hplan : plan.flatten.Nodup)
    (hraws : List.Forall₂ (fun t x => x < 2 ^ t.width) ts raws) :
    ∃ σ : Assignment, ∀ ρ, List.Forall₂ (fun t x => BitVector.valueOf store ρ t.bits = .ok x)
      ts raws ↔ ∀ v ∈ plan.flatten, ρ v = σ v := by
  obtain ⟨σ, hσ⟩ := exists_valueAt (h.forall₂_lt hraws) hplan
  have hmap := map_eq_of_forall₂ (u := id) hσ fun _ _ h => h.symm
  rw [List.map_id] at hmap
  exact ⟨σ, fun ρ => by rw [h.forall₂_valueOf_iff, hmap, map_valueAt_eq_iff]⟩

/-- Two assignments agree on the `w` variables after the first `n`. -/
theorem forall_range'_iff {ρ σ : Assignment} {n w : Nat} :
    (∀ v ∈ List.range' (n + 1) w, ρ v = σ v) ↔
      ∀ i : Fin w, ρ (n + 1 + i.val) = σ (n + 1 + i.val) := by
  constructor
  · exact fun h i => h _ (List.mem_range'_1.2 ⟨Nat.le_add_right _ _, Nat.add_lt_add_left i.isLt _⟩)
  · intro h v hv
    rw [List.mem_range'_1] at hv
    have hi := h ⟨v - (n + 1), by omega⟩
    rwa [Nat.add_sub_cancel' hv.1] at hi

/-- What the fresh terms of an interleaving solver are over, once there are any. -/
theorem allocates_of_interleaved (hs : s.store.Reached) (hn : s.numVars ≤ maxNodes)
    (hlayout : s.layout = .interleaved) (hw : ∀ shape ∈ shapes, 1 ≤ shape.width) :
    Allocates s.numVars False s (freshVariables shapes) (Layout.total (shapes.map Shape.width))
      fun ts t => List.Forall₂ (fun r p => Fresh t p.2 r p.1) ts
        ((Layout.interleaved.plan (s.numVars + 1) (shapes.map Shape.width)).zip shapes) := by
  have h : Allocates s.numVars False s (freshVariables shapes) _ _ :=
    (valid_of_numVars_le hs.valid hn).allocates_freshVariables hw
      fun hsequential => nomatch hlayout.symm.trans hsequential
  rwa [hlayout] at h

/-- **Interleaved allocation is a bijection in bit-major order.** A solver gives terms of any shapes
as long as the storage lasts for one node for every bit; otherwise it gives them too, or needs more
nodes than the storage takes. The terms have the widths and flags of the shapes, and their bits are
variables, which take the places in the terms one to one to the variables that come next, in the
order of the positions and at each position of the terms. So each choice of raw values belongs to
exactly one choice of values for these variables: the terms read as the raw values under the
assignments that have these values and under no others. -/
theorem interleaved_exact (hs : s.store.Reached) (hn : s.numVars ≤ maxNodes)
    (hlayout : s.layout = .interleaved) {shapes : List Shape}
    (hw : ∀ shape ∈ shapes, 1 ≤ shape.width) :
    (s.store.nodes.size + Layout.total (shapes.map Shape.width) ≤ maxNodes →
      ∃ ts s', freshVariables shapes s = .ok (ts, s')) ∧
    ((∃ ts s', freshVariables shapes s = .ok (ts, s')) ∨ Exceeds s (freshVariables shapes)) ∧
    ∀ ts s', freshVariables shapes s = .ok (ts, s') →
      List.Forall₂ (fun t shape => t.width = shape.width ∧ t.signed = shape.signed) ts shapes ∧
      s'.numVars = s.numVars + Layout.total (shapes.map Shape.width) ∧
      (∃ number : Nat × Nat → Nat,
        (∀ j i t e, ts[j]? = some t → t.bits[i]? = some e →
          s'.store.IsVariable e (number (j, i))) ∧
        Set.BijOn number (Layout.places (shapes.map Shape.width))
          (Set.Ico (s.numVars + 1) (s'.numVars + 1)) ∧
        ∀ p ∈ Layout.places (shapes.map Shape.width),
          ∀ q ∈ Layout.places (shapes.map Shape.width),
            p.2 < q.2 ∨ p.2 = q.2 ∧ p.1 < q.1 → number p < number q) ∧
      ∀ raws, List.Forall₂ (fun t x => x < 2 ^ t.width) ts raws →
        ∃! values : Fin (Layout.total (shapes.map Shape.width)) → Bool,
          (∀ ρ, List.Forall₂ (fun t x => BitVector.valueOf s'.store ρ t.bits = .ok x) ts raws ↔
            ∀ i, ρ (s.numVars + 1 + i.val) = values i) ∧
          ∀ m : Solution, (∀ i, m.value (s.numVars + 1 + i.val) = values i) →
            List.Forall₂ (fun t x => t.width ≤ 64 → s'.read m t = .ok x) ts raws := by
  have hallocates := allocates_of_interleaved hs hn hlayout hw
  refine ⟨fun hroom => ?_, ?_, fun ts s' hr => ?_⟩
  · refine hallocates.exists_of_room hroom ?_
    unfold maxNodes at hn hroom
    unfold lastVariable
    omega
  · exact hallocates.run_or_exceeds_of_bounded hs.bounded
  obtain ⟨store, rfl, hs', -, -, hts⟩ := hallocates.of_run hr
  have hlen : (Layout.interleaved.plan (s.numVars + 1) (shapes.map Shape.width)).length =
      shapes.length := by
    rw [Layout.length_plan, List.length_map]
  have hplanned := planned_of_fresh hlen hts
  refine ⟨shapes_of_fresh hlen hts, rfl, ⟨_, fun j i t e => hplanned.isVariable hs'.store.reduced,
    ?_, ?_⟩, fun raws hraws => ?_⟩
  · show Set.BijOn _ _ (Set.Ico _ (s.numVars + Layout.total (shapes.map Shape.width) + 1))
    rw [Nat.add_right_comm]
    exact Layout.bijOn_number _ _ _
  · rintro ⟨j, i⟩ ⟨w, hj, hi⟩ q - hpq
    exact Nat.add_lt_add_left (Layout.interleaved_rank_lt hj hi hpq) _
  · obtain ⟨σ, hσ⟩ := hplanned.exists_iff (Layout.nodup_flatten_plan _ _ _) hraws
    have hiff : ∀ ρ, List.Forall₂ (fun t x => BitVector.valueOf store ρ t.bits = .ok x) ts raws ↔
        ∀ i : Fin (Layout.total (shapes.map Shape.width)),
          ρ (s.numVars + 1 + i.val) = σ (s.numVars + 1 + i.val) := fun ρ => by
      rw [hσ, ← forall_range'_iff]
      exact forall_congr' fun v => by rw [(Layout.plan_perm _ _ _).mem_iff]
    refine ⟨fun i => σ (s.numVars + 1 + i.val), ⟨hiff, fun m hm => ?_⟩, fun values hvalues => ?_⟩
    · exact ((hiff m.value).2 hm).imp fun t x hx hwidth => by
        unfold read
        rw [List.take_of_length_le hwidth]
        exact hx
    · exact funext fun i => ((hvalues.1 σ).1 ((hiff σ).2 fun _ => rfl) i).symm

/-- After one variable, terms of two bits and of one take the next three. They read as two and one
under exactly the assignments that have certain values for these. -/
theorem oneVariable_interleaved_exact :
    ∃ ts s', freshVariables [⟨2, false⟩, ⟨1, true⟩] oneVariable = .ok (ts, s') ∧ s'.numVars = 4 ∧
      ∃ values : Fin 3 → Bool, ∀ ρ,
        List.Forall₂ (fun t x => BitVector.valueOf s'.store ρ t.bits = .ok x) ts [2, 1] ↔
          ∀ i, ρ (2 + i.val) = values i := by
  have hw : ∀ shape ∈ [Shape.mk 2 false, Shape.mk 1 true], 1 ≤ shape.width := by decide
  obtain ⟨hroom, -, hall⟩ := interleaved_exact run_oneVariable.reached.1 (by decide) rfl hw
  obtain ⟨ts, s', hr⟩ := hroom (by decide)
  obtain ⟨hshapes, hnum, -, hvalues⟩ := hall ts s' hr
  have hraws : List.Forall₂ (fun t x => x < 2 ^ t.width) ts [2, 1] := by
    rcases hshapes with _ | ⟨⟨ht, -⟩, hshapes⟩
    rcases hshapes with _ | ⟨⟨hu, -⟩, hshapes⟩
    cases hshapes
    rw [List.forall₂_cons, List.forall₂_cons, ht, hu]
    exact ⟨by decide, by decide, List.Forall₂.nil⟩
  obtain ⟨values, ⟨hiff, -⟩, -⟩ := hvalues _ hraws
  exact ⟨ts, s', hr, hnum, values, hiff⟩

/-- There are fewer nodes than some terms can have bits: a new solver does not give 64 terms of
33554432 bits. -/
theorem freshVariables_exhausted :
    freshVariables (List.replicate 64 ⟨33554432, false⟩) (ofSeed 0 .interleaved) =
      .error .storageExhausted := by
  have hs : (ofSeed 0 .interleaved).store.Reached := @Reached.new 16 .empty rfl
  have hw : ∀ shape ∈ List.replicate 64 (Shape.mk 33554432 false), 1 ≤ shape.width :=
    List.forall_mem_replicate.2 (Or.inr (by decide))
  have hallocates := allocates_of_interleaved hs (Nat.zero_le _) rfl hw
  rcases hallocates.run_or_exceeds_of_bounded rfl with ⟨ts, s', hr⟩ | hfull
  · -- every bit would have a node
    obtain ⟨t, -, ht, -, hbounded, -⟩ := hallocates.of_run hr
    have hle : 2147483648 + 2 ≤ 0 + maxNodes := ht.numVars_le hbounded
    exact absurd hle (by decide)
  · exact hfull.1

end Solver

end Stimulus

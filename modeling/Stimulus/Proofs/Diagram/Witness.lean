import Stimulus.Diagram.Witness
import Stimulus.Proofs.Diagram.Count

/-!
# Greedy walks

The greedy walk from an edge other than the constant false meets no fault, and at
every node it takes the high side unless that one is the constant false
(`Store.Walks`, `Store.Reduced.walks_witness`). Its decisions are on increasing
variables, so that no variable is decided twice, and every assignment that makes
all of them satisfies the function (`Store.Walks.decides`,
`Store.Reduced.witness_spec`).
-/

set_option autoImplicit false

namespace Stimulus.Diagram.Store

variable {s : Store} {n v : Nat} {e : Edge} {node : Node} {φ : Assignment → Bool}
  {ds : List Decision}

/-! ## The walk -/

/-- The greedy walk from an edge to the constant true, by the decisions on its way: a variable is
false exactly where the high side is the constant false. -/
inductive Walks (s : Store) : Edge → List Decision → Prop
  | one : s.Walks .one []
  | node {e : Edge} {node : Node} {b : Bool} {ds : List Decision} (ht : e.isTerminal = false)
    (hnode : s.nodes[e.index]? = some node) (hb : b = false ↔ e.along node.high = .zero)
    (hrest : s.Walks (e.along (node.side b)) ds) : s.Walks e (⟨node.var, b⟩ :: ds)

/-- The sides of a node are not both the constant false. -/
theorem NodeForm.low_ne_zero (hf : s.NodeForm e.index node) (hhigh : e.along node.high = .zero) :
    e.along node.low ≠ .zero := by
  intro hlow
  exact hf.low_ne_high (Edge.along_inj.1 (hlow.trans hhigh.symm))

/-- The greedy walk takes a side that is not the constant false, and goes on from there. -/
theorem witnessWithin_of_node (fuel : Nat) (he : s.Has e) (ht : e.isTerminal = false)
    (hnode : s.nodes[e.index]? = some node) (hf : s.NodeForm e.index node) :
    ∃ b, (b = false ↔ e.along node.high = .zero) ∧ e.along (node.side b) ≠ .zero ∧
      s.witnessWithin (fuel + 1) e = do
        return ⟨node.var, b⟩ :: (← s.witnessWithin fuel (e.along (node.side b))) := by
  have hrun : s.witnessWithin (fuel + 1) e =
      if e.along node.high = .zero then do
        return ⟨node.var, false⟩ :: (← s.witnessWithin fuel (e.along node.low))
      else do
        return ⟨node.var, true⟩ :: (← s.witnessWithin fuel (e.along node.high)) := by
    rw [witnessWithin, if_neg (by rw [ht]; exact Bool.false_ne_true), node_of_get? hnode]
    show (s.through e node.high >>= _) = _
    rw [through_of_has (hf.has_high he)]
    show (if e.along node.high = .zero then s.through e node.low >>= _ else _) = _
    rw [through_of_has (hf.has_low he)]
    rfl
  by_cases hhigh : e.along node.high = .zero
  · exact ⟨false, iff_of_true rfl hhigh, hf.low_ne_zero hhigh, by rw [hrun, if_pos hhigh]; rfl⟩
  · exact ⟨true, iff_of_false (by decide) hhigh, hhigh, by rw [hrun, if_neg hhigh]; rfl⟩

theorem Reduced.walks_witnessWithin (hs : s.Reduced) : ∀ (fuel : Nat) (e : Edge), e.index ≤ fuel →
    s.Has e → e ≠ .zero → ∃ ds, s.witnessWithin fuel e = .ok ds ∧ s.Walks e ds := by
  intro fuel
  induction fuel with
  | zero =>
    intro e hi he
    exact absurd he.1 (by omega)
  | succ fuel ih =>
    intro e hi he hzero
    cases ht : e.isTerminal with
    | true =>
      -- the walk ends in the constant true, which needs no decision
      obtain rfl := ((Edge.isTerminal_iff e).1 ht).resolve_left hzero
      exact ⟨[], rfl, .one⟩
    | false =>
      obtain ⟨node, hnode, hf⟩ := hs.get? he ht
      obtain ⟨b, hb, hside, hrun⟩ := witnessWithin_of_node fuel he ht hnode hf
      have hlt := hf.side_lt b
      obtain ⟨ds, hds, hwalks⟩ := ih _ (by rw [Edge.index_along]; omega)
        ((hf.has_side he b).along e) hside
      exact ⟨_, by rw [hrun, hds]; rfl, .node ht hnode hb hwalks⟩

/-- **Every edge but the constant false has its greedy walk.** -/
theorem Reduced.walks_witness (hs : s.Reduced) (he : s.Has e) (hzero : e ≠ .zero) :
    ∃ ds, s.witness e = .ok (some ds) ∧ s.Walks e ds := by
  have hle : e.index ≤ 2 * s.nodes.size := by
    have := he.2
    omega
  obtain ⟨ds, hds, hwalks⟩ := hs.walks_witnessWithin _ e hle he hzero
  refine ⟨ds, ?_, hwalks⟩
  unfold witness
  rw [if_neg hzero, hds]
  rfl

/-! ## Its decisions -/

/-- Decisions on increasing variables after `v` and up to `n`, which together make the function
true. -/
structure Decides (n v : Nat) (φ : Assignment → Bool) (ds : List Decision) : Prop where
  /-- Every decision is on one of the variables. -/
  range : ∀ d ∈ ds, v < d.var ∧ d.var ≤ n
  /-- The variables increase. -/
  increasing : ds.Pairwise fun a b => a.var < b.var
  /-- The function holds wherever the decisions are made. -/
  holds : ∀ ρ : Assignment, (∀ d ∈ ds, ρ d.var = d.value) → φ ρ = true

/-- A decision on the variable of a node, and those of the side that it takes. -/
theorem Decides.cons {b : Bool} (h : Decides n v (fun ρ => φ (ρ.set v b)) ds) {u : Nat}
    (huv : u < v) (hvn : v ≤ n) : Decides n u φ (⟨v, b⟩ :: ds) where
  range d hd := by
    rcases List.mem_cons.1 hd with rfl | hd
    · exact ⟨huv, hvn⟩
    · exact ⟨Nat.lt_trans huv (h.range d hd).1, (h.range d hd).2⟩
  increasing := List.pairwise_cons.2 ⟨fun d hd => (h.range d hd).1, h.increasing⟩
  holds ρ hρ := by
    -- the assignment makes the first decision, so nothing is to be set
    have hb : ρ v = b := hρ ⟨v, b⟩ List.mem_cons_self
    have hφ : φ (ρ.set v b) = true := h.holds ρ fun d hd => hρ d (List.mem_cons_of_mem _ hd)
    rwa [← hb, Assignment.set_eq_self] at hφ

/-- **The decisions of a greedy walk make its function true.** -/
theorem Walks.decides (h : s.Walks e ds) (hs : s.Reduced) (he : s.Denotes e φ) (hφ : Within n φ)
    (hu : s.Under v e) : Decides n v φ ds := by
  induction h generalizing φ v with
  | one =>
    refine ⟨fun d hd => absurd hd List.not_mem_nil, List.Pairwise.nil, fun ρ _ => ?_⟩
    rw [he.unique (denotes_one hs)]
  | @node e node b ds ht hnode _ _ ih =>
    have hf := hs.form _ node (he.has.two_le ht) hnode
    refine (ih (he.side hs ht hnode b) (hφ.fix node.var b) ((hf.side_under b).along e)).cons ?_
      (he.var_le hs hφ ht hnode)
    rcases hu with hu | ⟨m, hm, hv⟩
    · rw [hu] at ht
      cases ht
    · rw [hnode] at hm
      cases hm
      exact hv

/-- **The greedy walk of an edge with solutions gives decisions that lead to one.** -/
theorem Reduced.witness_spec (hs : s.Reduced) (he : s.Denotes e φ) (hφ : Within n φ)
    (hzero : e ≠ .zero) : ∃ ds, s.witness e = .ok (some ds) ∧ Decides n 0 φ ds := by
  have hu : s.Under 0 e := he.under hs fun u hu hu' => absurd hu (Nat.not_lt.2 hu')
  obtain ⟨ds, hds, hwalks⟩ := hs.walks_witness he.has hzero
  exact ⟨ds, hds, hwalks.decides hs he hφ hu⟩

end Stimulus.Diagram.Store

import Stimulus.Proofs.Diagram.Sample

/-!
# One function, the same draws

Two reduced stores may keep one function at different indexes. Seen from its edges
the diagram is the same: both edges are the same constant
(`Store.Denotes.eq_of_isTerminal`), or they lead to nodes on the same variable
(`Store.Denotes.var_eq`) whose sides again have one function each. The chances of
the sides are counts of models, so walks ask the same questions and end in the same
values (`Store.Reduced.walk_eq`), and so do draws answered by one source
(`Store.Reduced.run_sample_eq`).
-/

set_option autoImplicit false

namespace Stimulus.Diagram.Store

variable {s t : Store} {n : Nat} {e f : Edge} {node node' : Node} {φ : Assignment → Bool}

/-! ## The tops of two edges -/

/-- A constant is the same edge in every store. -/
theorem Denotes.eq_of_isTerminal (he : s.Denotes e φ) (hs : s.Reduced) (hf : t.Denotes f φ)
    (ht : t.Reduced) (hterm : e.isTerminal = true) : e = f := by
  rcases (Edge.isTerminal_iff e).1 hterm with rfl | rfl
  · rw [he.unique (denotes_zero hs)] at hf
    exact ht.canonical (denotes_zero ht) hf
  · rw [he.unique (denotes_one hs)] at hf
    exact ht.canonical (denotes_one ht) hf

/-- Where one store keeps a constant, the other one does. -/
theorem Denotes.isTerminal_eq (he : s.Denotes e φ) (hs : s.Reduced) (hf : t.Denotes f φ)
    (ht : t.Reduced) : e.isTerminal = f.isTerminal := by
  rw [Bool.eq_iff_iff]
  constructor
  · intro h
    rwa [← he.eq_of_isTerminal hs hf ht h]
  · intro h
    rwa [← hf.eq_of_isTerminal ht he hs h]

/-- The top variable is the first one that the function depends on. -/
theorem Denotes.var_le_var (he : s.Denotes e φ) (hs : s.Reduced) (hf : t.Denotes f φ)
    (ht : t.Reduced) (hterm' : f.isTerminal = false)
    (hnode : s.nodes[e.index]? = some node) (hnode' : t.nodes[f.index]? = some node') :
    node.var ≤ node'.var := by
  refine Nat.le_of_not_lt fun hlt => ?_
  -- the first edge starts after the variable that the second one tests
  have hu : s.Under node'.var e := Or.inr ⟨node, hnode, hlt⟩
  exact (ht.canonicalUpTo f.index).not_ignores ht (Nat.le_succ _) hf hterm' hnode'
    (he.ignores hs hu (Nat.le_refl _))

theorem Denotes.var_eq (he : s.Denotes e φ) (hs : s.Reduced) (hf : t.Denotes f φ)
    (ht : t.Reduced) (hterm : e.isTerminal = false) (hterm' : f.isTerminal = false)
    (hnode : s.nodes[e.index]? = some node) (hnode' : t.nodes[f.index]? = some node') :
    node.var = node'.var :=
  Nat.le_antisymm (he.var_le_var hs hf ht hterm' hnode hnode')
    (hf.var_le_var ht he hs hterm hnode' hnode)

/-! ## Walks and draws -/

/-- **Walks from edges with one function are the same, whatever stores they go through and
whatever counts they remember.** -/
theorem Reduced.walk_eq (hs : s.Reduced) (ht : t.Reduced) (hn : n < lastVariable) :
    ∀ (fuel fuel' : Nat) (e f : Edge) (φ : Assignment → Bool) (known known' : Counts)
      (values : Fin n → Bool), e.index ≤ fuel → f.index ≤ fuel' → s.Denotes e φ →
      t.Denotes f φ → Within n φ → s.Knows n known → t.Knows n known' →
      s.walk n fuel known e values = t.walk n fuel' known' f values := by
  intro fuel
  induction fuel with
  | zero =>
    intro fuel' e f φ known known' values hi _ he
    exact absurd he.has.1 (by omega)
  | succ fuel ih =>
    intro fuel' e f φ known known' values hi hi' he hf hφ hknown hknown'
    have hterminal := he.isTerminal_eq hs hf ht
    cases hterm : e.isTerminal with
    | true => rw [walk_of_isTerminal hterm, walk_of_isTerminal (hterminal ▸ hterm)]
    | false =>
      have hterm' : f.isTerminal = false := hterminal ▸ hterm
      obtain ⟨node, hnode, hform⟩ := hs.get? he.has hterm
      obtain ⟨node', hnode', hform'⟩ := ht.get? hf.has hterm'
      obtain ⟨fuel', rfl⟩ : ∃ k, fuel' = k + 1 := ⟨fuel' - 1, by have := hf.has.1; omega⟩
      have hvar := he.var_eq hs hf ht hterm hterm' hnode hnode'
      have hvn := he.var_le hs hφ hterm hnode
      obtain ⟨known₁, lows, highs, hknown₁, -, hlows, hhighs, hwalk⟩ :=
        hs.walk_step hn he hφ hterm hnode hform.var_pos hvn fuel hknown
      obtain ⟨known₂, lows', highs', hknown₂, -, hlows', hhighs', hwalk'⟩ :=
        ht.walk_step hn hf hφ hterm' hnode' hform'.var_pos (hvar ▸ hvn) fuel' hknown'
      -- both sides have as many models in either store
      rw [← hvar] at hlows' hhighs'
      obtain rfl : lows = lows' :=
        Nat.eq_of_mul_eq_mul_right (Nat.two_pow_pos node.var) (hlows.trans hlows'.symm)
      obtain rfl : highs = highs' :=
        Nat.eq_of_mul_eq_mul_right (Nat.two_pow_pos node.var) (hhighs.trans hhighs'.symm)
      rw [hwalk, hwalk', ← hvar]
      refine congrArg (Sampler.pick (lows + highs)) (funext fun i => ?_)
      have hside := hform.side_lt (decide (i < highs))
      have hside' := hform'.side_lt (decide (i < highs))
      have hf' := hf.side ht hterm' hnode' (decide (i < highs))
      rw [← hvar] at hf'
      exact ih fuel' _ _ _ _ _ _ (by rw [Edge.index_along]; omega)
        (by rw [Edge.index_along]; omega) (he.side hs hterm hnode _) hf' (hφ.fix _ _) hknown₁
        hknown₂

/-- **What is drawn depends on the function only**, and so does what the draw takes from the
source. -/
theorem Reduced.run_sample_eq (hs : s.Reduced) (ht : t.Reduced) (hn : n < lastVariable)
    (he : s.Denotes e φ) (hf : t.Denotes f φ) (hφ : Within n φ) (g : Source) :
    (s.sample e n).run.run g = (t.sample f n).run.run g := by
  by_cases hzero : e = .zero
  · obtain rfl := he.eq_of_isTerminal hs hf ht (by rw [hzero]; rfl)
    rw [hzero, sample_zero, sample_zero]
  · have hzero' : f ≠ .zero := fun h =>
      hzero ((hf.eq_of_isTerminal ht he hs (by rw [h]; rfl)).symm.trans h)
    rw [run_sample hzero, run_sample hzero']
    refine (Sampler.always_coins n).run_bind_congr (fun bits hbits => ?_) g
    subst hbits
    have hwalk := hs.walk_eq ht hn s.nodes.size t.nodes.size e f φ ∅ ∅ bits.get
      (Nat.le_of_lt he.has.2) (Nat.le_of_lt hf.has.2) he hf hφ (knows_empty s _) (knows_empty t _)
    unfold walk at hwalk
    rw [← List.toArray_ofFn, List.ofFn_get] at hwalk
    rw [hwalk]

end Stimulus.Diagram.Store

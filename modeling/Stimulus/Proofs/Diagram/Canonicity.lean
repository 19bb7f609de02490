import Stimulus.Proofs.Diagram.Denotation

/-!
# Canonicity

In a reduced store two edges with the same function are the same edge
(`Store.Reduced.canonical`). The induction is on a bound for both indexes: where
one edge tests a variable that the other one does not, its two sides would be
equal, and where both test the same variable, their nodes agree side by side.
The high edges carry no complement, which settles the polarity.

It follows that an edge starts after all variables that its function ignores
(`Store.Denotes.under`).
-/

set_option autoImplicit false

namespace Stimulus.Diagram.Store

variable {s : Store} {a b e : Edge} {n m : Node} {v : Nat} {φ : Assignment → Bool}

/-- Edges with the same function are equal, for edges up to the index `k`. -/
def CanonicalUpTo (s : Store) (k : Nat) : Prop :=
  ∀ (a b : Edge) (φ : Assignment → Bool), a.index ≤ k → b.index ≤ k → s.Denotes a φ →
    s.Denotes b φ → a = b

/-- A node tests its variable: the function of an edge to it depends on that variable. -/
theorem CanonicalUpTo.not_ignores {k : Nat} (h : s.CanonicalUpTo k) (hs : s.Reduced)
    (hk : e.index ≤ k + 1) (he : s.Denotes e φ) (ht : e.isTerminal = false)
    (hn : s.nodes[e.index]? = some n) : ¬ Ignores φ n.var := by
  intro hi
  have hf := hs.form _ n (he.has.two_le ht) hn
  -- otherwise both sides denote the function itself, and the bound makes them equal
  have hl := (he.side hs ht hn false).congr fun ρ => hi ρ false
  have hh := (he.side hs ht hn true).congr fun ρ => hi ρ true
  have hlk := hf.side_lt false
  have hhk := hf.side_lt true
  have heq := h _ _ φ (by rw [Edge.index_along]; omega) (by rw [Edge.index_along]; omega) hl hh
  exact hf.low_ne_high (Edge.along_inj.1 heq)

/-- Two edges to nodes on one variable, with the same function. -/
theorem CanonicalUpTo.eq_of_var_eq {k : Nat} (h : s.CanonicalUpTo k) (hs : s.Reduced)
    (hak : a.index ≤ k + 1) (hbk : b.index ≤ k + 1) (ha : s.Denotes a φ) (hb : s.Denotes b φ)
    (hat : a.isTerminal = false) (hbt : b.isTerminal = false) (hn : s.nodes[a.index]? = some n)
    (hm : s.nodes[b.index]? = some m) (hv : n.var = m.var) : a = b := by
  have hfn := hs.form _ n (ha.has.two_le hat) hn
  have hfm := hs.form _ m (hb.has.two_le hbt) hm
  -- the sides denote the same functions, so they agree as they are seen from the edges
  have key : ∀ c, a.along (n.side c) = b.along (m.side c) := by
    intro c
    have h1 := hfn.side_lt c
    have h2 := hfm.side_lt c
    refine h _ _ _ (by rw [Edge.index_along]; omega) (by rw [Edge.index_along]; omega)
      (ha.side hs hat hn c) ?_
    rw [hv]
    exact hb.side hs hbt hm c
  -- the high edges are not complemented, so they agree themselves and so do the polarities
  have hhigh : n.high = m.high := by
    have hi := congrArg Edge.index (key true)
    rw [Edge.index_along, Edge.index_along] at hi
    exact Edge.eq_of_index_of_isNegated hi (by rw [hfn.high_regular, hfm.high_regular])
  have hpol : a.isNegated = b.isNegated := by
    have hk := key true
    have hne := Edge.ne_neg hfm.high_older.1
    unfold Edge.along Node.side at hk
    rw [hhigh] at hk
    cases ha' : a.isNegated <;> cases hb' : b.isNegated <;> simp [ha', hb'] at hk ⊢
    · exact hne hk
    · exact hne hk.symm
  have hlow : n.low = m.low := by
    have hk := key false
    unfold Edge.along Node.side at hk
    rw [hpol] at hk
    cases hb' : b.isNegated <;> simp only [hb'] at hk
    · exact hk
    · exact Edge.neg_inj.1 hk
  have hnm : n = m := by
    cases n
    cases m
    simp only at hv hlow hhigh
    rw [hv, hlow, hhigh]
  subst hnm
  exact Edge.eq_of_index_of_isNegated
    (hs.index_inj (ha.has.two_le hat) (hb.has.two_le hbt) hn hm) hpol

/-- An edge to a node and an edge that starts later have different functions. -/
theorem CanonicalUpTo.ne_of_under {k : Nat} (h : s.CanonicalUpTo k) (hs : s.Reduced)
    (hak : a.index ≤ k + 1) (ha : s.Denotes a φ) (hat : a.isTerminal = false)
    (hn : s.nodes[a.index]? = some n) (hb : s.Denotes b φ) : ¬ s.Under n.var b :=
  fun hu => h.not_ignores hs hak ha hat hn (hb.ignores hs hu (Nat.le_refl _))

theorem Reduced.canonicalUpTo (hs : s.Reduced) : ∀ k, s.CanonicalUpTo k := by
  intro k
  induction k with
  | zero =>
    intro a b φ hak _ ha
    exact absurd ha.has.1 (by omega)
  | succ k ih =>
    intro a b φ hak hbk ha hb
    cases hat : a.isTerminal with
    | true =>
      cases hbt : b.isTerminal with
      | true =>
        -- two constants with the same function
        have hone := denotes_one hs
        have hzero := denotes_zero hs
        rcases (Edge.isTerminal_iff a).1 hat with rfl | rfl <;>
          rcases (Edge.isTerminal_iff b).1 hbt with rfl | rfl
        · rfl
        · exact absurd (congrFun ((ha.unique hzero).symm.trans (hb.unique hone)) fun _ => true)
            (by simp)
        · exact absurd (congrFun ((ha.unique hone).symm.trans (hb.unique hzero)) fun _ => true)
            (by simp)
        · rfl
      | false =>
        obtain ⟨m, hm, -⟩ := hs.get? hb.has hbt
        exact absurd (Or.inl hat) (ih.ne_of_under hs hbk hb hbt hm ha)
    | false =>
      obtain ⟨n, hn, -⟩ := hs.get? ha.has hat
      cases hbt : b.isTerminal with
      | true => exact absurd (Or.inl hbt) (ih.ne_of_under hs hak ha hat hn hb)
      | false =>
        obtain ⟨m, hm, -⟩ := hs.get? hb.has hbt
        -- the node on the smaller variable tests a variable that the other edge ignores
        rcases Nat.lt_trichotomy n.var m.var with hlt | heq | hgt
        · exact absurd (Or.inr ⟨m, hm, hlt⟩) (ih.ne_of_under hs hak ha hat hn hb)
        · exact ih.eq_of_var_eq hs hak hbk ha hb hat hbt hn hm heq
        · exact absurd (Or.inr ⟨n, hn, hgt⟩) (ih.ne_of_under hs hbk hb hbt hm ha)

/-- **Edges of a reduced store with the same function are equal.** -/
theorem Reduced.canonical (hs : s.Reduced) (ha : s.Denotes a φ) (hb : s.Denotes b φ) : a = b :=
  hs.canonicalUpTo (max a.index b.index) a b φ (by omega) (by omega) ha hb

/-- An edge starts after all variables that its function ignores. -/
theorem Denotes.under (he : s.Denotes e φ) (hs : s.Reduced)
    (hi : ∀ u, 0 < u → u ≤ v → Ignores φ u) :
    s.Under v e := by
  cases ht : e.isTerminal with
  | true => exact Or.inl ht
  | false =>
    obtain ⟨n, hn, hf⟩ := hs.get? he.has ht
    refine Or.inr ⟨n, hn, Nat.lt_of_not_le fun hv => ?_⟩
    exact (hs.canonicalUpTo e.index).not_ignores hs (by omega) he ht hn (hi _ hf.var_pos hv)

end Stimulus.Diagram.Store

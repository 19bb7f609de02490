import Mathlib.Data.Set.Card
import Stimulus.Proofs.Diagram.Canonicity
import Stimulus.Proofs.Diagram.Reach
import Stimulus.Proofs.Diagram.Subfunctions

/-!
# Sizes of diagrams

In an ordered store (`Store.Ordered`) every edge leads to the terminal or to a later variable. Such
a store may keep a node twice, keep nodes that test nothing and complement any edge. Walking down
from an edge under an assignment, as long as the variables are among the first ones, leads to the
function with these variables fixed (`Ordered.exists_fixed`). So every subfunction has an index in
each closed set around the edge, and there are as many indexes as subfunctions at least
(`Ordered.encard_subfunctions_le`).

In a reduced store every index below an edge is that of a subfunction, and two indexes never belong
to the same one. So the size of the diagram is the number of subfunctions
(`Reduced.encard_subfunctions`), whatever else the store holds.
-/

set_option autoImplicit false

namespace Stimulus.Diagram.Store

variable {s t : Store} {e f : Edge} {n : Node} {k v : Nat} {φ ψ : Assignment → Bool}
  {ρ σ : Assignment} {S : Set Nat}

/-! ## Ordered stores -/

/-- Both children of every node are edges of the store that start after its variable. -/
structure Ordered (s : Store) : Prop where
  /-- Variables count from one. -/
  var_pos : ∀ i n, 2 ≤ i → s.nodes[i]? = some n → 0 < n.var
  /-- The children belong to the store. -/
  has : ∀ i n, 2 ≤ i → s.nodes[i]? = some n → ∀ b, s.Has (n.side b)
  /-- The children start after the variable. -/
  under : ∀ i n, 2 ≤ i → s.nodes[i]? = some n → ∀ b, s.Under n.var (n.side b)

theorem Reduced.ordered (hs : s.Reduced) : s.Ordered where
  var_pos i n hi hn := (hs.form i n hi hn).var_pos
  has i n hi hn b := by
    have hlt : i < s.nodes.size := (Array.getElem?_eq_some_iff.1 hn).1
    have hf := hs.form i n hi hn
    cases b
    · exact ⟨hf.low_older.1, Nat.lt_trans hf.low_older.2 hlt⟩
    · exact ⟨hf.high_older.1, Nat.lt_trans hf.high_older.2 hlt⟩
  under i n hi hn := (hs.form i n hi hn).side_under

/-- A walk does not look at variables before those of the nodes. -/
theorem Ordered.follow_congr (hs : s.Ordered) (hρσ : ∀ u, v < u → ρ u = σ u) :
    ∀ (k : Nat) (e : Edge), s.Has e → s.Under v e → s.follow ρ k e = s.follow σ k e := by
  intro k
  induction k with
  | zero => exact fun _ _ _ => rfl
  | succ k ih =>
    intro e he hu
    cases ht : e.isTerminal with
    | true => rw [follow_of_isTerminal s ρ _ ht, follow_of_isTerminal s σ _ ht]
    | false =>
      obtain ht' | ⟨n, hn, hv⟩ := hu
      · rw [ht] at ht'
        cases ht'
      have hi := he.two_le ht
      have hside := hs.has _ n hi hn (σ n.var)
      rw [follow_of_node ρ ht hn (hs.has _ n hi hn _), follow_of_node σ ht hn hside, hρσ _ hv]
      refine ih _ (hside.along e) ?_
      -- the side starts after a variable that comes after `v`
      rcases hs.under _ n hi hn (σ n.var) with hside | ⟨m, hm, hlt⟩
      · exact Under.along (Or.inl hside) e
      · exact Under.along (Or.inr ⟨m, hm, Nat.lt_trans hv hlt⟩) e

/-- Complementing an edge complements its walks. -/
theorem Ordered.follow_neg (hs : s.Ordered) (ρ : Assignment) : ∀ (k : Nat) (e : Edge), s.Has e →
    s.follow ρ k (-e) = (s.follow ρ k e).map not := by
  have hterminal : ∀ (k : Nat) (e : Edge), e.isTerminal = true →
      s.follow ρ k (-e) = (s.follow ρ k e).map not := by
    intro k e ht
    rw [follow_of_isTerminal s ρ k ht,
      follow_of_isTerminal s ρ k ((Edge.isTerminal_neg e).trans ht)]
    rcases (Edge.isTerminal_iff e).1 ht with rfl | rfl <;> rfl
  intro k
  induction k with
  | zero =>
    intro e _
    cases ht : e.isTerminal with
    | true => exact hterminal 0 e ht
    | false => simp [follow, Edge.isTerminal_neg, ht, Except.map]
  | succ k ih =>
    intro e he
    cases ht : e.isTerminal with
    | true => exact hterminal (k + 1) e ht
    | false =>
      obtain ⟨n, hn⟩ := he.get?
      have hside := hs.has _ n (he.two_le ht) hn (ρ n.var)
      rw [follow_of_node ρ ht hn hside, follow_of_node (e := -e) ρ
        ((Edge.isTerminal_neg e).trans ht) (by rwa [Edge.index_neg]) hside, Edge.along_neg he.1]
      exact ih _ (hside.along e)

/-- Walks that read no variable up to `k` are the same after these are fixed. -/
theorem Ordered.follow_fixed (hs : s.Ordered) {fuel : Nat} (he : s.Has e) (hu : s.Under k e)
    (hφ : ∀ ρ, s.follow ρ fuel e = .ok (φ ρ)) (σ ρ : Assignment) :
    s.follow ρ fuel e = .ok (fixed φ k σ ρ) := by
  have hsame : s.follow (σ.upTo k ρ) fuel e = s.follow ρ fuel e :=
    hs.follow_congr (fun u hku => if_neg (by omega)) fuel e he hu
  exact hsame.symm.trans (hφ _)

/-- Walks from a side of a node, where the variable of the node is fixed. -/
theorem Ordered.follow_side (hs : s.Ordered) {fuel : Nat} (he : s.Has e)
    (ht : e.isTerminal = false) (hn : s.nodes[e.index]? = some n)
    (hφ : ∀ ρ, s.follow ρ (fuel + 1) e = .ok (φ ρ)) (b : Bool) (ρ : Assignment) :
    s.follow ρ fuel (e.along (n.side b)) = .ok (sideOf φ n.var b ρ) := by
  have hi := he.two_le ht
  have hside := hs.has _ n hi hn b
  have hset : ρ.set n.var b n.var = b := ρ.set_self _ _
  -- the side does not read the variable, so the walk may start at the node
  rw [hs.follow_congr (σ := ρ.set n.var b)
    (fun u hu => (ρ.set_of_ne _ (Nat.ne_of_gt hu)).symm) fuel _ (hside.along e)
    ((hs.under _ n hi hn _).along e)]
  have hnode := follow_of_node (k := fuel) (ρ.set n.var b) ht hn (by rw [hset]; exact hside)
  rw [hset] at hnode
  exact hnode.symm.trans (hφ _)

/-- **Fixing the first variables of a function leads to an edge below.** -/
theorem Ordered.exists_fixed (hs : s.Ordered) (hS : s.Closed S) (k : Nat) (σ : Assignment) :
    ∀ (fuel : Nat) (e : Edge) (φ : Assignment → Bool), s.Has e → e.index ∈ S →
      (∀ ρ, s.follow ρ fuel e = .ok (φ ρ)) →
      ∃ f, s.Has f ∧ f.index ∈ S ∧ ∀ ρ, s.follow ρ fuel f = .ok (fixed φ k σ ρ) := by
  intro fuel
  induction fuel with
  | zero =>
    intro e φ he hmem hφ
    cases ht : e.isTerminal with
    | true => exact ⟨e, he, hmem, hs.follow_fixed he (Or.inl ht) hφ σ⟩
    | false =>
      have hendless := hφ σ
      simp [follow, ht] at hendless
  | succ fuel ih =>
    intro e φ he hmem hφ
    cases ht : e.isTerminal with
    | true => exact ⟨e, he, hmem, hs.follow_fixed he (Or.inl ht) hφ σ⟩
    | false =>
      obtain ⟨n, hn⟩ := he.get?
      have hi := he.two_le ht
      by_cases hk : n.var ≤ k
      · -- the variable is fixed, so the walk takes one side
        have hmem' : (e.along (n.side (σ n.var))).index ∈ S := by
          rw [Edge.index_along]
          exact hS _ hmem (by omega) n hn _
        obtain ⟨f, hf, hfS, hfixed⟩ := ih _ _ ((hs.has _ n hi hn _).along e) hmem'
          (hs.follow_side he ht hn hφ (σ n.var))
        refine ⟨f, hf, hfS, fun ρ => ?_⟩
        refine follow_mono s ρ fuel f _ (fuel + 1) (hfixed ρ |>.trans ?_) (Nat.le_succ fuel)
        refine congrArg (fun σ' => Except.ok (φ σ')) ?_
        exact Assignment.upTo_set σ ρ (hs.var_pos _ n hi hn) hk
      · exact ⟨e, he, hmem, hs.follow_fixed he (Or.inr ⟨n, hn, Nat.lt_of_not_le hk⟩) hφ σ⟩

/-! ## Functions of indexes -/

/-- The function of the edge to an index that is not complemented. -/
def functionAt (s : Store) (i : Nat) : Assignment → Bool :=
  fun ρ => (s.evaluate (.ofIndex i) ρ).toOption.getD false

theorem functionAt_eq (hφ : ∀ ρ, s.evaluate (.ofIndex k) ρ = .ok (φ ρ)) : s.functionAt k = φ := by
  funext ρ
  unfold functionAt
  rw [hφ ρ]
  rfl

/-- An edge has the function of its index in one of the two polarities. -/
theorem Ordered.polarities_functionAt (hs : s.Ordered) (he : s.Has e)
    (hφ : ∀ ρ, s.evaluate e ρ = .ok (φ ρ)) : polarities (s.functionAt e.index) = polarities φ := by
  rcases Edge.eq_or_eq_neg_of_index (Edge.index_ofIndex e.index) with heq | heq
  · rw [functionAt_eq fun ρ => heq ▸ hφ ρ]
  · have hnot : s.functionAt e.index = fun ρ => !φ ρ := by
      refine functionAt_eq fun ρ => ?_
      rw [heq]
      exact (hs.follow_neg ρ s.nodes.size e he).trans (congrArg (Except.map not) (hφ ρ))
    rw [hnot, polarities_not]

/-- Every subfunction of an edge is the function of an index in each closed set around it. -/
theorem Ordered.subfunctions_subset (hs : s.Ordered) (he : s.Has e)
    (hφ : ∀ ρ, s.evaluate e ρ = .ok (φ ρ)) (hmem : e.index ∈ S) (hS : s.Closed S) :
    subfunctions φ ⊆ (fun i => polarities (s.functionAt i)) '' S := by
  rintro _ ⟨k, σ, rfl⟩
  obtain ⟨f, hf, hfS, hfixed⟩ := hs.exists_fixed hS k σ s.nodes.size e φ he hmem hφ
  exact ⟨f.index, hfS, hs.polarities_functionAt hf hfixed⟩

/-- **No ordered diagram of a function has fewer nodes than the function has subfunctions.** -/
theorem Ordered.encard_subfunctions_le (hs : s.Ordered) (he : s.Has e)
    (hφ : ∀ ρ, s.evaluate e ρ = .ok (φ ρ)) (hmem : e.index ∈ S) (hS : s.Closed S) :
    (subfunctions φ).encard ≤ S.encard :=
  (Set.encard_le_encard (hs.subfunctions_subset he hφ hmem hS)).trans (Set.encard_image_le _ S)

/-- A store has a node for every subfunction of an edge. -/
theorem Ordered.encard_subfunctions_le_size (hs : s.Ordered) (he : s.Has e)
    (hφ : ∀ ρ, s.evaluate e ρ = .ok (φ ρ)) : (subfunctions φ).encard ≤ s.nodes.size := by
  have hclosed : s.Closed {i | i < s.nodes.size ∧ i ≠ 0} := by
    rintro i ⟨-, hi⟩ hi1 n hn b
    have hside := hs.has i n (by omega) hn b
    exact ⟨hside.2, Nat.ne_of_gt hside.1⟩
  have hmem : e.index ∈ {i | i < s.nodes.size ∧ i ≠ 0} := ⟨he.2, Nat.ne_of_gt he.1⟩
  calc (subfunctions φ).encard ≤ {i | i < s.nodes.size ∧ i ≠ 0}.encard :=
        hs.encard_subfunctions_le he hφ hmem hclosed
    _ ≤ {i | i < s.nodes.size}.encard := Set.encard_le_encard fun i hi => hi.1
    _ = s.nodes.size := Set.Nat.encard_range _

/-! ## Reduced stores -/

theorem Reduced.denotes_functionAt (hs : s.Reduced) (he : s.Has (.ofIndex k)) :
    s.Denotes (.ofIndex k) (s.functionAt k) := by
  obtain ⟨φ, hφ⟩ := hs.denotes he
  rwa [functionAt_eq hφ.evaluate]

theorem Denotes.from (he : s.Denotes e φ) (hs : s.Reduced) (hu : s.Under v e) :
    From (v + 1) φ := by
  intro ρ σ hρσ
  have heq : s.evaluate e ρ = s.evaluate e σ :=
    hs.ordered.follow_congr (v := v) hρσ _ e he.has hu
  rw [he.evaluate, he.evaluate] at heq
  exact Except.ok.inj heq

/-- The function of a node starts at the variable of the node. -/
theorem Denotes.from_var (he : s.Denotes e φ) (hs : s.Reduced) (hn : s.nodes[e.index]? = some n)
    (hpos : 0 < n.var) : From n.var φ := by
  have hfrom := he.from hs (v := n.var - 1) (Or.inr ⟨n, hn, by omega⟩)
  rwa [Nat.sub_add_cancel hpos] at hfrom

/-- The indexes of subfunctions are closed. -/
theorem Reduced.closed_subfunctions (hs : s.Reduced) (φ : Assignment → Bool) :
    s.Closed {i | s.Has (.ofIndex i) ∧ polarities (s.functionAt i) ∈ subfunctions φ} := by
  rintro i ⟨hi, hmem⟩ hi1 n hn b
  have ht : (Edge.ofIndex i).isTerminal = false := by
    rw [← Bool.not_eq_true, Edge.isTerminal_iff_index]
    exact hi1
  have hdenotes := hs.denotes_functionAt hi
  have hf := hs.form i n (hi.two_le ht) hn
  have hside := hdenotes.side hs ht hn b
  have hfrom := hdenotes.from_var hs hn hf.var_pos
  refine ⟨hf.has_side hi b, ?_⟩
  have heq := hs.ordered.polarities_functionAt hside.has hside.evaluate
  rw [Edge.index_along] at heq
  rw [heq]
  exact subfunctions_subset hmem (hfrom.sideOf_mem hf.var_pos b)

/-- Two indexes never have functions with the same polarities. -/
theorem Reduced.polarities_functionAt_injOn (hs : s.Reduced) :
    Set.InjOn (fun i => polarities (s.functionAt i)) {i | s.Has (.ofIndex i)} := by
  intro i hi j hj heq
  have hdi := hs.denotes_functionAt hi
  have hdj := hs.denotes_functionAt hj
  rcases polarities_eq_iff.1 heq with hsame | hnot
  · exact congrArg Edge.index (hs.canonical hdi (hsame ▸ hdj))
  · have hneg : Edge.ofIndex i = -Edge.ofIndex j := hs.canonical hdi (hnot ▸ hdj.neg hs)
    have hindex := congrArg Edge.index hneg
    rwa [Edge.index_neg] at hindex

/-- **The least closed set around an edge has an index for every subfunction.** -/
theorem Reduced.encard_subfunctions (hs : s.Reduced) (he : s.Denotes e φ)
    (hS : IsLeast {S : Set Nat | e.index ∈ S ∧ s.Closed S} S) :
    (subfunctions φ).encard = S.encard := by
  obtain ⟨⟨hmem, hclosed⟩, hleast⟩ := hS
  have hself : polarities (s.functionAt e.index) ∈ subfunctions φ :=
    (hs.ordered.polarities_functionAt he.has he.evaluate).symm ▸ mem_subfunctions_self φ
  have hbelow : S ⊆ {i | s.Has (.ofIndex i) ∧ polarities (s.functionAt i) ∈ subfunctions φ} :=
    hleast ⟨⟨he.has, hself⟩, hs.closed_subfunctions φ⟩
  have himage : subfunctions φ = (fun i => polarities (s.functionAt i)) '' S := by
    refine Set.Subset.antisymm
      (hs.ordered.subfunctions_subset he.has he.evaluate hmem hclosed) ?_
    rintro _ ⟨i, hi, rfl⟩
    exact (hbelow hi).2
  rw [himage]
  exact (hs.polarities_functionAt_injOn.mono fun i hi => (hbelow hi).1).encard_image

/-- The size of a diagram is the number of subfunctions. -/
theorem Reduced.diagramSize_eq (hs : s.Reduced) (he : s.Denotes e φ) :
    ∃ size : Nat, s.diagramSize e = .ok size ∧ (subfunctions φ).encard = size := by
  obtain ⟨S, hr, hS⟩ := hs.diagramSize_eq_card he.has
  refine ⟨S.card, hr, ?_⟩
  rw [hs.encard_subfunctions he hS, Set.encard_coe_eq_coe_finsetCard]

end Stimulus.Diagram.Store

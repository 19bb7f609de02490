import Mathlib.Algebra.BigOperators.Group.Finset.Basic
import Mathlib.Algebra.BigOperators.Ring.Finset
import Mathlib.Data.Fintype.BigOperators
import Stimulus.Diagram.Count
import Stimulus.Proofs.Diagram.Canonicity

/-!
# Counting is right

`models n φ` is the number of assignments to the variables `1, …, n` that satisfy a
function. Fixing a variable splits the assignments in halves (`models_split`). The
count of an edge starts at its top variable, so it is the number of models but for
a power of two, one factor for each earlier variable (`Store.Counted`). Counting
keeps this true of all counts it remembers (`Store.Reduced.countWithin_spec`), and
the count over the variables after one that lies before the edge is right
(`Store.Reduced.countAfter_spec`).
-/

set_option autoImplicit false

namespace Stimulus.Diagram

variable {n v : Nat} {φ ψ : Assignment → Bool}

/-! ## Assignments to the first variables -/

/-- The assignment with given values for the variables `1, …, n`. All others are false. -/
def assign (values : Fin n → Bool) : Assignment := fun v =>
  if h : 0 < v ∧ v ≤ n then values ⟨v - 1, by omega⟩ else false

theorem assign_apply (values : Fin n → Bool) (hv : 0 < v) (hvn : v ≤ n) :
    assign values v = values ⟨v - 1, by omega⟩ :=
  dif_pos ⟨hv, hvn⟩

/-- The values with another one for the variable `v`. -/
def put (values : Fin n → Bool) (v : Nat) (b : Bool) : Fin n → Bool := fun i =>
  if i + 1 = v then b else values i

theorem assign_put (values : Fin n → Bool) (hv : 0 < v) (hvn : v ≤ n) (b : Bool) :
    assign (put values v b) = (assign values).set v b := by
  funext u
  by_cases huv : u = v
  · subst huv
    rw [assign_apply _ hv hvn, Assignment.set_self]
    exact if_pos (Nat.sub_add_cancel hv)
  · rw [Assignment.set_of_ne _ _ huv]
    by_cases hu : 0 < u ∧ u ≤ n
    · rw [assign_apply _ hu.1 hu.2, assign_apply _ hu.1 hu.2]
      exact if_neg (by show u - 1 + 1 ≠ v; omega)
    · unfold assign
      rw [dif_neg hu, dif_neg hu]

theorem put_eq_update (values : Fin n → Bool) (hv : 0 < v) (hvn : v ≤ n) (b : Bool) :
    put values v b = Function.update values ⟨v - 1, by omega⟩ b := by
  funext i
  unfold put
  by_cases hi : i = ⟨v - 1, by omega⟩
  · subst hi
    rw [Function.update_self, if_pos (Nat.sub_add_cancel hv)]
  · rw [Function.update_of_ne hi, if_neg]
    rw [Fin.ext_iff] at hi
    have hi' : i.val ≠ v - 1 := hi
    omega

/-- The values of an assignment for the variables `1, …, n`. -/
def Assignment.values (ρ : Assignment) (n : Nat) : Fin n → Bool := fun i => ρ (i + 1)

theorem assign_values (ρ : Assignment) (hv : 0 < v) (hvn : v ≤ n) :
    assign (ρ.values n) v = ρ v := by
  rw [assign_apply _ hv hvn]
  show ρ (v - 1 + 1) = ρ v
  rw [Nat.sub_add_cancel hv]

/-- The function depends on the variables `1, …, n` only. -/
def Within (n : Nat) (φ : Assignment → Bool) : Prop :=
  ∀ ρ σ : Assignment, (∀ v, 0 < v → v ≤ n → ρ v = σ v) → φ ρ = φ σ

theorem Within.fix (h : Within n φ) (v : Nat) (b : Bool) : Within n fun ρ => φ (ρ.set v b) := by
  intro ρ σ hρσ
  refine h _ _ fun u hu hun => ?_
  unfold Assignment.set
  rw [hρσ u hu hun]

theorem Within.ignores (h : Within n φ) (hv : n < v) : Store.Ignores φ v := by
  intro ρ b
  refine h _ _ fun u _ hun => Assignment.set_of_ne ρ b ?_
  omega

theorem Within.assign_values (h : Within n φ) (ρ : Assignment) : φ (assign (ρ.values n)) = φ ρ :=
  h _ _ fun _ hv hvn => Diagram.assign_values ρ hv hvn

/-! ## Numbers of models -/

/-- Both values of one variable together give all assignments, each of them twice. -/
theorem sum_put {M : Type} [AddCommMonoid M] (F : (Fin n → Bool) → M) (hv : 0 < v) (hvn : v ≤ n) :
    ∑ values, F (put values v false) + ∑ values, F (put values v true) =
      ∑ values, F values + ∑ values, F values := by
  have hself : ∀ values : Fin n → Bool, put values v (values ⟨v - 1, by omega⟩) = values :=
    fun values => by rw [put_eq_update values hv hvn, Function.update_eq_self]
  -- turning the value of `v` around only reorders the summands
  have hflip : Function.Involutive fun values : Fin n → Bool =>
      put values v (!values ⟨v - 1, by omega⟩) := by
    intro values
    simp [put_eq_update _ hv hvn]
  have hsum : ∑ values : Fin n → Bool, F (put values v (!values ⟨v - 1, by omega⟩)) =
      ∑ values, F values := Equiv.sum_comp hflip.toPerm F
  nth_rewrite 2 [← hsum]
  rw [← Finset.sum_add_distrib, ← Finset.sum_add_distrib]
  refine Finset.sum_congr rfl fun values _ => ?_
  have hvalues := hself values
  -- one of the two values is the one that was there, the other one is turned
  cases hu : values ⟨v - 1, by omega⟩ with
  | false =>
    rw [hu] at hvalues
    rw [hvalues, Bool.not_false]
  | true =>
    rw [hu] at hvalues
    rw [hvalues, Bool.not_true, add_comm]

/-- The number of assignments to the variables `1, …, n` that satisfy a function. -/
def models (n : Nat) (φ : Assignment → Bool) : Nat :=
  ∑ values : Fin n → Bool, (φ (assign values)).toNat

theorem models_one (n : Nat) : models n (fun _ => true) = 2 ^ n := by
  unfold models
  simp

theorem models_zero (n : Nat) : models n (fun _ => false) = 0 := by
  unfold models
  simp

/-- Fixing a variable splits the models. -/
theorem models_split (φ : Assignment → Bool) (hv : 0 < v) (hvn : v ≤ n) :
    models n (fun ρ => φ (ρ.set v false)) + models n (fun ρ => φ (ρ.set v true)) =
      2 * models n φ := by
  have h := sum_put (fun values : Fin n → Bool => (φ (assign values)).toNat) hv hvn
  simp only [assign_put _ hv hvn] at h
  rw [two_mul]
  exact h

/-- A function without models is false. -/
theorem Within.eq_false (h : Within n φ) (hzero : models n φ = 0) (ρ : Assignment) :
    φ ρ = false := by
  -- a sum of naturals is zero only if each summand is
  have hterm := Finset.sum_eq_zero_iff.1 hzero (ρ.values n) (Finset.mem_univ _)
  rw [h.assign_values] at hterm
  cases hρ : φ ρ with
  | false => rfl
  | true =>
    rw [hρ] at hterm
    cases hterm

theorem Within.models_eq_zero_iff (h : Within n φ) : models n φ = 0 ↔ ∀ ρ, φ ρ = false := by
  constructor
  · exact h.eq_false
  · intro hfalse
    rw [funext hfalse, models_zero]

namespace Store

variable {s : Store} {e : Edge} {node : Node} {known : Counts} {c d fuel : Nat}

/-! ## Counts of edges -/

/-- The edge has this count over its top variable and the later ones. -/
def Counted (s : Store) (n : Nat) (e : Edge) (φ : Assignment → Bool) (c : Nat) : Prop :=
  ∃ d, s.depth n e = .ok d ∧ c * 2 ^ (d - 1) = models n φ

/-- All remembered counts are right. -/
def Knows (s : Store) (n : Nat) (known : Counts) : Prop :=
  ∀ e φ c, s.Denotes e φ → Within n φ → known[e.code]? = some c → s.Counted n e φ c

theorem knows_empty (s : Store) (n : Nat) : s.Knows n ∅ := by
  intro e φ c _ _ h
  rw [Std.TreeMap.getElem?_emptyc] at h
  cases h

theorem Knows.insert (h : s.Knows n known) (he : s.Denotes e φ) (hc : s.Counted n e φ c) :
    s.Knows n (known.insert e.code c) := by
  intro f ψ c' hf hψ hget
  rw [Std.TreeMap.getElem?_insert] at hget
  split at hget
  · rename_i hcode
    -- the entry just made; its count is right for every function of the same edge
    obtain rfl : e = f := Edge.ext_code (Std.LawfulEqOrd.eq_of_compare hcode)
    obtain rfl : c = c' := Option.some.inj hget
    rwa [hf.unique he]
  · exact h f ψ c' hf hψ hget

theorem depth_of_isTerminal (hn : n < lastVariable) (ht : e.isTerminal = true) :
    s.depth n e = .ok (n + 1) := by
  unfold depth
  rw [if_pos ht, if_pos hn]

theorem depth_of_node (ht : e.isTerminal = false) (hnode : s.nodes[e.index]? = some node) :
    s.depth n e = .ok node.var := by
  unfold depth var
  rw [ht, node_of_get? hnode]
  rfl

/-- The count that is found without a look at the nodes. -/
theorem Knows.get? (h : s.Knows n known) (hs : s.Reduced) (hn : n < lastVariable)
    (he : s.Denotes e φ) (hφ : Within n φ) (hget : known.get? e = some c) :
    s.Counted n e φ c := by
  unfold Counts.get? at hget
  by_cases hzero : e = .zero
  · rw [if_pos hzero] at hget
    cases hget
    subst hzero
    refine ⟨n + 1, depth_of_isTerminal hn rfl, ?_⟩
    rw [he.unique (denotes_zero hs), models_zero, Nat.zero_mul]
  · rw [if_neg hzero] at hget
    by_cases hone : e = .one
    · rw [if_pos hone] at hget
      cases hget
      subst hone
      refine ⟨n + 1, depth_of_isTerminal hn rfl, ?_⟩
      rw [he.unique (denotes_one hs), models_one, Nat.one_mul, Nat.add_sub_cancel]
    · rw [if_neg hone] at hget
      exact h e φ c he hφ hget

/-- Edges that are not known lead to nodes. -/
theorem isTerminal_of_get?_eq_none (h : known.get? e = none) : e.isTerminal = false := by
  unfold Counts.get? at h
  by_cases hzero : e = .zero
  · rw [if_pos hzero] at h
    cases h
  · rw [if_neg hzero] at h
    by_cases hone : e = .one
    · rw [if_pos hone] at h
      cases h
    · rw [← Bool.not_eq_true, Edge.isTerminal_iff]
      rintro (h' | h')
      · exact hzero h'
      · exact hone h'

/-- A function of the first variables has no node on a later one. -/
theorem Denotes.var_le (he : s.Denotes e φ) (hs : s.Reduced) (hφ : Within n φ)
    (ht : e.isTerminal = false) (hnode : s.nodes[e.index]? = some node) : node.var ≤ n := by
  -- else the function would ignore the variable of its own top node
  refine Nat.le_of_not_lt fun hlt => ?_
  exact (hs.canonicalUpTo e.index).not_ignores hs (Nat.le_succ _) he ht hnode (hφ.ignores hlt)

/-- The count over the variables after `v` of an edge that starts later. -/
theorem Counted.below (hc : s.Counted n e φ c) (hu : s.Under v e) (hvn : v ≤ n) :
    ∃ w, s.below n v e c = .ok w ∧ w * 2 ^ v = models n φ := by
  obtain ⟨d, hd, hcount⟩ := hc
  -- the shift is not negative, as the edge starts after `v`
  have hvd : v + 1 ≤ d := by
    unfold depth at hd
    split at hd
    · split at hd
      · cases hd
        omega
      · cases hd
    · rename_i ht
      rcases hu with ht' | ⟨node, hnode, hv⟩
      · exact absurd ht' ht
      · unfold var at hd
        rw [node_of_get? hnode] at hd
        cases hd
        exact hv
  refine ⟨c <<< (d - (v + 1)), ?_, ?_⟩
  · unfold Store.below
    rw [hd]
    show (if d < v + 1 then throw Fault.uncounted else pure _) = _
    rw [if_neg (Nat.not_lt.2 hvd)]
    rfl
  · rw [Nat.shiftLeft_eq, Nat.mul_assoc, ← Nat.pow_add, ← hcount]
    congr 2
    omega

/-- The counts of both sides add up to the count of the node. -/
theorem counted_of_sides (ht : e.isTerminal = false) (hnode : s.nodes[e.index]? = some node)
    (hv : 0 < node.var) (hvn : node.var ≤ n) {lows highs : Nat}
    (hlows : lows * 2 ^ node.var = models n fun ρ => φ (ρ.set node.var false))
    (hhighs : highs * 2 ^ node.var = models n fun ρ => φ (ρ.set node.var true)) :
    s.Counted n e φ (lows + highs) := by
  refine ⟨node.var, depth_of_node ht hnode, ?_⟩
  -- both sides have the factor of the variables up to `v`, one more than the node has
  have hsplit := models_split φ hv hvn
  rw [← hlows, ← hhighs, ← Nat.add_mul] at hsplit
  obtain ⟨u, hu⟩ : ∃ u, node.var = u + 1 := ⟨node.var - 1, by omega⟩
  rw [hu, Nat.pow_succ', Nat.mul_left_comm] at hsplit
  rw [hu, Nat.add_sub_cancel]
  exact Nat.eq_of_mul_eq_mul_left Nat.two_pos hsplit

/-! ## Counting -/

theorem counting_ask {α β : Type} {y : Except Fault α} {a : α} (hy : y = .ok a)
    (k : α → Counting β) : ((liftM y : Counting α) >>= k) known = k a known := by
  subst hy
  rfl

theorem counting_bind {α β : Type} {x : Counting α} {a : α} {known' : Counts}
    (hx : x known = .ok (a, known')) (k : α → Counting β) : (x >>= k) known = k a known' := by
  show (x known >>= fun p => k p.1 p.2) = _
  rw [hx]
  rfl

theorem countWithin_of_known (h : known.get? e = some c) :
    s.countWithin n fuel e known = .ok (c, known) := by
  have hget : (get : Counting Counts) known = .ok (known, known) := rfl
  cases fuel with
  | zero =>
    unfold countWithin
    rw [counting_bind hget, h]
    rfl
  | succ fuel =>
    unfold countWithin
    rw [counting_bind hget, h]
    rfl

/-- The count of a node is the sum of those of its sides. -/
theorem countWithin_of_sides (h : known.get? e = none) (he : s.Has e)
    (hnode : s.nodes[e.index]? = some node) (hform : s.NodeForm e.index node)
    {known₁ known₂ : Counts} {lows highs c₀ c₁ : Nat}
    (hlow : s.countWithin n fuel (e.along node.low) known = .ok (c₀, known₁))
    (hlows : s.below n node.var (e.along node.low) c₀ = .ok lows)
    (hhigh : s.countWithin n fuel (e.along node.high) known₁ = .ok (c₁, known₂))
    (hhighs : s.below n node.var (e.along node.high) c₁ = .ok highs) :
    s.countWithin n (fuel + 1) e known =
      .ok (lows + highs, known₂.insert e.code (lows + highs)) := by
  unfold countWithin
  have hget : (get : Counting Counts) known = .ok (known, known) := rfl
  rw [counting_bind hget, h]
  dsimp only
  rw [counting_ask (node_of_get? hnode), counting_ask (through_of_has (hform.has_low he) e),
    counting_ask (through_of_has (hform.has_high he) e), counting_bind hlow, counting_ask hlows,
    counting_bind hhigh, counting_ask hhighs]
  rfl

/-- **Counting gives the right count and remembers right counts.** -/
theorem Reduced.countWithin_spec (hs : s.Reduced) (hn : n < lastVariable) :
    ∀ (fuel : Nat) (e : Edge) (φ : Assignment → Bool) (known : Counts), e.index ≤ fuel →
      s.Denotes e φ → Within n φ → s.Knows n known →
      ∃ c known', s.countWithin n fuel e known = .ok (c, known') ∧ s.Knows n known' ∧
        s.Counted n e φ c := by
  intro fuel
  induction fuel with
  | zero =>
    intro e φ known hi he
    -- no edge has the index `0`
    exact absurd he.has.1 (by omega)
  | succ fuel ih =>
    intro e φ known hi he hφ hknown
    cases hget : known.get? e with
    | some c =>
      exact ⟨c, known, countWithin_of_known hget, hknown, hknown.get? hs hn he hφ hget⟩
    | none =>
      have ht := isTerminal_of_get?_eq_none hget
      obtain ⟨node, hnode, hform⟩ := hs.get? he.has ht
      have hvn := he.var_le hs hφ ht hnode
      -- a side is older than the node, so the fuel lasts
      have hside : ∀ b known, s.Knows n known → ∃ c known' w,
          s.countWithin n fuel (e.along (node.side b)) known = .ok (c, known') ∧
          s.Knows n known' ∧ s.below n node.var (e.along (node.side b)) c = .ok w ∧
          w * 2 ^ node.var = models n fun ρ => φ (ρ.set node.var b) := by
        intro b known hknown
        have hlt := hform.side_lt b
        obtain ⟨c, known', hr, hknown', hc⟩ := ih (e.along (node.side b)) _ known
          (by rw [Edge.index_along]; omega) (he.side hs ht hnode b) (hφ.fix node.var b) hknown
        obtain ⟨w, hw, hmodels⟩ := hc.below ((hform.side_under b).along e) hvn
        exact ⟨c, known', w, hr, hknown', hw, hmodels⟩
      -- the counts that the low side leaves behind are those the high side starts from
      obtain ⟨c₀, known₁, lows, hr₀, hknown₁, hlows, hmodels₀⟩ := hside false known hknown
      obtain ⟨c₁, known₂, highs, hr₁, hknown₂, hhighs, hmodels₁⟩ := hside true known₁ hknown₁
      have hc := counted_of_sides ht hnode hform.var_pos hvn hmodels₀ hmodels₁
      exact ⟨_, _, countWithin_of_sides hget he.has hnode hform hr₀ hlows hr₁ hhighs,
        hknown₂.insert he hc, hc⟩

/-- **The count over the variables after `v` is the number of models but for the factor that the
variables up to `v` contribute.** -/
theorem Reduced.countAfter_spec (hs : s.Reduced) (hn : n < lastVariable) (he : s.Denotes e φ)
    (hφ : Within n φ) (hu : s.Under v e) (hvn : v ≤ n) (hknown : s.Knows n known) :
    ∃ w known', s.countAfter n v e known = .ok (w, known') ∧ s.Knows n known' ∧
      w * 2 ^ v = models n φ := by
  obtain ⟨c, known', hr, hknown', hc⟩ :=
    hs.countWithin_spec hn s.nodes.size e φ known (Nat.le_of_lt he.has.2) he hφ hknown
  obtain ⟨w, hw, hmodels⟩ := hc.below hu hvn
  refine ⟨w, known', ?_, hknown', hmodels⟩
  unfold countAfter
  rw [counting_bind hr]
  show (s.below n v e c >>= fun w => pure (w, known')) = _
  rw [hw]
  rfl

/-- The count over all variables is the one over those after none. -/
theorem count_of_countAfter (h : s.countAfter n 0 e ∅ = .ok (c, known)) : s.count e n = .ok c := by
  show Prod.fst <$> s.countAfter n 0 e ∅ = _
  rw [h]
  rfl

end Store

end Stimulus.Diagram

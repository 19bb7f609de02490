import Stimulus.Diagram.Evaluation

/-!
# Reduced stores

A store is reduced (`Store.Reduced`) if every node tests something, keeps its
high edge free of complements, leads to older nodes and comes before them in the
order of variables, and if the table of nodes holds exactly the nodes that are
stored. A walk through a reduced store goes to smaller and smaller indexes, so
it ends within as many steps as the index of its first edge
(`Store.Reduced.follow_ok`).

Stores only grow (`Store.GrowsTo`): a node keeps its index forever, and a walk
that has ended goes the same way later (`Store.GrowsTo.follow_eq`).
-/

set_option autoImplicit false

namespace Stimulus.Diagram

/-! ## Edges -/

namespace Edge

theorem ext_code {a b : Edge} (h : a.code = b.code) : a = b := by
  cases a with
  | mk x =>
    cases b with
    | mk y => exact congrArg Edge.mk h

theorem isTerminal_iff (e : Edge) : e.isTerminal = true ↔ e = zero ∨ e = one := by
  simp [isTerminal]

theorem isTerminal_iff_index (e : Edge) : e.isTerminal = true ↔ e.index = 1 := by
  rw [isTerminal_iff]
  constructor
  · rintro (rfl | rfl) <;> rfl
  · intro h
    have h' : e.code.natAbs = 1 := h
    rcases Int.natAbs_eq e.code with hc | hc
    · exact Or.inr (ext_code (by rw [hc, h']; rfl))
    · exact Or.inl (ext_code (by rw [hc, h']; rfl))

theorem isTerminal_neg (e : Edge) : (-e).isTerminal = e.isTerminal := by
  rw [Bool.eq_iff_iff, isTerminal_iff_index, isTerminal_iff_index, index_neg]

theorem isNegated_iff (e : Edge) : e.isNegated = true ↔ e.code < 0 := by
  simp [isNegated]

@[simp] theorem index_ofIndex (i : Nat) : (ofIndex i).index = i := rfl

@[simp] theorem isNegated_ofIndex (i : Nat) : (ofIndex i).isNegated = false := by
  rw [← Bool.not_eq_true, isNegated_iff]
  exact Int.not_lt.2 (Int.natCast_nonneg i)

theorem isNegated_neg {e : Edge} (h : 1 ≤ e.index) : (-e).isNegated = !e.isNegated := by
  have hne : e.code ≠ 0 := fun h0 => by simp [index, h0] at h
  have hn : (-e).code = -e.code := rfl
  rw [Bool.eq_iff_iff, isNegated_iff, Bool.not_eq_true', ← Bool.not_eq_true, isNegated_iff, hn]
  omega

/-- An edge is determined by its node and its polarity. -/
theorem eq_of_index_of_isNegated {a b : Edge} (hi : a.index = b.index)
    (hn : a.isNegated = b.isNegated) : a = b := by
  apply ext_code
  have hi' : a.code.natAbs = b.code.natAbs := hi
  have hn' : a.code < 0 ↔ b.code < 0 := by
    rw [← isNegated_iff, ← isNegated_iff, hn]
  omega

theorem eq_or_eq_neg_of_index {a b : Edge} (h : a.index = b.index) : a = b ∨ a = -b := by
  have h' : a.code.natAbs = b.code.natAbs := h
  rcases Int.natAbs_eq_natAbs_iff.1 h' with hc | hc
  · exact Or.inl (ext_code hc)
  · exact Or.inr (ext_code hc)

theorem ne_neg {e : Edge} (h : 1 ≤ e.index) : e ≠ -e := by
  intro he
  have hn := isNegated_neg h
  rw [← he] at hn
  cases hb : e.isNegated <;> simp [hb] at hn

theorem neg_inj {a b : Edge} : -a = -b ↔ a = b := by
  constructor
  · intro h
    rw [← neg_neg a, h, neg_neg]
  · rintro rfl
    rfl

/-- The child `c` of a node as it is seen through the edge `e`. -/
def along (e c : Edge) : Edge := if e.isNegated then -c else c

theorem along_of_pos {e : Edge} (h : e.isNegated = false) (c : Edge) : e.along c = c := by
  simp [along, h]

theorem along_neg {e : Edge} (h : 1 ≤ e.index) (c : Edge) : (-e).along c = -(e.along c) := by
  unfold along
  rw [isNegated_neg h]
  cases e.isNegated <;> simp

@[simp] theorem index_along (e c : Edge) : (e.along c).index = c.index := by
  unfold along
  split <;> simp

theorem along_inj {e a b : Edge} : e.along a = e.along b ↔ a = b := by
  unfold along
  split
  · exact neg_inj
  · exact Iff.rfl

end Edge

/-- The side of a node for a value of its variable. -/
def Node.side (n : Node) (b : Bool) : Edge := if b then n.high else n.low

namespace Store

/-! ## Edges of a store -/

/-- Edges to a node of the store, the terminal included. -/
def Has (s : Store) (e : Edge) : Prop := 1 ≤ e.index ∧ e.index < s.nodes.size

/-- Edges whose functions start after the variable `v`. -/
def Under (s : Store) (v : Nat) (e : Edge) : Prop :=
  e.isTerminal = true ∨ ∃ n, s.nodes[e.index]? = some n ∧ v < n.var

variable {s t : Store} {e c : Edge} {n : Node} {v : Nat}

theorem has_neg : s.Has (-e) ↔ s.Has e := by
  simp [Has]

theorem Has.neg (h : s.Has e) : s.Has (-e) := has_neg.2 h

theorem Has.along (h : s.Has c) (e : Edge) : s.Has (e.along c) := by
  simpa [Has] using h

theorem Has.get? (h : s.Has e) : ∃ n, s.nodes[e.index]? = some n :=
  ⟨_, Array.getElem?_eq_getElem h.2⟩

theorem Has.two_le (h : s.Has e) (ht : e.isTerminal = false) : 2 ≤ e.index := by
  have h1 := h.1
  have hne : e.index ≠ 1 := fun h1 => by
    rw [← Edge.isTerminal_iff_index, ht] at h1
    cases h1
  omega

theorem node_of_get? (h : s.nodes[e.index]? = some n) : s.node e = .ok n := by
  simp [node, h]

theorem through_of_has (h : s.Has c) (e : Edge) : s.through e c = .ok (e.along c) := by
  unfold through Edge.along
  split
  · exact complement_of_lt h.2
  · rfl

theorem Under.neg (h : s.Under v e) : s.Under v (-e) := by
  rcases h with h | ⟨n, hn, hv⟩
  · exact Or.inl (by rw [Edge.isTerminal_neg, h])
  · exact Or.inr ⟨n, by rw [Edge.index_neg, hn], hv⟩

theorem Under.along (h : s.Under v c) (e : Edge) : s.Under v (e.along c) := by
  unfold Edge.along
  split
  · exact h.neg
  · exact h

/-! ## The reduced form -/

/-- The form of a stored node at the index `i`. -/
structure NodeForm (s : Store) (i : Nat) (n : Node) : Prop where
  /-- Variables count from one. -/
  var_pos : 0 < n.var
  /-- Variables have 32 bits. -/
  var_le : n.var ≤ lastVariable
  /-- The high edge is not complemented. -/
  high_regular : n.high.isNegated = false
  /-- The node tests its variable. -/
  low_ne_high : n.low ≠ n.high
  /-- The low edge leads to an older node. -/
  low_older : 1 ≤ n.low.index ∧ n.low.index < i
  /-- The high edge leads to an older node. -/
  high_older : 1 ≤ n.high.index ∧ n.high.index < i
  /-- The low side starts after the variable of the node. -/
  low_under : s.Under n.var n.low
  /-- The high side starts after the variable of the node. -/
  high_under : s.Under n.var n.high

/-- Reduced and ordered stores without duplicates, whose table of nodes holds exactly the stored
nodes. -/
structure Reduced (s : Store) : Prop where
  /-- The unused index and the terminal are there. -/
  two_le_size : 2 ≤ s.nodes.size
  /-- All nodes after the terminal have the form of nodes. -/
  form : ∀ i n, 2 ≤ i → s.nodes[i]? = some n → s.NodeForm i n
  /-- The table maps a node to its index, and only stored nodes. -/
  unique_iff : ∀ n i, s.unique[n]? = some i ↔ 2 ≤ i ∧ s.nodes[i]? = some n

theorem Reduced.has_one (h : s.Reduced) : s.Has .one := ⟨Nat.le_refl 1, h.two_le_size⟩

theorem Reduced.has_zero (h : s.Reduced) : s.Has .zero := ⟨Nat.le_refl 1, h.two_le_size⟩

/-- No node is stored twice. -/
theorem Reduced.index_inj (h : s.Reduced) {i j : Nat} (hi : 2 ≤ i) (hj : 2 ≤ j)
    (hn : s.nodes[i]? = some n) (hm : s.nodes[j]? = some n) : i = j := by
  have h1 := (h.unique_iff n i).2 ⟨hi, hn⟩
  have h2 := (h.unique_iff n j).2 ⟨hj, hm⟩
  rw [h1] at h2
  exact Option.some.inj h2

/-- The node behind an edge that is not constant, with its form. -/
theorem Reduced.get? (h : s.Reduced) (he : s.Has e) (ht : e.isTerminal = false) :
    ∃ n, s.nodes[e.index]? = some n ∧ s.NodeForm e.index n := by
  obtain ⟨n, hn⟩ := he.get?
  exact ⟨n, hn, h.form _ n (he.two_le ht) hn⟩

theorem NodeForm.has_low (h : s.NodeForm e.index n) (he : s.Has e) : s.Has n.low :=
  ⟨h.low_older.1, Nat.lt_trans h.low_older.2 he.2⟩

theorem NodeForm.has_high (h : s.NodeForm e.index n) (he : s.Has e) : s.Has n.high :=
  ⟨h.high_older.1, Nat.lt_trans h.high_older.2 he.2⟩

theorem NodeForm.has_side (h : s.NodeForm e.index n) (he : s.Has e) (b : Bool) :
    s.Has (n.side b) := by
  cases b
  · exact h.has_low he
  · exact h.has_high he

theorem NodeForm.side_lt {i : Nat} (h : s.NodeForm i n) (b : Bool) : (n.side b).index < i := by
  cases b
  · exact h.low_older.2
  · exact h.high_older.2

theorem NodeForm.side_under {i : Nat} (h : s.NodeForm i n) (b : Bool) :
    s.Under n.var (n.side b) := by
  cases b
  · exact h.low_under
  · exact h.high_under

/-! ## Walks -/

theorem follow_of_isTerminal (s : Store) (ρ : Assignment) (k : Nat) (ht : e.isTerminal = true) :
    s.follow ρ k e = .ok (e == .one) := by
  cases k <;> simp [follow, ht]

theorem follow_of_node {k : Nat} (ρ : Assignment) (ht : e.isTerminal = false)
    (hn : s.nodes[e.index]? = some n) (hc : s.Has (n.side (ρ n.var))) :
    s.follow ρ (k + 1) e = s.follow ρ k (e.along (n.side (ρ n.var))) := by
  simp only [follow, ht, node_of_get? hn]
  show (s.through e (n.side (ρ n.var)) >>= fun c => s.follow ρ k c) = _
  rw [through_of_has hc]
  rfl

/-- A walk through a reduced store ends within as many steps as the index of its first edge. -/
theorem Reduced.follow_ok (h : s.Reduced) (ρ : Assignment) :
    ∀ (k : Nat) (e : Edge), s.Has e → e.index ≤ k → ∃ b, s.follow ρ k e = .ok b := by
  intro k
  induction k with
  | zero =>
    intro e he hk
    exact absurd he.1 (by omega)
  | succ k ih =>
    intro e he hk
    cases ht : e.isTerminal with
    | true => exact ⟨_, follow_of_isTerminal s ρ _ ht⟩
    | false =>
      obtain ⟨n, hn, hf⟩ := h.get? he ht
      -- the side that is taken leads to an older node
      have hc := hf.has_side he (ρ n.var)
      rw [follow_of_node ρ ht hn hc]
      have hlt := hf.side_lt (ρ n.var)
      exact ih _ (hc.along e) (by rw [Edge.index_along]; omega)

/-- More steps than needed do not change where a walk ends. -/
theorem follow_mono (s : Store) (ρ : Assignment) :
    ∀ (k : Nat) (e : Edge) (b : Bool) (k' : Nat), s.follow ρ k e = .ok b → k ≤ k' →
      s.follow ρ k' e = .ok b := by
  intro k
  induction k with
  | zero =>
    intro e b k' h _
    cases ht : e.isTerminal with
    | true => rwa [follow_of_isTerminal s ρ _ ht] at h ⊢
    | false => simp [follow, ht] at h
  | succ k ih =>
    intro e b k' h hk
    cases ht : e.isTerminal with
    | true => rwa [follow_of_isTerminal s ρ _ ht] at h ⊢
    | false =>
      obtain ⟨j, rfl⟩ : ∃ j, k' = j + 1 := ⟨k' - 1, by omega⟩
      -- both walks look at the same node and take the same side
      simp only [follow, ht] at h ⊢
      cases hn : s.node e with
      | error f => simp [hn, bind, Except.bind] at h
      | ok n =>
        simp only [hn, bind, Except.bind] at h ⊢
        cases hc : s.through e (if ρ n.var = true then n.high else n.low) with
        | error f => simp [hc] at h
        | ok c =>
          simp only [hc] at h ⊢
          exact ih c b j h (by omega)

/-! ## Growth -/

/-- Every node of `s` is at the same index in `t`. -/
def GrowsTo (s t : Store) : Prop :=
  ∀ (i : Nat) (n : Node), s.nodes[i]? = some n → t.nodes[i]? = some n

theorem GrowsTo.refl (s : Store) : s.GrowsTo s := fun _ _ h => h

theorem GrowsTo.trans {u : Store} (h : s.GrowsTo t) (h' : t.GrowsTo u) : s.GrowsTo u :=
  fun i n hn => h' i n (h i n hn)

theorem GrowsTo.size_le (h : s.GrowsTo t) : s.nodes.size ≤ t.nodes.size := by
  refine Nat.le_of_not_lt fun hs => ?_
  -- the last node of the longer store has no place in the shorter one
  have hn := h _ _ (Array.getElem?_eq_getElem hs)
  rw [Array.getElem?_eq_none (Nat.le_refl _)] at hn
  cases hn

theorem GrowsTo.has (h : s.GrowsTo t) (he : s.Has e) : t.Has e :=
  ⟨he.1, Nat.lt_of_lt_of_le he.2 h.size_le⟩

theorem GrowsTo.under (h : s.GrowsTo t) (he : s.Under v e) : t.Under v e := by
  rcases he with ht | ⟨n, hn, hv⟩
  · exact Or.inl ht
  · exact Or.inr ⟨n, h _ n hn, hv⟩

theorem GrowsTo.nodeForm {i : Nat} (h : s.GrowsTo t) (hf : s.NodeForm i n) : t.NodeForm i n where
  var_pos := hf.var_pos
  var_le := hf.var_le
  high_regular := hf.high_regular
  low_ne_high := hf.low_ne_high
  low_older := hf.low_older
  high_older := hf.high_older
  low_under := h.under hf.low_under
  high_under := h.under hf.high_under

/-- A walk that ends in a reduced store goes the same way when the store has grown. -/
theorem GrowsTo.follow_eq (h : s.GrowsTo t) (hs : s.Reduced) (ρ : Assignment) :
    ∀ (k : Nat) (e : Edge), s.Has e → t.follow ρ k e = s.follow ρ k e := by
  intro k
  induction k with
  | zero => intro e _; rfl
  | succ k ih =>
    intro e he
    cases ht : e.isTerminal with
    | true => rw [follow_of_isTerminal s ρ _ ht, follow_of_isTerminal t ρ _ ht]
    | false =>
      obtain ⟨n, hn, hf⟩ := hs.get? he ht
      have hc := hf.has_side he (ρ n.var)
      rw [follow_of_node ρ ht hn hc, follow_of_node ρ ht (h _ n hn) (h.has hc)]
      exact ih _ (hc.along e)

/-- The value of an edge stays the same when the store grows. -/
theorem GrowsTo.evaluate_eq (h : s.GrowsTo t) (hs : s.Reduced) (he : s.Has e) (ρ : Assignment) :
    t.evaluate e ρ = s.evaluate e ρ := by
  obtain ⟨b, hb⟩ := hs.follow_ok ρ _ e he (Nat.le_of_lt he.2)
  have ht := follow_mono t ρ _ e b t.nodes.size (by rw [h.follow_eq hs ρ _ e he, hb]) h.size_le
  unfold evaluate
  rw [hb, ht]

end Store

end Stimulus.Diagram

import Stimulus.Proofs.Diagram.Reduced

/-!
# Functions of edges

`s.Denotes e φ` says that the edge `e` of the store `s` evaluates to `φ` under
every assignment. Every edge of a reduced store denotes exactly one function
(`Store.Reduced.denotes`, `Store.Denotes.unique`), and keeps it when the store
grows (`Store.Denotes.grow`). Constants, complements and nodes denote what they
should (`denotes_one`, `Denotes.neg`, `denotes_of_node`), and so does each side of
a node, which denotes its function with the variable fixed (`Denotes.side`).
-/

set_option autoImplicit false

namespace Stimulus.Diagram

/-- The assignment with another value for one variable. -/
def Assignment.set (ρ : Assignment) (v : Nat) (b : Bool) : Assignment :=
  fun u => if u = v then b else ρ u

theorem Assignment.set_self (ρ : Assignment) (v : Nat) (b : Bool) : ρ.set v b v = b := if_pos rfl

theorem Assignment.set_of_ne (ρ : Assignment) {u v : Nat} (b : Bool) (h : u ≠ v) :
    ρ.set v b u = ρ u := if_neg h

theorem Assignment.set_eq_self (ρ : Assignment) (v : Nat) : ρ.set v (ρ v) = ρ := by
  funext u
  unfold Assignment.set
  split
  · rename_i h
    rw [h]
  · rfl

namespace Store

/-- The edge evaluates to `φ` under every assignment. -/
structure Denotes (s : Store) (e : Edge) (φ : Assignment → Bool) : Prop where
  /-- The edge leads to a node of the store. -/
  has : s.Has e
  /-- The walks of the edge end with the values of the function. -/
  evaluate : ∀ ρ, s.evaluate e ρ = .ok (φ ρ)

variable {s t : Store} {e f : Edge} {n : Node} {v : Nat} {φ ψ : Assignment → Bool}

theorem Reduced.denotes (h : s.Reduced) (he : s.Has e) : ∃ φ, s.Denotes e φ := by
  have hb : ∀ ρ, ∃ b, s.evaluate e ρ = .ok b := fun ρ =>
    h.follow_ok ρ _ e he (Nat.le_of_lt he.2)
  exact ⟨fun ρ => (hb ρ).choose, he, fun ρ => (hb ρ).choose_spec⟩

theorem Denotes.unique (h : s.Denotes e φ) (h' : s.Denotes e ψ) : φ = ψ := by
  funext ρ
  have heq := h.evaluate ρ
  rw [h'.evaluate ρ] at heq
  exact (Except.ok.inj heq).symm

theorem Denotes.congr (h : s.Denotes e φ) (hφ : ∀ ρ, φ ρ = ψ ρ) : s.Denotes e ψ :=
  (funext hφ : φ = ψ) ▸ h

theorem Denotes.grow (h : s.Denotes e φ) (hs : s.Reduced) (hst : s.GrowsTo t) : t.Denotes e φ :=
  ⟨hst.has h.has, fun ρ => by rw [hst.evaluate_eq hs h.has, h.evaluate]⟩

theorem denotes_one (h : s.Reduced) : s.Denotes .one fun _ => true :=
  ⟨h.has_one, fun ρ => follow_of_isTerminal s ρ _ rfl⟩

theorem denotes_zero (h : s.Reduced) : s.Denotes .zero fun _ => false :=
  ⟨h.has_zero, fun ρ => follow_of_isTerminal s ρ _ rfl⟩

theorem denotes_ofBool (h : s.Reduced) (b : Bool) : s.Denotes (.ofBool b) fun _ => b := by
  cases b
  · exact denotes_zero h
  · exact denotes_one h

/-- The value of an edge to a node is the value of the side that the assignment takes. -/
theorem evaluate_of_node (h : s.Reduced) (he : s.Has e) (ht : e.isTerminal = false)
    (hn : s.nodes[e.index]? = some n) (ρ : Assignment) :
    s.evaluate e ρ = s.evaluate (e.along (n.side (ρ n.var))) ρ := by
  have hf := h.form _ n (he.two_le ht) hn
  have hc := hf.has_side he (ρ n.var)
  -- one step of the walk, and the fuel that is left suffices for the side
  obtain ⟨k, hk⟩ : ∃ k, s.nodes.size = k + 1 := ⟨s.nodes.size - 1, by have := h.two_le_size; omega⟩
  have hlt : (e.along (n.side (ρ n.var))).index ≤ k := by
    rw [Edge.index_along]
    have h1 := hf.side_lt (ρ n.var)
    have h2 := he.2
    omega
  obtain ⟨b, hb⟩ := h.follow_ok ρ k _ (hc.along e) hlt
  unfold evaluate
  rw [hk, follow_of_node ρ ht hn hc, hb, follow_mono s ρ k _ b (k + 1) hb (by omega)]

/-- Complementing an edge complements its walks. -/
theorem Reduced.evaluate_neg (h : s.Reduced) (ρ : Assignment) :
    ∀ (i : Nat) (e : Edge) (b : Bool), e.index ≤ i → s.Has e → s.evaluate e ρ = .ok b →
      s.evaluate (-e) ρ = .ok (!b) := by
  intro i
  induction i with
  | zero =>
    intro e b hi he _
    exact absurd he.1 (by omega)
  | succ i ih =>
    intro e b hi he hb
    cases ht : e.isTerminal with
    | true =>
      -- the constants are complements of each other
      rcases (Edge.isTerminal_iff e).1 ht with rfl | rfl
      · rw [(denotes_zero h).evaluate] at hb
        cases hb
        exact (denotes_one h).evaluate ρ
      · rw [(denotes_one h).evaluate] at hb
        cases hb
        exact (denotes_zero h).evaluate ρ
    | false =>
      obtain ⟨n, hn, hf⟩ := h.get? he ht
      -- the complement of an edge to a node takes the complement of the same side
      rw [evaluate_of_node h he ht hn] at hb
      rw [evaluate_of_node h he.neg (by rw [Edge.isTerminal_neg, ht]) (by rwa [Edge.index_neg]),
        Edge.along_neg he.1]
      have hlt := hf.side_lt (ρ n.var)
      exact ih _ b (by rw [Edge.index_along]; omega) ((hf.has_side he _).along e) hb

theorem Denotes.neg (h : s.Denotes e φ) (hs : s.Reduced) : s.Denotes (-e) fun ρ => !φ ρ :=
  ⟨h.has.neg, fun ρ => hs.evaluate_neg ρ _ e _ (Nat.le_refl _) h.has (h.evaluate ρ)⟩

/-- A node denotes the choice between its sides. -/
theorem denotes_of_node (h : s.Reduced) (he : s.Has e) (ht : e.isTerminal = false)
    (hn : s.nodes[e.index]? = some n) (hl : s.Denotes (e.along n.low) φ)
    (hh : s.Denotes (e.along n.high) ψ) :
    s.Denotes e fun ρ => if ρ n.var then ψ ρ else φ ρ := by
  refine ⟨he, fun ρ => ?_⟩
  rw [evaluate_of_node h he ht hn]
  cases ρ n.var
  · exact hl.evaluate ρ
  · exact hh.evaluate ρ

/-! ## Variables -/

/-- The function does not depend on the variable. -/
def Ignores (φ : Assignment → Bool) (v : Nat) : Prop := ∀ ρ b, φ (ρ.set v b) = φ ρ

/-- A function does not depend on the variables before its edge starts. -/
theorem Reduced.ignores (h : s.Reduced) : ∀ (i : Nat) (e : Edge) (φ : Assignment → Bool) (v : Nat),
    e.index ≤ i → s.Denotes e φ → s.Under v e → ∀ u, u ≤ v → Ignores φ u := by
  intro i
  induction i with
  | zero =>
    intro e φ v hi he
    exact absurd he.has.1 (by omega)
  | succ i ih =>
    intro e φ v hi he hu u huv ρ b
    cases ht : e.isTerminal with
    | true =>
      rcases (Edge.isTerminal_iff e).1 ht with rfl | rfl
      · rw [he.unique (denotes_zero h)]
      · rw [he.unique (denotes_one h)]
    | false =>
      obtain ⟨n, hn, hf⟩ := h.get? he.has ht
      -- the node tests a variable after `v`, so setting `u` does not change the side
      have hv : v < n.var := by
        rcases hu with hu | ⟨m, hm, hv⟩
        · rw [hu] at ht
          cases ht
        · rw [hn] at hm
          cases hm
          exact hv
      obtain ⟨φ₀, h₀⟩ := h.denotes ((hf.has_low he.has).along e)
      obtain ⟨φ₁, h₁⟩ := h.denotes ((hf.has_high he.has).along e)
      have hlow := hf.low_older.2
      have hhigh := hf.high_older.2
      have i₀ := ih _ φ₀ n.var (by rw [Edge.index_along]; omega) h₀ (hf.low_under.along e) u
        (by omega)
      have i₁ := ih _ φ₁ n.var (by rw [Edge.index_along]; omega) h₁ (hf.high_under.along e) u
        (by omega)
      rw [he.unique (denotes_of_node h he.has ht hn h₀ h₁)]
      show (if ρ.set u b n.var = true then φ₁ (ρ.set u b) else φ₀ (ρ.set u b)) = _
      rw [Assignment.set_of_ne ρ b (by omega), i₀ ρ b, i₁ ρ b]

theorem Denotes.ignores (h : s.Denotes e φ) (hs : s.Reduced) (hu : s.Under v e) {u : Nat}
    (huv : u ≤ v) : Ignores φ u :=
  hs.ignores _ e φ v (Nat.le_refl _) h hu u huv

/-- A side of a node denotes the function of the node with its variable fixed. -/
theorem Denotes.side (h : s.Denotes e φ) (hs : s.Reduced) (ht : e.isTerminal = false)
    (hn : s.nodes[e.index]? = some n) (b : Bool) :
    s.Denotes (e.along (n.side b)) fun ρ => φ (ρ.set n.var b) := by
  have hf := hs.form _ n (h.has.two_le ht) hn
  obtain ⟨φ₀, h₀⟩ := hs.denotes ((hf.has_low h.has).along e)
  obtain ⟨φ₁, h₁⟩ := hs.denotes ((hf.has_high h.has).along e)
  -- the sides start after the variable, so fixing it does not change them
  have i₀ := h₀.ignores hs (hf.low_under.along e) (Nat.le_refl _)
  have i₁ := h₁.ignores hs (hf.high_under.along e) (Nat.le_refl _)
  rw [h.unique (denotes_of_node hs h.has ht hn h₀ h₁)]
  cases b
  · refine h₀.congr fun ρ => ?_
    simp [Assignment.set_self, i₀ ρ false]
  · refine h₁.congr fun ρ => ?_
    simp [Assignment.set_self, i₁ ρ true]

end Store

end Stimulus.Diagram

import Mathlib.Data.Set.Card
import Stimulus.Proofs.Diagram.Denotation

/-!
# Subfunctions

Fixing the variables `1, …, k` of a function in all ways, for every `k`, gives its subfunctions
(`subfunctions`). A diagram keeps a function and its complement in one node, so the two are taken
together here (`polarities`).

A function that starts at a variable has itself and the subfunctions of its two sides as its
subfunctions (`subfunctions_eq_insert`). So they can be found variable by variable, and a function
that reads an earlier variable is none of them (`From.not_mem`).
-/

set_option autoImplicit false

namespace Stimulus.Diagram

variable {φ ψ : Assignment → Bool} {ρ σ : Assignment} {u v k : Nat} {b : Bool}

/-- The assignment with the variables `1, …, k` as in `σ` and the others as in `ρ`. -/
def Assignment.upTo (σ : Assignment) (k : Nat) (ρ : Assignment) : Assignment :=
  fun v => if 0 < v ∧ v ≤ k then σ v else ρ v

/-- The function with the variables `1, …, k` fixed to their values under `σ`. -/
def fixed (φ : Assignment → Bool) (k : Nat) (σ : Assignment) : Assignment → Bool :=
  fun ρ => φ (σ.upTo k ρ)

/-- The function with one variable fixed. -/
def sideOf (φ : Assignment → Bool) (v : Nat) (b : Bool) : Assignment → Bool :=
  fun ρ => φ (ρ.set v b)

/-- A function and its complement. -/
def polarities (φ : Assignment → Bool) : Set (Assignment → Bool) := {φ, fun ρ => !φ ρ}

/-- The functions that fixing first variables gives, each taken together with its complement. -/
def subfunctions (φ : Assignment → Bool) : Set (Set (Assignment → Bool)) :=
  {c | ∃ k σ, c = polarities (fixed φ k σ)}

/-- The function depends on the variables from `v` on only. -/
def From (v : Nat) (φ : Assignment → Bool) : Prop :=
  ∀ ρ σ : Assignment, (∀ u, v ≤ u → ρ u = σ u) → φ ρ = φ σ

/-! ## Polarities -/

theorem mem_polarities_self (φ : Assignment → Bool) : φ ∈ polarities φ := Set.mem_insert _ _

theorem polarities_not (φ : Assignment → Bool) : polarities (fun ρ => !φ ρ) = polarities φ := by
  unfold polarities
  rw [Set.pair_comm]
  simp only [Bool.not_not]

theorem polarities_eq_iff : polarities φ = polarities ψ ↔ φ = ψ ∨ φ = fun ρ => !ψ ρ := by
  constructor
  · intro h
    have hmem : φ ∈ polarities ψ := h ▸ mem_polarities_self φ
    rwa [polarities, Set.mem_insert_iff, Set.mem_singleton_iff] at hmem
  · rintro (rfl | rfl)
    · rfl
    · exact polarities_not ψ

/-! ## Functions that start at a variable -/

theorem From.mono (h : From v φ) (huv : u ≤ v) : From u φ := fun ρ σ hρσ =>
  h ρ σ fun w hw => hρσ w (Nat.le_trans huv hw)

theorem From.not (h : From v φ) : From v fun ρ => !φ ρ := fun ρ σ hρσ =>
  congrArg Bool.not (h ρ σ hρσ)

theorem From.of_polarities (h : From v φ) (heq : polarities ψ = polarities φ) : From v ψ := by
  rcases polarities_eq_iff.1 heq with rfl | rfl
  · exact h
  · exact h.not

theorem From.fixed (h : From v φ) (k : Nat) (σ : Assignment) : From v (fixed φ k σ) := by
  refine fun ρ ρ' hρ => h _ _ fun u hu => ?_
  unfold Assignment.upTo
  rw [hρ u hu]

/-- A side starts after the variable that is fixed. -/
theorem From.sideOf (h : From v φ) (b : Bool) : From (v + 1) (sideOf φ v b) := by
  refine fun ρ σ hρσ => h _ _ fun u hu => ?_
  unfold Assignment.set
  split
  · rfl
  · exact hρσ u (by omega)

theorem From.sideOf_eq_self (h : From v φ) (huv : u < v) : Diagram.sideOf φ u b = φ := by
  funext ρ
  exact h _ _ fun w hw => ρ.set_of_ne b (by omega)

/-! ## Finding subfunctions -/

theorem mem_subfunctions_self (φ : Assignment → Bool) : polarities φ ∈ subfunctions φ := by
  refine ⟨0, fun _ => false, congrArg polarities (funext fun ρ => congrArg φ (funext fun v => ?_))⟩
  exact (if_neg (by omega)).symm

theorem subfunctions_not (φ : Assignment → Bool) :
    subfunctions (fun ρ => !φ ρ) = subfunctions φ := by
  ext c
  exact exists_congr fun k => exists_congr fun σ => by
    rw [← polarities_not (fixed φ k σ)]
    rfl

theorem subfunctions_const (b : Bool) : subfunctions (fun _ => b) = {polarities fun _ => true} := by
  have hb : polarities (fun _ => b) = polarities fun _ => true := by
    cases b
    · exact (polarities_not fun _ => false).symm
    · rfl
  ext c
  constructor
  · rintro ⟨k, σ, rfl⟩
    exact hb
  · rintro rfl
    exact hb ▸ mem_subfunctions_self fun _ => b

/-- Ways to fix the first variables that lead to different functions, also up to complement, show
a subfunction each. -/
theorem le_encard_subfunctions {n : Nat} {τ : Fin n → Assignment}
    (h : Function.Injective fun i => polarities (fixed φ k (τ i))) :
    (n : ℕ∞) ≤ (subfunctions φ).encard := by
  have hrange : (Set.range fun i => polarities (fixed φ k (τ i))) ⊆ subfunctions φ := by
    rintro _ ⟨i, rfl⟩
    exact ⟨k, τ i, rfl⟩
  calc (n : ℕ∞) = ENat.card (Fin n) := by rw [ENat.card_eq_coe_fintype_card, Fintype.card_fin]
    _ ≤ (Set.range fun i => polarities (fixed φ k (τ i))).encard := h.encard_range
    _ ≤ (subfunctions φ).encard := Set.encard_le_encard hrange

/-- Every function with the polarities of a subfunction starts where the function does. -/
theorem From.of_mem (h : From v φ) (hψ : polarities ψ ∈ subfunctions φ) : From v ψ := by
  obtain ⟨k, σ, heq⟩ := hψ
  exact (h.fixed k σ).of_polarities heq

/-- A function that reads an earlier variable is no subfunction. -/
theorem From.not_mem (h : From v φ) (hψ : ¬ From v ψ) : polarities ψ ∉ subfunctions φ :=
  fun hmem => hψ (h.of_mem hmem)

/-- Fixing first variables again. -/
theorem Assignment.upTo_upTo (σ τ ρ : Assignment) (k j : Nat) :
    σ.upTo k (τ.upTo j ρ) = (σ.upTo k τ).upTo (max k j) ρ := by
  funext u
  unfold Assignment.upTo
  by_cases hk : 0 < u ∧ u ≤ k
  · rw [if_pos hk, if_pos (by omega), if_pos hk]
  · rw [if_neg hk, if_neg hk]
    by_cases hj : 0 < u ∧ u ≤ j
    · rw [if_pos hj, if_pos (by omega)]
    · rw [if_neg hj, if_neg (by omega)]

/-- The subfunctions of a subfunction are subfunctions. -/
theorem subfunctions_subset (h : polarities ψ ∈ subfunctions φ) :
    subfunctions ψ ⊆ subfunctions φ := by
  have hfixed : ∀ k σ, subfunctions (fixed φ k σ) ⊆ subfunctions φ := by
    rintro k σ _ ⟨j, τ, rfl⟩
    exact ⟨max k j, σ.upTo k τ, congrArg polarities (funext fun ρ =>
      congrArg φ (Assignment.upTo_upTo σ τ ρ k j))⟩
  obtain ⟨k, σ, heq⟩ := h
  rcases polarities_eq_iff.1 heq with rfl | rfl
  · exact hfixed k σ
  · exact (subfunctions_not (fixed φ k σ)).subset.trans (hfixed k σ)

/-- A side of a function that starts at the variable is a subfunction. -/
theorem From.sideOf_mem (h : From v φ) (hv : 0 < v) (b : Bool) :
    polarities (Diagram.sideOf φ v b) ∈ subfunctions φ := by
  -- the variables before do not matter, so they may be fixed as well
  refine ⟨v, fun _ => b, congrArg polarities (funext fun ρ => h _ _ fun u hu => ?_)⟩
  unfold Assignment.set Assignment.upTo
  by_cases huv : u = v
  · rw [if_pos huv, if_pos (by omega)]
  · rw [if_neg huv, if_neg (by omega)]

theorem Assignment.upTo_set (σ ρ : Assignment) (hv : 0 < v) (hvk : v ≤ k) :
    (σ.upTo k ρ).set v (σ v) = σ.upTo k ρ := by
  have hself : σ.upTo k ρ v = σ v := if_pos ⟨hv, hvk⟩
  rw [← hself]
  exact Assignment.set_eq_self _ v

/-- **The subfunctions of a function that starts at a variable** are itself and those of its two
sides. -/
theorem subfunctions_eq_insert (h : From v φ) (hv : 0 < v) :
    subfunctions φ = insert (polarities φ)
      (subfunctions (sideOf φ v false) ∪ subfunctions (sideOf φ v true)) := by
  refine Set.Subset.antisymm ?_ (Set.insert_subset (mem_subfunctions_self φ)
    (Set.union_subset (subfunctions_subset (h.sideOf_mem hv false))
      (subfunctions_subset (h.sideOf_mem hv true))))
  rintro _ ⟨k, σ, rfl⟩
  by_cases hvk : v ≤ k
  · -- the variable is fixed, so this is a subfunction of one side
    have hmem : polarities (fixed φ k σ) ∈ subfunctions (sideOf φ v (σ v)) := by
      refine ⟨k, σ, congrArg polarities (funext fun ρ => congrArg φ ?_)⟩
      exact (Assignment.upTo_set σ ρ hv hvk).symm
    cases hb : σ v <;> rw [hb] at hmem
    · exact Or.inr (Or.inl hmem)
    · exact Or.inr (Or.inr hmem)
  · -- only variables that the function does not read are fixed
    have hsame : fixed φ k σ = φ := funext fun ρ => h _ _ fun u hu => if_neg (by omega)
    rw [hsame]
    exact Or.inl rfl

/-- A function that reads the variable has one subfunction more than its two sides together. -/
theorem From.encard_subfunctions (h : From v φ) (hv : 0 < v) (hreads : ¬ From (v + 1) φ) :
    (subfunctions φ).encard = (subfunctions (Diagram.sideOf φ v false) ∪
      subfunctions (Diagram.sideOf φ v true)).encard + 1 := by
  rw [subfunctions_eq_insert h hv, Set.encard_insert_of_notMem]
  rintro (hmem | hmem)
  · exact (h.sideOf false).not_mem hreads hmem
  · exact (h.sideOf true).not_mem hreads hmem

end Stimulus.Diagram

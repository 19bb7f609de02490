import Stimulus.Proofs.Diagram.Size
import Stimulus.Proofs.Runs

/-!
# Sizes on runs

On every store that a run reaches, the descendants of some edges are the least closed set of
indexes around them, and the size of a diagram is the number of subfunctions of its function
(`Store.Reached.size_exact`). So the size is that of the function: it does not depend on the run,
and no other ordered diagram of the function has fewer nodes.
-/

set_option autoImplicit false

namespace Stimulus.Diagram.Store

variable {s : Store}

/-- **The size of a diagram counts subfunctions.** The descendants of edges are found, and they are
the least set of indexes that contains those of the edges and both children of every node in it.
The size of an edge is the number of functions that fixing first variables of its function gives, a
function and its complement counted once. Every run gives an edge of this function this size, and
no ordered diagram of the function has fewer indexes. -/
theorem Reached.size_exact (h : s.Reached) :
    (∀ roots, (∀ e ∈ roots, s.Has e) → ∃ found, s.descendants roots = .ok found ∧
      IsLeast {S : Set Nat | (∀ e ∈ roots, e.index ∈ S) ∧ s.Closed S} {i | i ∈ found}) ∧
    ∀ e, s.Has e → ∃ (φ : Assignment → Bool) (size : Nat), (∀ ρ, s.evaluate e ρ = .ok (φ ρ)) ∧
      s.diagramSize e = .ok size ∧ (subfunctions φ).encard = size ∧
      (∀ (t : Store) (f : Edge), t.Reached → t.Has f → (∀ ρ, t.evaluate f ρ = .ok (φ ρ)) →
        t.diagramSize f = .ok size) ∧
      ∀ (t : Store) (f : Edge) (S : Finset Nat), t.Ordered → t.Has f →
        (∀ ρ, t.evaluate f ρ = .ok (φ ρ)) → f.index ∈ S → t.Closed S → size ≤ S.card := by
  have hs := h.valid.reduced
  refine ⟨fun roots => hs.descendants_isLeast, fun e he => ?_⟩
  obtain ⟨φ, hφ⟩ := hs.denotes he
  obtain ⟨size, hr, hsize⟩ := hs.diagramSize_eq hφ
  refine ⟨φ, size, hφ.evaluate, hr, hsize, fun t f ht hf heval => ?_,
    fun t f S ht hf heval hmem hS => ?_⟩
  · obtain ⟨size', hr', hsize'⟩ := ht.valid.reduced.diagramSize_eq ⟨hf, heval⟩
    rw [hsize, Nat.cast_inj] at hsize'
    rw [hr', hsize']
  · have hle := ht.encard_subfunctions_le hf heval (Finset.mem_coe.2 hmem) hS
    rwa [hsize, Set.encard_coe_eq_coe_finsetCard, Nat.cast_le] at hle

/-- A variable and its complement have the terminal and one node, so a variable has two
subfunctions. -/
theorem firstLiteral_size_exact :
    (∃ found, firstLiteral.descendants [.ofIndex 2, -.ofIndex 2] = .ok found ∧
      1 ∈ found ∧ 2 ∈ found ∧ ∀ i ∈ found, i = 1 ∨ i = 2) ∧
    firstLiteral.diagramSize (.ofIndex 2) = .ok 2 ∧
    (subfunctions fun ρ => ρ 1).encard = 2 := by
  obtain ⟨hfound, hsize⟩ := reached_firstLiteral.size_exact
  have hhas : firstLiteral.Has (.ofIndex 2) := ⟨by decide, by decide⟩
  have hclosed : firstLiteral.Closed {1, 2} := by
    rintro i (rfl | rfl) hi n hn b
    · exact absurd rfl hi
    · cases hn
      cases b <;> exact Or.inl rfl
  refine ⟨?_, rfl, ?_⟩
  · obtain ⟨found, hr, ⟨hroots, hdown⟩, hleast⟩ := hfound [.ofIndex 2, -.ofIndex 2]
      (List.forall_mem_cons.2 ⟨hhas, List.forall_mem_singleton.2 hhas.neg⟩)
    have htwo := hroots _ List.mem_cons_self
    refine ⟨found, hr, hdown _ htwo (by decide) _ rfl false, htwo, fun i hi => ?_⟩
    exact hleast ⟨List.forall_mem_cons.2 ⟨Or.inr rfl, List.forall_mem_singleton.2 (Or.inr rfl)⟩,
      hclosed⟩ hi
  · obtain ⟨φ, size, heval, hr, hcount, -⟩ := hsize _ hhas
    obtain rfl : 2 = size := Except.ok.inj hr
    have hφ : φ = fun ρ => ρ 1 := by
      funext ρ
      have hwalk : firstLiteral.evaluate (.ofIndex 2) ρ = .ok (ρ 1) := by
        have hstep : firstLiteral.evaluate (.ofIndex 2) ρ =
            firstLiteral.follow ρ 2 (if ρ 1 then .one else .zero) := rfl
        rw [hstep]
        cases ρ 1 <;> rfl
      exact Except.ok.inj ((heval ρ).symm.trans hwalk)
    exact hφ ▸ hcount

end Stimulus.Diagram.Store

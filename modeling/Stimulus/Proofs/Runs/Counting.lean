import Stimulus.Proofs.Diagram.Sample
import Stimulus.Proofs.Runs

/-!
# Counting over runs

On every store that a run reaches, the count of an edge over the variables `1, …, n` is the number
of assignments to them under which the edge evaluates to true (`Store.Reached.count_exact`), if no
other variable matters to the edge. Nothing is asked of its nodes: a reduced diagram has a node on a
variable only if the variable matters.

A constant starts after the variable `n`, and this place needs a number as well. So there is no
count over all variable numbers that there are (`Store.Reduced.count_of_last`).
-/

set_option autoImplicit false

namespace Stimulus.Diagram

variable {n : Nat} {φ : Assignment → Bool}

namespace Store

variable {s : Store} {e : Edge}

/-- Only the variables `1, …, n` matter to the value of the edge. -/
def DependsOn (s : Store) (n : Nat) (e : Edge) : Prop :=
  ∀ ρ σ : Assignment, (∀ v, 0 < v → v ≤ n → ρ v = σ v) → s.evaluate e ρ = s.evaluate e σ

theorem DependsOn.within (h : s.DependsOn n e) (he : s.Denotes e φ) : Within n φ := by
  intro ρ σ hρσ
  have hvalues := h ρ σ hρσ
  rw [he.evaluate, he.evaluate] at hvalues
  exact Except.ok.inj hvalues

theorem Denotes.dependsOn (he : s.Denotes e φ) (h : Within n φ) : s.DependsOn n e := by
  intro ρ σ hρσ
  rw [he.evaluate, he.evaluate, h ρ σ hρσ]

/-- The assignments to the variables `1, …, n` that satisfy the edge. -/
def solutions (s : Store) (n : Nat) (e : Edge) : Finset (Fin n → Bool) :=
  Finset.univ.filter fun values => s.evaluate e (assign values) = .ok true

theorem Denotes.card_solutions (he : s.Denotes e φ) : (s.solutions n e).card = models n φ := by
  simp [solutions, he.evaluate, models, Bool.toNat, Bool.cond_eq_ite]

/-- The count of a function over its variables is the number of its models. -/
theorem Reduced.count_eq_models (hs : s.Reduced) (hn : n < lastVariable) (he : s.Denotes e φ)
    (hφ : Within n φ) : s.count e n = .ok (models n φ) := by
  obtain ⟨w, known, hcount, -, hmodels⟩ := hs.countAfter_spec hn he hφ (Under.zero hs he.has)
    (Nat.zero_le n) (knows_empty s n)
  -- no variable lies before the first one
  rw [Nat.pow_zero, Nat.mul_one] at hmodels
  rw [count_of_countAfter hcount, hmodels]

/-! ### Counts over too many variables -/

theorem counting_fault {α β : Type} {x : Counting α} {known : Counts} {fault : Fault}
    (hx : x known = .error fault) (k : α → Counting β) : (x >>= k) known = .error fault := by
  show (x known >>= fun p => k p.1 p.2) = _
  rw [hx]
  rfl

/-- The place after the last number is no number. -/
theorem below_of_last {v c : Nat} (hn : lastVariable ≤ n) (ht : e.isTerminal = true) :
    s.below n v e c = .error .uncounted := by
  rw [below, depth, if_pos ht, if_neg (Nat.not_lt.2 hn)]
  rfl

theorem get?_of_isTerminal (known : Counts) (ht : e.isTerminal = true) :
    ∃ c, known.get? e = some c := by
  rcases (Edge.isTerminal_iff e).1 ht with rfl | rfl
  · exact ⟨0, rfl⟩
  · exact ⟨1, rfl⟩

theorem get?_empty (ht : e.isTerminal = false) : Counts.get? ∅ e = none := by
  have hne : e ≠ .zero ∧ e ≠ .one := by
    rw [← not_or, ← Edge.isTerminal_iff, ht]
    exact Bool.false_ne_true
  rw [Counts.get?, if_neg hne.1, if_neg hne.2, Std.TreeMap.getElem?_emptyc]

/-- The walk along the low sides is the first to come to a constant. -/
theorem Reduced.countWithin_of_last (hs : s.Reduced) (hn : lastVariable ≤ n) :
    ∀ (fuel : Nat) (e : Edge), e.index ≤ fuel → s.Has e → e.isTerminal = false →
      s.countWithin n fuel e ∅ = .error .uncounted := by
  intro fuel
  induction fuel with
  | zero =>
    intro e hi he
    exact absurd he.1 (by omega)
  | succ fuel ih =>
    intro e hi he ht
    obtain ⟨node, hnode, hform⟩ := hs.get? he ht
    have hget : (get : Counting Counts) ∅ = .ok (∅, ∅) := rfl
    rw [countWithin, counting_bind hget, get?_empty ht]
    dsimp only
    rw [counting_ask (node_of_get? hnode), counting_ask (through_of_has (hform.has_low he) e),
      counting_ask (through_of_has (hform.has_high he) e)]
    cases hlow : (e.along node.low).isTerminal with
    | true =>
      obtain ⟨c, hc⟩ := get?_of_isTerminal ∅ hlow
      rw [counting_bind (countWithin_of_known hc), below_of_last hn hlow]
      rfl
    | false =>
      have hlt := hform.side_lt false
      refine counting_fault (ih _ ?_ ((hform.has_low he).along e) hlow) _
      rw [Edge.index_along]
      exact Nat.le_of_lt_succ (Nat.lt_of_lt_of_le hlt hi)

theorem Reduced.countAfter_of_last (hs : s.Reduced) (hn : lastVariable ≤ n) (he : s.Has e)
    (v : Nat) : s.countAfter n v e ∅ = .error .uncounted := by
  cases ht : e.isTerminal with
  | true =>
    obtain ⟨c, hc⟩ := get?_of_isTerminal ∅ ht
    rw [countAfter, counting_bind (countWithin_of_known hc), below_of_last hn ht]
    rfl
  | false =>
    exact counting_fault (hs.countWithin_of_last hn _ e (Nat.le_of_lt he.2) he ht) _

/-- There is no count over so many variables that the place after them has no number. -/
theorem Reduced.count_of_last (hs : s.Reduced) (hn : lastVariable ≤ n) (he : s.Has e) :
    s.count e n = .error .uncounted := by
  show Prod.fst <$> s.countAfter n 0 e ∅ = _
  rw [hs.countAfter_of_last hn he]
  rfl

/-! ### Counts over runs -/

/-- **Counting is exact.** Whatever store a run reaches, the count of an edge meets no fault and is
the number of assignments that satisfy it, as long as the variables that matter are counted over. -/
theorem Reached.count_exact (h : s.Reached) (he : s.Has e) (hn : n < lastVariable)
    (hdep : s.DependsOn n e) : s.count e n = .ok (s.solutions n e).card := by
  have hs := h.valid.reduced
  obtain ⟨φ, hφ⟩ := hs.denotes he
  rw [hφ.card_solutions]
  exact hs.count_eq_models hn hφ (hdep.within hφ)

theorem denotes_neg_firstLiteral :
    firstLiteral.Denotes (-Edge.ofIndex 2) fun ρ => if ρ 1 then false else true := by
  have hs := reached_firstLiteral.valid.reduced
  have he : firstLiteral.Has (-Edge.ofIndex 2) := ⟨by decide, by decide⟩
  have hnode : firstLiteral.nodes[(-Edge.ofIndex 2).index]? = some ⟨1, .zero, .one⟩ := rfl
  -- the sides of a negated edge are negated
  have hlow : firstLiteral.Denotes ((-Edge.ofIndex 2).along .zero) fun _ => true := denotes_one hs
  have hhigh : firstLiteral.Denotes ((-Edge.ofIndex 2).along .one) fun _ => false :=
    denotes_zero hs
  exact denotes_of_node hs he rfl hnode hlow hhigh

/-- The negated first variable holds for half of the assignments to three variables. -/
theorem firstLiteral_count_exact :
    firstLiteral.count (-Edge.ofIndex 2) 3 = .ok 4 ∧
      (firstLiteral.solutions 3 (-Edge.ofIndex 2)).card = 4 := by
  have hcount : firstLiteral.count (-Edge.ofIndex 2) 3 = .ok 4 := rfl
  have hdep : firstLiteral.DependsOn 3 (-Edge.ofIndex 2) :=
    denotes_neg_firstLiteral.dependsOn fun ρ σ hρσ => by
      simp [hρσ 1 Nat.one_pos (by decide)]
  have hexact := reached_firstLiteral.count_exact denotes_neg_firstLiteral.has (by decide) hdep
  exact ⟨hcount, (Except.ok.inj (hexact.symm.trans hcount))⟩

end Store

end Stimulus.Diagram

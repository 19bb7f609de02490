import Mathlib.Algebra.BigOperators.Group.List.Basic
import Mathlib.Order.Interval.Finset.Nat
import Stimulus.Proofs.Runs.Counting

/-!
# Uniform draws over runs

On every store that a run reaches, a draw from an edge other than the constant false ends in a
satisfying assignment, each of them with the same chance, as long as the place after the last
variable has a number (`Store.Reached.sample_exact`, `Store.Reduced.sample_of_last`). The states
of its walk are those of `Store.Visits`. At each of them the program asks for a number below a total
that is not zero, and goes to a side that has solutions.

The chance is also the product of the shares of the turns on the way of an assignment
(`Store.trail`), times one half for every variable that no turn is on. The induction is on the walk:
the share of a turn is the number of models of its side over twice those of its node, and every turn
fixes one variable more (`Store.Travelled.share`).
-/

set_option autoImplicit false

namespace Stimulus.Diagram.Store

variable {s : Store} {n v fuel : Nat} {e f : Edge} {node : Node} {known known₁ known₂ : Counts}
  {φ : Assignment → Bool}

/-! ## Variables of an edge -/

/-- All nodes that the edge leads to are on the variables `1, …, n`. -/
inductive OnVariables (s : Store) (n : Nat) : Edge → Prop
  | terminal {e : Edge} (ht : e.isTerminal = true) : OnVariables s n e
  | node {e : Edge} {node : Node} (ht : e.isTerminal = false)
    (hnode : s.nodes[e.index]? = some node) (hvn : node.var ≤ n)
    (hlow : OnVariables s n (e.along node.low)) (hhigh : OnVariables s n (e.along node.high)) :
    OnVariables s n e

/-- Only variables that nodes are on matter. -/
theorem OnVariables.within (h : s.OnVariables n e) (hs : s.Reduced) (he : s.Denotes e φ) :
    Within n φ := by
  induction h generalizing φ with
  | terminal ht =>
    intro ρ σ _
    rcases (Edge.isTerminal_iff _).1 ht with rfl | rfl
    · rw [he.unique (denotes_zero hs)]
    · rw [he.unique (denotes_one hs)]
  | @node e node ht hnode hvn _ _ ihlow ihhigh =>
    intro ρ σ hρσ
    have hvar : ρ node.var = σ node.var :=
      hρσ _ (hs.form _ node (he.has.two_le ht) hnode).var_pos hvn
    have hside : ∀ b, Within n fun ρ => φ (ρ.set node.var b) := by
      intro b
      cases b with
      | false => exact ihlow (he.side hs ht hnode false)
      | true => exact ihhigh (he.side hs ht hnode true)
    -- both assignments go to one side, whose function does not tell them apart
    have hsame : φ (ρ.set node.var (ρ node.var)) = φ (σ.set node.var (ρ node.var)) :=
      hside (ρ node.var) ρ σ hρσ
    rwa [Assignment.set_eq_self, hvar, Assignment.set_eq_self] at hsame

/-! ## States of a walk -/

/-- What a walk from an edge over the variables `1, …, n` can come to: the counts that it knows then
and an edge. -/
inductive Visits (s : Store) (n : Nat) (e : Edge) : Counts → Edge → Prop
  | start : Visits s n e ∅ e
  | turn {known known₁ known₂ : Counts} {f : Edge} {node : Node} {lows highs i : Nat}
    (hvisits : Visits s n e known f) (ht : f.isTerminal = false)
    (hnode : s.nodes[f.index]? = some node)
    (hlows : s.countAfter n node.var (f.along node.low) known = .ok (lows, known₁))
    (hhighs : s.countAfter n node.var (f.along node.high) known₁ = .ok (highs, known₂))
    (hi : i < lows + highs) :
    Visits s n e known₂ (f.along (node.side (decide (i < highs))))

/-- The side that a number picks has models if one of the sides has. -/
theorem pos_of_pick {lows highs i : Nat} (hi : i < lows + highs) :
    0 < if i < highs then highs else lows := by
  split <;> omega

/-- **A walk only comes to edges that have solutions**, and knows right counts only. -/
theorem Visits.spec (h : s.Visits n e known f) (hs : s.Reduced) (hn : n < lastVariable)
    (he : s.Denotes e φ) (hφ : Within n φ) (hzero : e ≠ .zero) :
    f ≠ .zero ∧ s.Knows n known ∧ ∃ ψ, s.Denotes f ψ ∧ Within n ψ := by
  induction h with
  | start => exact ⟨hzero, knows_empty s n, φ, he, hφ⟩
  | @turn known known₁ known₂ f node lows highs i _ ht hnode hlows hhighs hi ih =>
    obtain ⟨-, hknown, ψ, hf, hψ⟩ := ih
    have hvn := hf.var_le hs hψ ht hnode
    obtain ⟨lows', highs', known₁', known₂', hlows', hhighs', hknown', -, hmodels₀, hmodels₁⟩ :=
      hs.count_sides hn hf hψ ht hnode (hs.form _ node (hf.has.two_le ht) hnode).var_pos hvn hknown
    -- the counts are those that the walk found
    rw [hlows] at hlows'
    cases hlows'
    rw [hhighs] at hhighs'
    cases hhighs'
    refine ⟨?_, hknown', _, hf.side hs ht hnode _, hψ.fix node.var _⟩
    by_cases hhigh : i < highs
    · rw [decide_eq_true hhigh]
      exact (hf.side hs ht hnode true).ne_zero_of_models hs (by omega) hmodels₁
    · rw [decide_eq_false hhigh]
      exact (hf.side hs ht hnode false).ne_zero_of_models hs (by omega) hmodels₀

/-! ## The way of an assignment -/

/-- A choice on the way: the variable, the counts of both sides over the later ones, and the side
that is taken. -/
structure Turn where
  var : Nat
  lows : Nat
  highs : Nat
  side : Bool
deriving DecidableEq

namespace Turn

/-- The number of solutions on the side that is taken. -/
def taken (t : Turn) : Nat := if t.side then t.highs else t.lows

/-- The part of the solutions that is on the side that is taken. -/
def share (t : Turn) : ℚ := t.taken / (t.lows + t.highs : Nat)

end Turn

/-- The turns of an assignment from an edge on, at most `fuel` of them. Counts are remembered as
they are along a walk. -/
def trailWithin (s : Store) (n : Nat) (ρ : Assignment) : Nat → Edge → Counting (List Turn)
  | 0, e => if e.isTerminal then return [] else throw .endless
  | fuel + 1, e =>
    if e.isTerminal then return []
    else do
      let node ← s.node e
      let low ← s.through e node.low
      let high ← s.through e node.high
      let lows ← s.countAfter n node.var low
      let highs ← s.countAfter n node.var high
      let side := ρ node.var
      return ⟨node.var, lows, highs, side⟩ ::
        (← s.trailWithin n ρ fuel (if side then high else low))

/-- The turns of an assignment. -/
def trail (s : Store) (n : Nat) (e : Edge) (ρ : Assignment) : Except Fault (List Turn) :=
  (s.trailWithin n ρ s.nodes.size e).run' ∅

/-- The number of the variables `1, …, n` that no turn is on. -/
def untested (n : Nat) (turns : List Turn) : Nat :=
  ((Finset.Icc 1 n).filter fun v => v ∉ turns.map Turn.var).card

theorem trailWithin_of_isTerminal (ht : e.isTerminal = true) (ρ : Assignment) :
    s.trailWithin n ρ fuel e known = .ok ([], known) := by
  cases fuel with
  | zero =>
    rw [trailWithin, if_pos ht]
    rfl
  | succ fuel =>
    rw [trailWithin, if_pos ht]
    rfl

theorem trailWithin_of_sides (he : s.Has e) (ht : e.isTerminal = false)
    (hnode : s.nodes[e.index]? = some node) (hform : s.NodeForm e.index node) {ρ : Assignment}
    {known₃ : Counts} {lows highs : Nat} {rest : List Turn}
    (hlows : s.countAfter n node.var (e.along node.low) known = .ok (lows, known₁))
    (hhighs : s.countAfter n node.var (e.along node.high) known₁ = .ok (highs, known₂))
    (hrest : s.trailWithin n ρ fuel (e.along (node.side (ρ node.var))) known₂ =
      .ok (rest, known₃)) :
    s.trailWithin n ρ (fuel + 1) e known =
      .ok (⟨node.var, lows, highs, ρ node.var⟩ :: rest, known₃) := by
  have hside : (if ρ node.var = true then e.along node.high else e.along node.low) =
      e.along (node.side (ρ node.var)) := by
    cases ρ node.var <;> rfl
  rw [trailWithin, if_neg (by rw [ht]; exact Bool.false_ne_true),
    counting_ask (node_of_get? hnode), counting_ask (through_of_has (hform.has_low he) e),
    counting_ask (through_of_has (hform.has_high he) e), counting_bind hlows,
    counting_bind hhighs, hside, counting_bind hrest]
  rfl

/-- Turns on later and later variables after `v`, each of them to a side with solutions, whose
shares make up for the models of a function. -/
structure Travelled (n v : Nat) (φ : Assignment → Bool) (turns : List Turn) : Prop where
  /-- The variables come in order. -/
  ordered : (turns.map Turn.var).Pairwise (· < ·)
  /-- Turns are on the variables `v + 1, …, n`. -/
  bounds : ∀ t ∈ turns, v < t.var ∧ t.var ≤ n
  /-- The sides that are taken have solutions. -/
  taken : ∀ t ∈ turns, 0 < t.taken
  /-- Every turn halves what is left open. -/
  share : (models n φ : ℚ) * (turns.map Turn.share).prod * 2 ^ turns.length = 2 ^ n

theorem travelled_nil (n v : Nat) : Travelled n v (fun _ => true) [] where
  ordered := List.Pairwise.nil
  bounds _ h := absurd h List.not_mem_nil
  taken _ h := absurd h List.not_mem_nil
  share := by simp [models_one]

/-- The counts of a turn make up for the models on both sides of its variable. -/
structure Turn.Weighs (t : Turn) (n : Nat) (φ : Assignment → Bool) : Prop where
  pos : 0 < t.var
  le : t.var ≤ n
  lows : t.lows * 2 ^ t.var = models n fun ρ => φ (ρ.set t.var false)
  highs : t.highs * 2 ^ t.var = models n fun ρ => φ (ρ.set t.var true)

namespace Turn.Weighs

variable {t : Turn}

theorem taken_mul (h : t.Weighs n φ) :
    t.taken * 2 ^ t.var = models n fun ρ => φ (ρ.set t.var t.side) := by
  rw [Turn.taken]
  cases t.side with
  | false => exact h.lows
  | true => exact h.highs

theorem taken_pos (h : t.Weighs n φ)
    (hmodels : models n (fun ρ => φ (ρ.set t.var t.side)) ≠ 0) : 0 < t.taken := by
  rw [← h.taken_mul] at hmodels
  exact Nat.pos_of_ne_zero (Nat.mul_ne_zero_iff.1 hmodels).1

/-- The models of the side are those of the node, but for the share and one variable. -/
theorem models_mul_share (h : t.Weighs n φ) (htaken : 0 < t.taken) :
    (models n φ : ℚ) * t.share * 2 = models n fun ρ => φ (ρ.set t.var t.side) := by
  have htotal : ((t.lows + t.highs : Nat) : ℚ) ≠ 0 := by
    rw [Nat.cast_ne_zero]
    rw [Turn.taken] at htaken
    split at htaken <;> omega
  have hsplit := models_split φ h.pos h.le
  rw [← h.lows, ← h.highs, ← Nat.add_mul] at hsplit
  have hsplit' : ((t.lows + t.highs : Nat) : ℚ) * 2 ^ t.var = 2 * models n φ := by
    exact_mod_cast hsplit
  rw [← h.taken_mul, Turn.share, mul_div_assoc', div_mul_eq_mul_div, div_eq_iff htotal]
  push_cast at hsplit' ⊢
  linear_combination (-(t.taken : ℚ)) * hsplit'

end Turn.Weighs

/-- One turn more, before the others. -/
theorem Travelled.cons {t : Turn} {turns : List Turn} (hv : v < t.var) (ht : t.Weighs n φ)
    (hmodels : models n (fun ρ => φ (ρ.set t.var t.side)) ≠ 0)
    (h : Travelled n t.var (fun ρ => φ (ρ.set t.var t.side)) turns) :
    Travelled n v φ (t :: turns) := by
  have htaken := ht.taken_pos hmodels
  constructor
  · rw [List.map_cons, List.pairwise_cons]
    refine ⟨fun u hu => ?_, h.ordered⟩
    obtain ⟨t', ht', rfl⟩ := List.mem_map.1 hu
    exact (h.bounds t' ht').1
  · intro t' ht'
    rcases List.mem_cons.1 ht' with rfl | ht'
    · exact ⟨hv, ht.le⟩
    · obtain ⟨hlt, hle⟩ := h.bounds t' ht'
      exact ⟨Nat.lt_trans hv hlt, hle⟩
  · intro t' ht'
    rcases List.mem_cons.1 ht' with rfl | ht'
    · exact htaken
    · exact h.taken t' ht'
  · rw [List.map_cons, List.prod_cons, List.length_cons, pow_succ, ← h.share,
      ← ht.models_mul_share htaken]
    ring

/-- Every turn is on one variable, and no two turns are on the same one. -/
theorem Travelled.untested_add_length {turns : List Turn} (h : Travelled n 0 φ turns) :
    untested n turns + turns.length = n := by
  have hnodup : (turns.map Turn.var).Nodup := h.ordered.imp Nat.ne_of_lt
  have htested : (turns.map Turn.var).toFinset ⊆ Finset.Icc 1 n := by
    intro u hu
    obtain ⟨t, ht, rfl⟩ := List.mem_map.1 (List.mem_toFinset.1 hu)
    exact Finset.mem_Icc.2 (h.bounds t ht)
  have hrest : ((Finset.Icc 1 n).filter fun u => u ∉ turns.map Turn.var) =
      Finset.Icc 1 n \ (turns.map Turn.var).toFinset := by
    ext u
    simp only [Finset.mem_filter, Finset.mem_sdiff, List.mem_toFinset]
  have hcard := Finset.card_sdiff_add_card_eq_card htested
  rw [List.toFinset_card_of_nodup hnodup, List.length_map, Nat.card_Icc] at hcard
  rw [untested, hrest, hcard, Nat.add_sub_cancel]

/-- **The shares of the turns, and one half for every other variable, make up one model.** -/
theorem Travelled.prod_share {turns : List Turn} (h : Travelled n 0 φ turns)
    (hmodels : models n φ ≠ 0) :
    (turns.map Turn.share).prod * (1 / 2) ^ untested n turns = 1 / (models n φ : ℚ) := by
  have hne : (models n φ : ℚ) ≠ 0 := Nat.cast_ne_zero.2 hmodels
  have hpow : (2 : ℚ) ^ turns.length ≠ 0 := pow_ne_zero _ two_ne_zero
  -- a variable is on a turn, or one half stands for it
  have hvars : (2 : ℚ) ^ n = 2 ^ untested n turns * 2 ^ turns.length := by
    rw [← pow_add, h.untested_add_length]
  have hprod := mul_right_cancel₀ hpow (h.share.trans hvars)
  rw [one_div_pow, mul_one_div, div_eq_div_iff (pow_ne_zero _ two_ne_zero) hne, one_mul, mul_comm]
  exact hprod

theorem Reduced.trailWithin_spec (hs : s.Reduced) (hn : n < lastVariable) (ρ : Assignment) :
    ∀ (fuel : Nat) (e : Edge) (φ : Assignment → Bool) (v : Nat) (known : Counts),
      e.index ≤ fuel → s.Denotes e φ → Within n φ → s.Under v e → s.Knows n known →
      φ ρ = true → ∃ turns known', s.trailWithin n ρ fuel e known = .ok (turns, known') ∧
        Travelled n v φ turns := by
  intro fuel
  induction fuel with
  | zero =>
    intro e φ v known hi he
    exact absurd he.has.1 (by omega)
  | succ fuel ih =>
    intro e φ v known hi he hφ hu hknown hρ
    cases ht : e.isTerminal with
    | true =>
      refine ⟨[], known, trailWithin_of_isTerminal ht ρ, ?_⟩
      rcases (Edge.isTerminal_iff e).1 ht with rfl | rfl
      · rw [he.unique (denotes_zero hs)] at hρ
        cases hρ
      · rw [he.unique (denotes_one hs)]
        exact travelled_nil n v
    | false =>
      obtain ⟨node, hnode, hform⟩ := hs.get? he.has ht
      have hvn := he.var_le hs hφ ht hnode
      obtain ⟨lows, highs, known₁, known₂, hlows, hhighs, hknown₂, -, hmodels₀, hmodels₁⟩ :=
        hs.count_sides hn he hφ ht hnode hform.var_pos hvn hknown
      -- the assignment also satisfies the side that it goes to
      have hside : φ (ρ.set node.var (ρ node.var)) = true := by
        rw [Assignment.set_eq_self, hρ]
      have hmodels : models n (fun σ => φ (σ.set node.var (ρ node.var))) ≠ 0 := fun hnone =>
        absurd ((hφ.fix node.var _).eq_false hnone ρ) (by simp [hside])
      have hlt := hform.side_lt (ρ node.var)
      obtain ⟨turns, known₃, hrest, htravelled⟩ := ih (e.along (node.side (ρ node.var))) _ node.var
        known₂ (by rw [Edge.index_along]; omega) (he.side hs ht hnode _) (hφ.fix node.var _)
        ((hform.side_under _).along e) hknown₂ hside
      exact ⟨_, known₃, trailWithin_of_sides he.has ht hnode hform hlows hhighs hrest,
        htravelled.cons (hu.lt_var ht hnode) ⟨hform.var_pos, hvn, hmodels₀, hmodels₁⟩ hmodels⟩

/-- **Every satisfying assignment has its turns.** -/
theorem Reduced.trail_spec (hs : s.Reduced) (hn : n < lastVariable) (he : s.Denotes e φ)
    (hφ : Within n φ) {ρ : Assignment} (hρ : φ ρ = true) :
    ∃ turns, s.trail n e ρ = .ok turns ∧ Travelled n 0 φ turns := by
  obtain ⟨turns, known, htrail, htravelled⟩ := hs.trailWithin_spec hn ρ s.nodes.size e φ 0 ∅
    (Nat.le_of_lt he.has.2) he hφ (Under.zero hs he.has) (knows_empty s n) hρ
  refine ⟨turns, ?_, htravelled⟩
  show Prod.fst <$> s.trailWithin n ρ s.nodes.size e ∅ = _
  rw [htrail]
  rfl

/-! ## Chances -/

/-- Every model is drawn with the same chance. -/
theorem Reduced.chance_sample (hs : s.Reduced) (hn : n < lastVariable) (he : s.Denotes e φ)
    (hφ : Within n φ) (hzero : e ≠ .zero) {out : Fin n → Bool} (hout : φ (assign out) = true) :
    (s.sample e n).run.chance (fun r => r = .ok (some (Array.ofFn out))) =
      1 / (models n φ : ℚ) := by
  rw [Sampler.chance, hs.sample_mean hn he hφ hzero]
  congr 1
  rw [Finset.sum_eq_single out]
  · simp [hout]
  · intro values _ hne
    have harrays : Array.ofFn values ≠ Array.ofFn out := fun heq =>
      hne (List.ofFn_injective (by simpa using congrArg Array.toList heq))
    simp [harrays]
  · exact fun hnot => absurd (Finset.mem_univ out) hnot

/-- A walk over so many variables that the place after them has no number stops at its first
node. -/
theorem Reduced.sampleWithin_of_last (hs : s.Reduced) (hn : lastVariable ≤ n) (he : s.Has e)
    (ht : e.isTerminal = false) (values : Array Bool) :
    (s.sampleWithin n (fuel + 1) ∅ e values).run = .done (.error .uncounted) := by
  obtain ⟨node, hnode, hform⟩ := hs.get? he ht
  rw [sampleWithin, if_neg (by rw [ht]; exact Bool.false_ne_true), draw_ask (node_of_get? hnode)]
  by_cases hvn : n < node.var
  · rw [if_pos hvn]
    rfl
  · rw [if_neg hvn]
    show (Draw.ofExcept (s.through e node.low) >>= _ : Draw _).run = _
    rw [draw_ask (through_of_has (hform.has_low he) e),
      draw_ask (through_of_has (hform.has_high he) e)]
    show (Draw.ofExcept (s.countAfter n node.var (e.along node.low) ∅) >>= _ : Draw _).run = _
    rw [hs.countAfter_of_last hn ((hform.has_low he).along e)]
    rfl

/-- **Nothing is drawn over all variable numbers that there are.** -/
theorem Reduced.sample_of_last (hs : s.Reduced) (hn : lastVariable ≤ n) (he : s.Has e)
    (ht : e.isTerminal = false) : (s.sample e n).run.Always fun r => r = .error .uncounted := by
  have hzero : e ≠ .zero := by
    rintro rfl
    cases ht
  obtain ⟨fuel, hfuel⟩ : ∃ k, s.nodes.size = k + 1 :=
    ⟨s.nodes.size - 1, by have := hs.two_le_size; omega⟩
  rw [run_sample hzero, hfuel]
  refine (Sampler.always_coins n).bind fun bits _ => ?_
  rw [hs.sampleWithin_of_last hn he ht]
  exact rfl

/-- The literal of the first variable is on the variables up to the last number, and there is
neither a count nor a draw over them. -/
theorem firstLiteral_not_sampled :
    firstLiteral.Reached ∧ firstLiteral.Has (.ofIndex 2) ∧ Edge.ofIndex 2 ≠ .zero ∧
    firstLiteral.OnVariables lastVariable (.ofIndex 2) ∧
    firstLiteral.count (.ofIndex 2) lastVariable = .error .uncounted ∧
    (firstLiteral.sample (.ofIndex 2) lastVariable).run.Always fun r => r = .error .uncounted := by
  have hreached := reached_firstLiteral
  have he : firstLiteral.Has (.ofIndex 2) := ⟨by decide, by decide⟩
  have ht : (Edge.ofIndex 2).isTerminal = false := rfl
  have hzero : Edge.ofIndex 2 ≠ .zero := by decide
  have hvars : firstLiteral.OnVariables lastVariable (.ofIndex 2) :=
    .node rfl rfl (show 1 ≤ lastVariable by decide) (.terminal rfl) (.terminal rfl)
  -- nothing more is needed of the store and the edge, and the draw must not be unfolded
  generalize Edge.ofIndex 2 = e at *
  generalize firstLiteral = s at *
  have hs := hreached.valid.reduced
  exact ⟨hreached, he, hzero, hvars, hs.count_of_last (Nat.le_refl _) he,
    hs.sample_of_last (Nat.le_refl _) he ht⟩

/-- **Draws are uniform.** If the place after the variables `1, …, n` has a number, there is a count
of the solutions over them. Then, whatever is drawn, the result is an assignment to these variables
that satisfies the edge. A walk only comes to nodes on the variables, asks there for a
number below the sum of the counts of both sides, which is not zero, and goes to a side with a
count that is not zero. With ideal draws, every satisfying assignment is the result with a chance
of one over the count; and so is the product of the shares of the turns on its way, times one half
for every variable that no turn is on. -/
theorem Reached.sample_exact (h : s.Reached) (he : s.Has e) (hzero : e ≠ .zero)
    (hn : n < lastVariable) (hvars : s.OnVariables n e) :
    ∃ c, s.count e n = .ok c ∧
      ((s.sample e n).run.Always fun r => ∃ out : Fin n → Bool,
        r = .ok (some (Array.ofFn out)) ∧ s.evaluate e (assign out) = .ok true) ∧
      (∀ known f, s.Visits n e known f → f.isTerminal = false →
        ∃ node lows highs known₁ known₂, s.nodes[f.index]? = some node ∧ node.var ≤ n ∧
          s.countAfter n node.var (f.along node.low) known = .ok (lows, known₁) ∧
          s.countAfter n node.var (f.along node.high) known₁ = .ok (highs, known₂) ∧
          0 < lows + highs ∧ (∀ i < lows + highs, 0 < if i < highs then highs else lows) ∧
          ∀ fuel (values : Fin n → Bool), s.walk n (fuel + 1) known f values =
            .pick (lows + highs) fun i =>
              s.walk n fuel known₂ (f.along (node.side (decide (i < highs))))
                (put values node.var (decide (i < highs)))) ∧
      ∀ out : Fin n → Bool, s.evaluate e (assign out) = .ok true →
        (s.sample e n).run.chance (fun r => r = .ok (some (Array.ofFn out))) = 1 / (c : ℚ) ∧
        ∃ turns, s.trail n e (assign out) = .ok turns ∧
          (∀ t ∈ turns, t.var ≤ n ∧ 0 < t.taken) ∧
          (turns.map Turn.share).prod * (1 / 2) ^ untested n turns = 1 / (c : ℚ) := by
  have hs := h.valid.reduced
  obtain ⟨φ, hφ⟩ := hs.denotes he
  have hwithin := hvars.within hs hφ
  refine ⟨models n φ, hs.count_eq_models hn hφ hwithin, ?_, fun known f hvisits ht => ?_,
    fun out hout => ?_⟩
  · refine (hs.sample_always hn hφ hwithin hzero).mono fun r hr => ?_
    obtain ⟨out, hr, hout⟩ := hr
    exact ⟨out, hr, by rw [hφ.evaluate, hout]⟩
  · obtain ⟨-, hknown, ψ, hf, hψ⟩ := hvisits.spec hs hn hφ hwithin hzero
    obtain ⟨node, hnode, hform⟩ := hs.get? hf.has ht
    have hvn := hf.var_le hs hψ ht hnode
    obtain ⟨lows, highs, known₁, known₂, hlows, hhighs, -, hpos, -, -⟩ :=
      hs.count_sides hn hf hψ ht hnode hform.var_pos hvn hknown
    exact ⟨node, lows, highs, known₁, known₂, hnode, hvn, hlows, hhighs, hpos,
      fun i hi => pos_of_pick hi, fun fuel values =>
        walk_of_sides hf.has ht hnode hform hform.var_pos hvn hlows hhighs hpos values⟩
  · have hsat : φ (assign out) = true := by
      rw [hφ.evaluate] at hout
      exact Except.ok.inj hout
    obtain ⟨turns, htrail, htravelled⟩ := hs.trail_spec hn hφ hwithin hsat
    have hmodels : models n φ ≠ 0 := fun hnone =>
      absurd (hwithin.eq_false hnone (assign out)) (by simp [hsat])
    exact ⟨hs.chance_sample hn hφ hwithin hzero hsat, turns, htrail,
      fun t ht => ⟨(htravelled.bounds t ht).2, htravelled.taken t ht⟩,
      htravelled.prod_share hmodels⟩

/-- The new store with the literal of the second variable. -/
def secondLiteral : Store where
  nodes := empty.nodes.push ⟨2, .zero, .one⟩
  unique := empty.unique.insert ⟨2, .zero, .one⟩ 2
  computed := ∅
  bounded := true

/-- The store with a node for the disjunction of the first two variables too. -/
def disjunction : Store where
  nodes := secondLiteral.nodes.push ⟨1, .ofIndex 2, .one⟩
  unique := secondLiteral.unique.insert ⟨1, .ofIndex 2, .one⟩ 3
  computed := ∅
  bounded := true

theorem reached_disjunction : disjunction.Reached := by
  have hliteral : empty.Allows (.literal 2) := ⟨Nat.two_pos, by decide⟩
  have hsecond : (Call.literal 2).run empty = Except.ok ([.ofIndex 2], secondLiteral) := rfl
  have hbranch : secondLiteral.Allows (.branch 1 (.ofIndex 2) .one) :=
    ⟨⟨Nat.one_pos, by decide⟩, ⟨⟨by decide, by decide⟩, Or.inr ⟨⟨2, .zero, .one⟩, rfl, by decide⟩⟩,
      ⟨by decide, by decide⟩, Or.inl rfl⟩
  have hboth : (Call.branch 1 (.ofIndex 2) .one).run secondLiteral =
      Except.ok ([.ofIndex 3], disjunction) := rfl
  exact ((@Reached.new 16 empty rfl).call hliteral hsecond).call hbranch hboth

/-- Two of the three assignments that satisfy a disjunction go another way than the third one, and
still each of them is drawn with a chance of one third. -/
theorem disjunction_sample_exact :
    disjunction.trail 2 (.ofIndex 3) (assign fun i : Fin 2 => decide (i = 1)) =
      .ok [⟨1, 1, 2, false⟩, ⟨2, 0, 1, true⟩] ∧
    (disjunction.sample (.ofIndex 3) 2).run.chance (fun r => r = .ok (some #[false, true])) =
      1 / 3 := by
  have hconstant : ∀ e : Edge, e.isTerminal = true → disjunction.OnVariables 2 e := fun e ht =>
    .terminal ht
  have hsecond : disjunction.OnVariables 2 (.ofIndex 2) :=
    .node rfl rfl (Nat.le_refl 2) (hconstant _ rfl) (hconstant _ rfl)
  have hvars : disjunction.OnVariables 2 (.ofIndex 3) :=
    .node rfl rfl (Nat.le_succ 1) hsecond (hconstant _ rfl)
  obtain ⟨c, hcount, -, -, hexact⟩ :=
    reached_disjunction.sample_exact ⟨by decide, by decide⟩ (by decide) (by decide) hvars
  have hthree : disjunction.count (.ofIndex 3) 2 = .ok 3 := rfl
  obtain rfl : 3 = c := Except.ok.inj (hthree.symm.trans hcount)
  exact ⟨rfl, (hexact (fun i => decide (i = 1)) rfl).1⟩

end Stimulus.Diagram.Store

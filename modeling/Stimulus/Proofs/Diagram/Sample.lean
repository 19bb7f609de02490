import Mathlib.Tactic.LinearCombination
import Stimulus.Diagram.Sample
import Stimulus.Proofs.Diagram.Count
import Stimulus.Proofs.Random.Sampler

/-!
# Drawn assignments are uniform

A draw from a function meets no fault and ends in an assignment that satisfies it,
whatever the answers are (`Store.Reduced.sample_always`), or at once in nothing if the
function is false (`Store.sample_zero`). Under ideal draws every satisfying assignment is
equally likely: the mean of a quantity over the draw is its mean over the models
(`Store.Reduced.sample_mean`).

The walk only changes variables from its edge on (`Store.Reduced.walk_always`), so
the value that is drawn beforehand for the variable of a node may be replaced by
the side that is taken. This carries the induction behind `Store.Reduced.walk_mean`,
where each side has its models as its weight.
-/

set_option autoImplicit false

namespace Stimulus.Diagram.Store

variable {s : Store} {n v fuel : Nat} {e : Edge} {node : Node} {known : Counts}
  {φ : Assignment → Bool}

/-! ## One step of the walk -/

/-- The walk from `e` over values drawn before. -/
def walk (s : Store) (n fuel : Nat) (known : Counts) (e : Edge) (values : Fin n → Bool) :
    Sampler (Except Fault (Array Bool)) :=
  (s.sampleWithin n fuel known e (Array.ofFn values)).run

theorem draw_ask {α β : Type} {y : Except Fault α} {a : α} (hy : y = .ok a) (k : α → Draw β) :
    (Draw.ofExcept y >>= k) = k a := by
  subst hy
  rfl

theorem ofFn_put (values : Fin n → Bool) (hv : 0 < v) (b : Bool) :
    (Array.ofFn values).setIfInBounds (v - 1) b = Array.ofFn (put values v b) := by
  refine Array.ext (by simp) fun i hi hi' => ?_
  rw [Array.size_setIfInBounds, Array.size_ofFn] at hi
  rw [Array.getElem_ofFn, Array.getElem_setIfInBounds (by rwa [Array.size_ofFn]),
    Array.getElem_ofFn]
  unfold put
  by_cases hiv : v - 1 = i
  · rw [if_pos hiv, if_pos (by show i + 1 = v; omega)]
  · rw [if_neg hiv, if_neg (by show i + 1 ≠ v; omega)]

theorem walk_of_isTerminal (ht : e.isTerminal = true) (values : Fin n → Bool) :
    s.walk n fuel known e values = .done (.ok (Array.ofFn values)) := by
  unfold walk
  cases fuel with
  | zero =>
    unfold sampleWithin
    rw [if_pos ht]
    rfl
  | succ fuel =>
    unfold sampleWithin
    rw [if_pos ht]
    rfl

/-- The walk goes to a side in proportion to the counts of the sides. -/
theorem walk_of_sides (he : s.Has e) (ht : e.isTerminal = false)
    (hnode : s.nodes[e.index]? = some node) (hform : s.NodeForm e.index node)
    (hv : 0 < node.var) (hvn : node.var ≤ n) {known₁ known₂ : Counts} {lows highs : Nat}
    (hlows : s.countAfter n node.var (e.along node.low) known = .ok (lows, known₁))
    (hhighs : s.countAfter n node.var (e.along node.high) known₁ = .ok (highs, known₂))
    (hpos : 0 < lows + highs) (values : Fin n → Bool) :
    s.walk n (fuel + 1) known e values = .pick (lows + highs) fun i =>
      s.walk n fuel known₂ (e.along (node.side (decide (i < highs))))
        (put values node.var (decide (i < highs))) := by
  unfold walk
  simp only [← ofFn_put _ hv]
  rw [sampleWithin, if_neg (by rw [ht]; exact Bool.false_ne_true),
    draw_ask (node_of_get? hnode), if_neg (Nat.not_lt.2 hvn)]
  show (Draw.ofExcept (s.through e node.low) >>= _ : Draw _).run = _
  rw [draw_ask (through_of_has (hform.has_low he) e),
    draw_ask (through_of_has (hform.has_high he) e)]
  show (Draw.ofExcept (s.countAfter n node.var (e.along node.low) known) >>= _ : Draw _).run = _
  rw [draw_ask hlows]
  show (Draw.ofExcept (s.countAfter n node.var (e.along node.high) known₁) >>= _ : Draw _).run = _
  rw [draw_ask hhighs]
  dsimp only
  rw [if_neg (Nat.ne_of_gt hpos)]
  show Sampler.pick (lows + highs) _ = _
  refine congrArg _ (funext fun i => ?_)
  -- the walk names both sides, `Node.side` picks one
  have hside : ∀ b, e.along (node.side b) =
      if b = true then e.along node.high else e.along node.low := by
    rintro (_ | _) <;> rfl
  rw [hside]
  rfl

/-- The counts of both sides are known, and one of them is not zero. -/
theorem Reduced.count_sides (hs : s.Reduced) (hn : n < lastVariable) (he : s.Denotes e φ)
    (hφ : Within n φ) (ht : e.isTerminal = false) (hnode : s.nodes[e.index]? = some node)
    (hv : 0 < node.var) (hvn : node.var ≤ n) (hknown : s.Knows n known) :
    ∃ lows highs known₁ known₂,
      s.countAfter n node.var (e.along node.low) known = .ok (lows, known₁) ∧
      s.countAfter n node.var (e.along node.high) known₁ = .ok (highs, known₂) ∧
      s.Knows n known₂ ∧ 0 < lows + highs ∧
      lows * 2 ^ node.var = models n (fun ρ => φ (ρ.set node.var false)) ∧
      highs * 2 ^ node.var = models n (fun ρ => φ (ρ.set node.var true)) := by
  have hform := hs.form _ node (he.has.two_le ht) hnode
  obtain ⟨lows, known₁, hlows, hknown₁, hmodels₀⟩ := hs.countAfter_spec hn
    (he.side hs ht hnode false) (hφ.fix node.var false) ((hform.side_under false).along e) hvn
    hknown
  obtain ⟨highs, known₂, hhighs, hknown₂, hmodels₁⟩ := hs.countAfter_spec hn
    (he.side hs ht hnode true) (hφ.fix node.var true) ((hform.side_under true).along e) hvn hknown₁
  -- the function of a node is not false, so it has models
  have hpos : 0 < lows + highs := by
    refine Nat.pos_of_ne_zero fun hzero => ?_
    have hsplit := models_split φ hv hvn
    rw [← hmodels₀, ← hmodels₁, ← Nat.add_mul, hzero, Nat.zero_mul] at hsplit
    have hfalse : φ = fun _ => false :=
      funext (hφ.eq_false ((Nat.mul_eq_zero.1 hsplit.symm).resolve_left (by decide)))
    subst hfalse
    rw [hs.canonical he (denotes_zero hs)] at ht
    cases ht
  exact ⟨lows, highs, known₁, known₂, hlows, hhighs, hknown₂, hpos, hmodels₀, hmodels₁⟩

/-- The counts of both sides give the chances of the sides. -/
theorem Reduced.walk_step (hs : s.Reduced) (hn : n < lastVariable) (he : s.Denotes e φ)
    (hφ : Within n φ) (ht : e.isTerminal = false) (hnode : s.nodes[e.index]? = some node)
    (hv : 0 < node.var) (hvn : node.var ≤ n) (fuel : Nat) (hknown : s.Knows n known) :
    ∃ known' lows highs, s.Knows n known' ∧ 0 < lows + highs ∧
      lows * 2 ^ node.var = models n (fun ρ => φ (ρ.set node.var false)) ∧
      highs * 2 ^ node.var = models n (fun ρ => φ (ρ.set node.var true)) ∧
      ∀ values : Fin n → Bool, s.walk n (fuel + 1) known e values =
        .pick (lows + highs) fun i =>
          s.walk n fuel known' (e.along (node.side (decide (i < highs))))
            (put values node.var (decide (i < highs))) := by
  have hform := hs.form _ node (he.has.two_le ht) hnode
  obtain ⟨lows, highs, known₁, known₂, hlows, hhighs, hknown₂, hpos, hmodels₀, hmodels₁⟩ :=
    hs.count_sides hn he hφ ht hnode hv hvn hknown
  exact ⟨known₂, lows, highs, hknown₂, hpos, hmodels₀, hmodels₁, fun values =>
    walk_of_sides he.has ht hnode hform hv hvn hlows hhighs hpos values⟩

/-! ## What a draw ends in -/

theorem Under.zero (hs : s.Reduced) (he : s.Has e) : s.Under 0 e := by
  cases ht : e.isTerminal with
  | true => exact Or.inl ht
  | false =>
    obtain ⟨node, hnode, hform⟩ := hs.get? he ht
    exact Or.inr ⟨node, hnode, hform.var_pos⟩

/-- The top variable of an edge that starts after `v`. -/
theorem Under.lt_var (hu : s.Under v e) (ht : e.isTerminal = false)
    (hnode : s.nodes[e.index]? = some node) : v < node.var := by
  rcases hu with hu | ⟨node', hnode', hlt⟩
  · rw [hu] at ht
    cases ht
  · rw [hnode] at hnode'
    cases hnode'
    exact hlt

/-- A result of a walk from `e` over some values: those of the variables up to `v` are kept, and
the function holds unless the edge is the constant false. -/
def Drawn (n v : Nat) (e : Edge) (φ : Assignment → Bool) (values : Fin n → Bool)
    (r : Except Fault (Array Bool)) : Prop :=
  ∃ out : Fin n → Bool, r = .ok (Array.ofFn out) ∧ (∀ u ≤ v, assign out u = assign values u) ∧
    (e ≠ .zero → φ (assign out) = true)

/-- A walk that is at its end. -/
theorem Reduced.drawn_self (hs : s.Reduced) (he : s.Denotes e φ) (ht : e.isTerminal = true)
    (values : Fin n → Bool) : Drawn n v e φ values (.ok (Array.ofFn values)) := by
  refine ⟨values, rfl, fun _ _ => rfl, fun hzero => ?_⟩
  -- every assignment satisfies the constant true
  obtain rfl := ((Edge.isTerminal_iff e).1 ht).resolve_left hzero
  rw [he.unique (denotes_one hs)]

/-- A walk to a side with models ends in an assignment that satisfies the node. -/
theorem Drawn.of_side {b : Bool} {values : Fin n → Bool} {r : Except Fault (Array Bool)}
    (hv : 0 < node.var) (hvn : node.var ≤ n) (hlt : v < node.var)
    (hside : e.along (node.side b) ≠ .zero)
    (h : Drawn n node.var (e.along (node.side b)) (fun ρ => φ (ρ.set node.var b))
      (put values node.var b) r) :
    Drawn n v e φ values r := by
  obtain ⟨out, hr, hkeep, hout⟩ := h
  rw [assign_put values hv hvn b] at hkeep
  refine ⟨out, hr, fun u hu => ?_, fun _ => ?_⟩
  · rw [hkeep u (by omega), Assignment.set_of_ne _ _ (by omega)]
  · -- the walk went on below the variable, so what was put there is still in place
    have hb : assign out node.var = b := by
      rw [hkeep _ (Nat.le_refl _), Assignment.set_self]
    have hsat : φ ((assign out).set node.var b) = true := hout hside
    have hset : (assign out).set node.var b = assign out := by
      nth_rewrite 1 [← hb]
      exact Assignment.set_eq_self _ _
    rwa [hset] at hsat

/-- An edge with models does not lead to the constant false. -/
theorem Denotes.ne_zero_of_models (he : s.Denotes e φ) (hs : s.Reduced) {w k : Nat} (hw : 0 < w)
    (h : w * 2 ^ k = models n φ) : e ≠ .zero := by
  rintro rfl
  rw [he.unique (denotes_zero hs), models_zero] at h
  exact absurd h (Nat.ne_of_gt (Nat.mul_pos hw (Nat.two_pow_pos k)))

theorem Reduced.walk_always (hs : s.Reduced) (hn : n < lastVariable) :
    ∀ (fuel : Nat) (e : Edge) (φ : Assignment → Bool) (v : Nat) (known : Counts)
      (values : Fin n → Bool), e.index ≤ fuel → s.Denotes e φ → Within n φ → s.Under v e →
      s.Knows n known → (s.walk n fuel known e values).Always (Drawn n v e φ values) := by
  intro fuel
  induction fuel with
  | zero =>
    intro e φ v known values hi he
    exact absurd he.has.1 (by omega)
  | succ fuel ih =>
    intro e φ v known values hi he hφ hu hknown
    cases ht : e.isTerminal with
    | true =>
      rw [walk_of_isTerminal ht]
      exact hs.drawn_self he ht values
    | false =>
      obtain ⟨node, hnode, hform⟩ := hs.get? he.has ht
      have hv := hform.var_pos
      have hvn := he.var_le hs hφ ht hnode
      have hlt := hu.lt_var ht hnode
      obtain ⟨known', lows, highs, hknown', hpos, hmodels₀, hmodels₁, hwalk⟩ :=
        hs.walk_step hn he hφ ht hnode hv hvn fuel hknown
      -- what was put for the variable of the node is not touched again
      have hside : ∀ b : Bool, e.along (node.side b) ≠ .zero →
          (s.walk n fuel known' (e.along (node.side b))
            (put values node.var b)).Always (Drawn n v e φ values) := by
        intro b hne
        have hlt' := hform.side_lt b
        refine (ih _ _ node.var known' _ (by rw [Edge.index_along]; omega)
          (he.side hs ht hnode b) (hφ.fix node.var b) ((hform.side_under b).along e) hknown').mono
          fun r hr => hr.of_side hv hvn hlt hne
      rw [hwalk]
      refine ⟨hpos, fun i hi' => ?_⟩
      dsimp only
      -- a side is taken only if it has models
      by_cases hhigh : i < highs
      · rw [decide_eq_true hhigh]
        exact hside true ((he.side hs ht hnode true).ne_zero_of_models hs (by omega) hmodels₁)
      · rw [decide_eq_false hhigh]
        exact hside false ((he.side hs ht hnode false).ne_zero_of_models hs (by omega) hmodels₀)

theorem sample_zero (s : Store) (n : Nat) : (s.sample .zero n).run = .done (.ok none) := rfl

/-- A draw is a walk over values that are drawn together. -/
theorem run_sample (hzero : e ≠ .zero) :
    (s.sample e n).run = Sampler.coins n >>= fun bits =>
      (s.sampleWithin n s.nodes.size ∅ e bits.toArray).run >>= fun r => .done (r.map some) := by
  unfold sample
  rw [if_neg hzero]
  show (Sampler.coins n >>= fun bits => Sampler.done (Except.ok bits)) >>= _ = _
  rw [Sampler.bind_assoc]
  refine congrArg _ (funext fun bits => ?_)
  show (s.sampleWithin n s.nodes.size ∅ e bits.toArray).run >>= _ = _
  refine congrArg _ (funext fun r => ?_)
  cases r <;> rfl

/-- **Whatever the answers are, a draw ends in a satisfying assignment, unless there is none.** -/
theorem Reduced.sample_always (hs : s.Reduced) (hn : n < lastVariable) (he : s.Denotes e φ)
    (hφ : Within n φ) (hzero : e ≠ .zero) : (s.sample e n).run.Always fun r =>
      ∃ out : Fin n → Bool, r = .ok (some (Array.ofFn out)) ∧ φ (assign out) = true := by
  rw [run_sample hzero]
  refine (Sampler.always_coins n).bind fun bits hbits => ?_
  subst hbits
  -- no variable lies before the first one, so nothing needs to be kept
  have hwalk := hs.walk_always hn s.nodes.size e φ 0 ∅ bits.get (Nat.le_of_lt he.has.2) he hφ
    (Under.zero hs he.has) (knows_empty s _)
  unfold walk at hwalk
  rw [← List.toArray_ofFn, List.ofFn_get] at hwalk
  refine hwalk.bind fun r hr => ?_
  obtain ⟨out, rfl, -, hout⟩ := hr
  exact ⟨out, rfl, hout hzero⟩

/-! ## Means over a draw -/

/-- A quantity, counted only where the variable `v` has the value `b`. -/
def onSide (f : Except Fault (Array Bool) → ℚ) (v : Nat) (b : Bool) : Except Fault (Array Bool) → ℚ
  | .ok out => if out.getD (v - 1) false = b then f (.ok out) else 0
  | .error _ => 0

theorem onSide_ofFn (f : Except Fault (Array Bool) → ℚ) (out : Fin n → Bool) (hv : 0 < v)
    (hvn : v ≤ n) (b : Bool) : onSide f v b (.ok (Array.ofFn out)) =
      if assign out v = b then f (.ok (Array.ofFn out)) else 0 := by
  have hget : (Array.ofFn out).getD (v - 1) false = assign out v := by
    rw [assign_apply out hv hvn, Array.getD, dif_pos (by rw [Array.size_ofFn]; omega)]
    exact Array.getElem_ofFn _
  show (if (Array.ofFn out).getD (v - 1) false = b then f (.ok (Array.ofFn out)) else 0) = _
  rw [hget]

/-- The two sides of a variable together give the quantity where the function holds. -/
theorem sum_onSide (f : Except Fault (Array Bool) → ℚ) (φ : Assignment → Bool) (hv : 0 < v)
    (hvn : v ≤ n) :
    (∑ values : Fin n → Bool, if φ ((assign values).set v false) then
        onSide f v false (.ok (Array.ofFn values)) else 0) +
      (∑ values : Fin n → Bool, if φ ((assign values).set v true) then
        onSide f v true (.ok (Array.ofFn values)) else 0) =
      ∑ values : Fin n → Bool, if φ (assign values) then f (.ok (Array.ofFn values)) else 0 := by
  rw [← Finset.sum_add_distrib]
  refine Finset.sum_congr rfl fun values _ => ?_
  rw [onSide_ofFn f values hv hvn, onSide_ofFn f values hv hvn]
  have hset := Assignment.set_eq_self (assign values) v
  cases hb : assign values v with
  | false =>
    rw [hb] at hset
    rw [hset, if_pos rfl, if_neg Bool.false_ne_true, ite_self, add_zero]
  | true =>
    rw [hb] at hset
    rw [hset, if_pos rfl, if_neg Bool.false_ne_true.symm, ite_self, zero_add]

/-- The walk to a side, after its value has taken the place of the one drawn beforehand, is the
walk after a draw that gave that value. -/
theorem Reduced.sum_walk_put (hs : s.Reduced) (hn : n < lastVariable) (he : s.Denotes e φ)
    (hφ : Within n φ) (hu : s.Under v e) (hfuel : e.index ≤ fuel) (hknown : s.Knows n known)
    (hv : 0 < v) (hvn : v ≤ n) (f : Except Fault (Array Bool) → ℚ) (b : Bool) :
    ∑ values : Fin n → Bool, (s.walk n fuel known e (put values v b)).mean f =
      2 * ∑ values : Fin n → Bool, (s.walk n fuel known e values).mean (onSide f v b) := by
  have halways : ∀ values : Fin n → Bool, (s.walk n fuel known e values).Always fun r =>
      ∃ out : Fin n → Bool, r = .ok (Array.ofFn out) ∧ assign out v = assign values v :=
    fun values => (hs.walk_always hn fuel e φ v known values hfuel he hφ hu hknown).mono
      fun r hr => by
        obtain ⟨out, hr, hkeep, -⟩ := hr
        exact ⟨out, hr, hkeep v (Nat.le_refl v)⟩
  have hput : ∀ (values : Fin n → Bool) c, assign (put values v c) v = c := fun values c => by
    rw [assign_put values hv hvn, Assignment.set_self]
  -- with `b` put for `v`, the walk ends where `v` is `b`
  have hsame : ∀ values : Fin n → Bool, (s.walk n fuel known e (put values v b)).mean f =
      (s.walk n fuel known e (put values v b)).mean (onSide f v b) := fun values =>
    (halways _).mean_congr fun r hr => by
      obtain ⟨out, rfl, hout⟩ := hr
      rw [onSide_ofFn f out hv hvn, if_pos (hout.trans (hput values b))]
  -- with another value put, it ends elsewhere
  have hother : ∀ c, c ≠ b → ∀ values : Fin n → Bool,
      (s.walk n fuel known e (put values v c)).mean (onSide f v b) = 0 := fun c hc values => by
    rw [(halways _).mean_congr (g := fun _ => 0), Sampler.mean_const 0 (halways _)]
    intro r hr
    obtain ⟨out, rfl, hout⟩ := hr
    rw [onSide_ofFn f out hv hvn, hout, hput, if_neg hc]
  have hsum := sum_put (fun values : Fin n → Bool =>
    (s.walk n fuel known e values).mean (onSide f v b)) hv hvn
  rw [Finset.sum_congr rfl fun values _ => hsame values, two_mul, ← hsum]
  cases b with
  | false =>
    rw [Finset.sum_eq_zero fun values _ => hother true Bool.false_ne_true.symm values, add_zero]
  | true =>
    rw [Finset.sum_eq_zero fun values _ => hother false Bool.false_ne_true values, zero_add]

/-- Sides that are taken in proportion to their models share with the node what its models share. -/
theorem share_of_sides {lows highs m p N A B F G : ℚ} (hne : lows + highs ≠ 0)
    (hm : 2 * m = (lows + highs) * p) (hlow : lows * p * A = N * F)
    (hhigh : highs * p * B = N * G) :
    m * ((lows * (2 * A) + highs * (2 * B)) / (lows + highs)) = N * (F + G) := by
  rw [mul_div_assoc', div_eq_iff hne]
  linear_combination (lows * A + highs * B) * hm + (lows + highs) * (hlow + hhigh)

/-- **Every model has the same share in the mean over all walks.** -/
theorem Reduced.walk_mean (hs : s.Reduced) (hn : n < lastVariable) :
    ∀ (fuel : Nat) (e : Edge) (φ : Assignment → Bool) (known : Counts)
      (f : Except Fault (Array Bool) → ℚ), e.index ≤ fuel → s.Denotes e φ → Within n φ →
      s.Knows n known →
      (models n φ : ℚ) * ∑ values : Fin n → Bool, (s.walk n fuel known e values).mean f =
        2 ^ n * ∑ values : Fin n → Bool,
          if φ (assign values) then f (.ok (Array.ofFn values)) else 0 := by
  intro fuel
  induction fuel with
  | zero =>
    intro e φ known f hi he
    exact absurd he.has.1 (by omega)
  | succ fuel ih =>
    intro e φ known f hi he hφ hknown
    cases ht : e.isTerminal with
    | true =>
      simp only [walk_of_isTerminal ht, Sampler.mean]
      rcases (Edge.isTerminal_iff e).1 ht with rfl | rfl
      · rw [he.unique (denotes_zero hs), models_zero]
        simp
      · rw [he.unique (denotes_one hs), models_one]
        simp
    | false =>
      obtain ⟨node, hnode, hform⟩ := hs.get? he.has ht
      have hv := hform.var_pos
      have hvn := he.var_le hs hφ ht hnode
      obtain ⟨known', lows, highs, hknown', hpos, hmodels₀, hmodels₁, hwalk⟩ :=
        hs.walk_step hn he hφ ht hnode hv hvn fuel hknown
      have hfuel : ∀ b, (e.along (node.side b)).index ≤ fuel := fun b => by
        have hlt := hform.side_lt b
        rw [Edge.index_along]
        omega
      -- the induction is used for the quantity on one side of the variable
      have hput : ∀ b, _ := fun b => hs.sum_walk_put hn (he.side hs ht hnode b)
        (hφ.fix node.var b) ((hform.side_under b).along e) (hfuel b) hknown' hv hvn f b
      have hih : ∀ b, _ := fun b => ih (e.along (node.side b)) _ known' (onSide f node.var b)
        (hfuel b) (he.side hs ht hnode b) (hφ.fix node.var b) hknown'
      have hne : (lows + highs : ℚ) ≠ 0 := by
        exact_mod_cast Nat.ne_of_gt hpos
      have hsplit : (2 : ℚ) * models n φ = (lows + highs) * 2 ^ node.var := by
        have h := models_split φ hv hvn
        rw [← hmodels₀, ← hmodels₁, ← Nat.add_mul] at h
        exact_mod_cast h.symm
      have h₀ := hih false
      have h₁ := hih true
      rw [← hmodels₀] at h₀
      rw [← hmodels₁] at h₁
      push_cast at h₀ h₁
      rw [Finset.sum_congr rfl fun values _ => by rw [hwalk values],
        Sampler.sum_mean_pick_side f lows highs fun values b =>
          s.walk n fuel known' (e.along (node.side b)) (put values node.var b),
        hput false, hput true, ← sum_onSide f φ hv hvn]
      exact share_of_sides hne hsplit h₀ h₁

/-- **A draw is uniform**: the mean of a quantity over the draw is its mean over the models. -/
theorem Reduced.sample_mean (hs : s.Reduced) (hn : n < lastVariable) (he : s.Denotes e φ)
    (hφ : Within n φ) (hzero : e ≠ .zero) (f : Except Fault (Option (Array Bool)) → ℚ) :
    (s.sample e n).run.mean f = (∑ values : Fin n → Bool,
      if φ (assign values) then f (.ok (some (Array.ofFn values))) else 0) / models n φ := by
  -- a reduced edge other than the constant false has a model
  have hmodels : (models n φ : ℚ) ≠ 0 := by
    rw [Nat.cast_ne_zero]
    intro hnone
    have hfalse : φ = fun _ => false := funext (hφ.eq_false hnone)
    subst hfalse
    exact hzero (hs.canonical he (denotes_zero hs))
  have hpow : (2 : ℚ) ^ n ≠ 0 := pow_ne_zero n two_ne_zero
  have hwalk := hs.walk_mean hn s.nodes.size e φ ∅ (fun r => f (r.map some))
    (Nat.le_of_lt he.has.2) he hφ (knows_empty s n)
  rw [run_sample hzero, Sampler.mean_bind, Sampler.mean_coins, div_eq_div_iff hpow hmodels,
    mul_comm _ (models n φ : ℚ), mul_comm _ ((2 : ℚ) ^ n)]
  refine Eq.trans ?_ hwalk
  refine congrArg _ (Finset.sum_congr rfl fun values _ => ?_)
  rw [Sampler.mean_bind, List.toArray_ofFn]
  rfl

end Stimulus.Diagram.Store

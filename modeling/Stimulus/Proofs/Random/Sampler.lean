import Mathlib.Algebra.BigOperators.Field
import Mathlib.Algebra.Order.Field.Rat
import Mathlib.Data.Fintype.BigOperators
import Stimulus.Random.Sampler

/-!
# Ideal draws

A sampler is read in two ways. `Sampler.Always` says what holds of every value that it
may end in. `Sampler.mean` is the mean of a quantity over all answers, each equally
likely; `Sampler.chance` is the mean of a truth value.

Truth values that are drawn together are all lists of their length, each equally
likely (`Sampler.mean_coins`).
-/

set_option autoImplicit false

namespace Stimulus

namespace Sampler

variable {α β : Type} {P Q : α → Prop} {x : Sampler α}

theorem bind_assoc {γ : Type} (x : Sampler α) (k : α → Sampler β) (h : β → Sampler γ) :
    (x >>= k) >>= h = x >>= fun a => k a >>= h := by
  induction x with
  | done a => rfl
  | flip next ih => exact congrArg flip (funext ih)
  | pick bound next ih => exact congrArg (pick bound) (funext ih)

/-! ## What holds of every value -/

/-- Whatever the answers are, the sampler ends in a value with the property. -/
def Always (P : α → Prop) : Sampler α → Prop
  | done a => P a
  | flip next => ∀ b, (next b).Always P
  | pick bound next => 0 < bound ∧ ∀ i < bound, (next i).Always P

theorem Always.mono (h : x.Always P) (hPQ : ∀ a, P a → Q a) : x.Always Q := by
  induction x with
  | done a => exact hPQ a h
  | flip next ih => exact fun b => ih b (h b)
  | pick bound next ih => exact ⟨h.1, fun i hi => ih i (h.2 i hi)⟩

theorem Always.bind {R : β → Prop} {k : α → Sampler β} (h : x.Always P)
    (hk : ∀ a, P a → (k a).Always R) : (x >>= k).Always R := by
  induction x with
  | done a => exact hk a h
  | flip next ih => exact fun b => ih b (h b)
  | pick bound next ih => exact ⟨h.1, fun i hi => ih i (h.2 i hi)⟩

theorem run_pick (bound : Nat) (next : Nat → Sampler α) (g : Source) :
    (pick bound next).run g = (next (g.below bound).1).run (g.below bound).2 := by
  rw [Sampler.run]

/-- A source leads to one of the values of the sampler. -/
theorem Always.run (h : x.Always P) (g : Source) : P (x.run g).1 := by
  induction x generalizing g with
  | done a => exact h
  | flip next ih => exact ih _ (h _) _
  | pick bound next ih =>
    rw [run_pick]
    exact ih _ (h.2 _ (Source.below_lt h.1 g)) _

theorem run_bind (x : Sampler α) (k : α → Sampler β) (g : Source) :
    (x >>= k).run g = (k (x.run g).1).run (x.run g).2 := by
  induction x generalizing g with
  | done a => rfl
  | flip next ih => exact ih _ _
  | pick bound next ih =>
    rw [run_pick, ← ih]
    exact run_pick bound _ g

/-- Samplers that go on alike from every value that the first part can end in. -/
theorem Always.run_bind_congr {k k' : α → Sampler β} (h : x.Always P)
    (hk : ∀ a, P a → k a = k' a) (g : Source) : (x >>= k).run g = (x >>= k').run g := by
  rw [run_bind, run_bind, hk _ (h.run g)]

theorem always_coinsAfter (n : Nat) (taken : List Bool) :
    (coinsAfter n taken).Always fun bits => bits.length = n + taken.length := by
  induction n generalizing taken with
  | zero => exact List.length_reverse.trans (Nat.zero_add _).symm
  | succ n ih =>
    refine fun b => (ih (b :: taken)).mono fun bits hbits => ?_
    rw [hbits, List.length_cons]
    omega

theorem always_coins (n : Nat) : (coins n).Always fun bits => bits.length = n :=
  always_coinsAfter n []

/-! ## Means -/

/-- The mean of a quantity, where both truth values are equally likely and so are all numbers
below a bound. -/
def mean (f : α → ℚ) : Sampler α → ℚ
  | done a => f a
  | flip next => ((next false).mean f + (next true).mean f) / 2
  | pick bound next => (∑ i ∈ Finset.range bound, (next i).mean f) / bound

/-- The chance of a hit under ideal draws. -/
def chance (hit : α → Bool) (x : Sampler α) : ℚ := x.mean fun a => if hit a then 1 else 0

theorem mean_bind (f : β → ℚ) (x : Sampler α) (k : α → Sampler β) :
    (x >>= k).mean f = x.mean fun a => (k a).mean f := by
  induction x with
  | done a => rfl
  | flip next ih =>
    -- the mean of a bind opens answer by answer
    show ((next false >>= k).mean f + (next true >>= k).mean f) / 2 = _
    rw [ih, ih]
    rfl
  | pick bound next ih =>
    show (∑ i ∈ Finset.range bound, (next i >>= k).mean f) / bound = _
    rw [Finset.sum_congr rfl fun i _ => ih i]
    rfl

/-- Only the values that a sampler can end in count for a mean. -/
theorem Always.mean_congr (h : x.Always P) {f g : α → ℚ} (hfg : ∀ a, P a → f a = g a) :
    x.mean f = x.mean g := by
  induction x with
  | done a => exact hfg a h
  | flip next ih =>
    show ((next false).mean f + (next true).mean f) / 2 = _
    rw [ih false (h false), ih true (h true)]
    rfl
  | pick bound next ih =>
    show (∑ i ∈ Finset.range bound, (next i).mean f) / bound = _
    rw [Finset.sum_congr rfl fun i hi => ih i (h.2 i (Finset.mem_range.1 hi))]
    rfl

theorem mean_const (c : ℚ) (h : x.Always P) : (x.mean fun _ => c) = c := by
  induction x with
  | done a => rfl
  | flip next ih =>
    show ((next false).mean _ + (next true).mean _) / 2 = c
    rw [ih false (h false), ih true (h true), add_self_div_two]
  | pick bound next ih =>
    show (∑ i ∈ Finset.range bound, (next i).mean _) / bound = c
    have hbound : (bound : ℚ) ≠ 0 := Nat.cast_ne_zero.2 (Nat.ne_of_gt h.1)
    rw [Finset.sum_congr rfl fun i hi => ih i (h.2 i (Finset.mem_range.1 hi)), Finset.sum_const,
      Finset.card_range, nsmul_eq_mul, mul_div_cancel_left₀ c hbound]

/-- A choice between two sides, in proportion to their weights. -/
theorem mean_pick_side (f : α → ℚ) (lows highs : Nat) (next : Bool → Sampler α) :
    (pick (lows + highs) fun i => next (decide (i < highs))).mean f =
      (lows * (next false).mean f + highs * (next true).mean f) / (lows + highs) := by
  -- the first `highs` answers go to the high side, the rest to the low one
  have hhigh : ∑ i ∈ Finset.range highs, (next (decide (i < highs))).mean f =
      highs * (next true).mean f := by
    rw [Finset.sum_congr rfl fun i hi => by rw [decide_eq_true (Finset.mem_range.1 hi)],
      Finset.sum_const, Finset.card_range, nsmul_eq_mul]
  have hlow : ∑ i ∈ Finset.range lows, (next (decide (highs + i < highs))).mean f =
      lows * (next false).mean f := by
    rw [Finset.sum_congr rfl fun i _ => by
        rw [decide_eq_false (Nat.not_lt.2 (Nat.le_add_right highs i))],
      Finset.sum_const, Finset.card_range, nsmul_eq_mul]
  show (∑ i ∈ Finset.range (lows + highs), (next (decide (i < highs))).mean f) /
    ((lows + highs : Nat) : ℚ) = _
  rw [Nat.cast_add, Nat.add_comm lows highs, Finset.sum_range_add, hhigh, hlow, add_comm]

theorem sum_mean_pick_side {ι : Type} [Fintype ι] (f : α → ℚ) (lows highs : Nat)
    (next : ι → Bool → Sampler α) :
    ∑ x, (pick (lows + highs) fun i => next x (decide (i < highs))).mean f =
      (lows * ∑ x, (next x false).mean f + highs * ∑ x, (next x true).mean f) /
        (lows + highs) := by
  rw [Finset.mul_sum, Finset.mul_sum, ← Finset.sum_add_distrib, Finset.sum_div]
  exact Finset.sum_congr rfl fun x _ => mean_pick_side f lows highs (next x)

/-! ## Truth values drawn together -/

/-- Lists of truth values by their first one. -/
theorem sum_cons {n : Nat} (f : (Fin (n + 1) → Bool) → ℚ) :
    ∑ values, f values =
      (∑ values : Fin n → Bool, f (Fin.cons false values)) +
        ∑ values, f (Fin.cons true values) := by
  rw [← (Fin.consEquiv fun _ : Fin (n + 1) => Bool).sum_comp f, Fintype.sum_prod_type,
    Fintype.sum_bool, add_comm]
  rfl

theorem mean_coinsAfter (n : Nat) (taken : List Bool) (f : List Bool → ℚ) :
    (coinsAfter n taken).mean f =
      (∑ values : Fin n → Bool, f (taken.reverse ++ List.ofFn values)) / 2 ^ n := by
  induction n generalizing taken with
  | zero =>
    rw [Fintype.sum_unique, List.ofFn_zero, List.append_nil, pow_zero, div_one]
    rfl
  | succ n ih =>
    -- the value drawn last stands at the end of what was taken
    have hcons : ∀ (b : Bool) (values : Fin n → Bool),
        (b :: taken).reverse ++ List.ofFn values =
          taken.reverse ++ List.ofFn (Fin.cons (α := fun _ => Bool) b values) := by
      intro b values
      rw [List.reverse_cons, List.append_assoc, List.singleton_append, List.ofFn_cons]
    show ((coinsAfter n (false :: taken)).mean f + (coinsAfter n (true :: taken)).mean f) / 2 = _
    rw [ih, ih, sum_cons, pow_succ, ← add_div, div_div]
    simp only [hcons]

/-- **Truth values drawn together are independent and fair.** -/
theorem mean_coins (n : Nat) (f : List Bool → ℚ) :
    (coins n).mean f = (∑ values : Fin n → Bool, f (List.ofFn values)) / 2 ^ n :=
  mean_coinsAfter n [] f

end Sampler

end Stimulus

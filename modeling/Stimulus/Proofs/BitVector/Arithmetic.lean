import Stimulus.BitVector.Arithmetic
import Stimulus.Proofs.BitVector.Spelling

/-!
# Sums and products of spelled numbers

The ripple carry adder gives the sum modulo two to the width
(`Store.gives_addBits`), which makes subtraction and negation exact as well, and
adding up the shifted copies gives the product modulo two to the width
(`Store.gives_mulBits`).
-/

set_option autoImplicit false

namespace Stimulus.Diagram.Store

variable {s : Store} {w : Nat} {xs ys : List Edge} {X Y : Assignment → Nat}

/-! ## Sums -/

/-- The sum of two digits and a carry. -/
theorem sum_digit (x y : Nat) (c : Bool) :
    ((decide (x % 2 = 1) != decide (y % 2 = 1)) != c) = decide ((x + y + c.toNat) % 2 = 1) := by
  rcases Nat.mod_two_eq_zero_or_one x with hx | hx <;>
    rcases Nat.mod_two_eq_zero_or_one y with hy | hy <;> cases c <;>
      simp [hx, hy, Nat.add_mod]

/-- The carry out of two digits and a carry. -/
theorem carry_digit (x y : Nat) (c : Bool) :
    (x + y + c.toNat) / 2 = x / 2 + y / 2 +
      (if decide (x % 2 = 1) then decide (y % 2 = 1) || c else decide (y % 2 = 1) && c).toNat := by
  rcases Nat.mod_two_eq_zero_or_one x with hx | hx <;>
    rcases Nat.mod_two_eq_zero_or_one y with hy | hy <;> cases c <;>
      simp [hx, hy] <;> omega

/-- The adder is exact modulo two to the width. -/
theorem gives_addBits : ∀ (w : Nat) (xs ys : List Edge) (c : Edge) (X Y : Assignment → Nat)
    (κ : Assignment → Bool) (s : Store), s.Valid → s.Spells w xs X → s.Spells w ys Y →
      s.Denotes c κ → s.Gives (BitVector.addBits xs ys c) fun zs t =>
        t.Spells w zs fun ρ => (X ρ + Y ρ + (κ ρ).toNat) % 2 ^ w := by
  intro w
  induction w with
  | zero =>
    intro xs ys c X Y κ s hs hx hy _
    obtain ⟨rfl, -⟩ := hx.eq_nil
    obtain ⟨rfl, -⟩ := hy.eq_nil
    exact hs.gives_pure ((spells_nil s).congr fun ρ => (Nat.mod_one _).symm)
  | succ w ih =>
    intro xs ys c X Y κ s hs hx hy hc
    obtain ⟨x, xs, rfl, hx₀, hxs⟩ := hx.eq_cons
    obtain ⟨y, ys, rfl, hy₀, hys⟩ := hy.eq_cons
    unfold BitVector.addBits
    refine (hs.gives_differ hx₀ hy₀).bind fun part s₁ v₁ g₁ hpart => ?_
    refine (v₁.gives_differ hpart (hc.grow hs.reduced g₁)).bind fun sum s₂ v₂ g₂ hsum => ?_
    have g₂' := g₁.trans g₂
    refine (v₂.gives_disj (hy₀.grow hs.reduced g₂') (hc.grow hs.reduced g₂')).bind
      fun either s₃ v₃ g₃ heither => ?_
    have g₃' := g₂'.trans g₃
    refine (v₃.gives_conj (hy₀.grow hs.reduced g₃') (hc.grow hs.reduced g₃')).bind
      fun both s₄ v₄ g₄ hboth => ?_
    have g₄' := g₃'.trans g₄
    refine (v₄.gives_choose (hx₀.grow hs.reduced g₄') (heither.grow v₃.reduced g₄) hboth).bind
      fun next s₅ v₅ g₅ hnext => ?_
    have g₅' := g₄'.trans g₅
    -- the other digits with the carry
    have hrest := ih xs ys next _ _ _ s₅ v₅ (hxs.grow hs.reduced g₅')
      (hys.grow hs.reduced g₅') hnext
    refine (hrest.mono fun zs s₆ v₆ g₆ hz => ?_).map
    have hsum' := hsum.grow v₂.reduced (((g₃.trans g₄).trans g₅).trans g₆)
    have hpow : 2 ^ (w + 1) = 2 * 2 ^ w := Nat.pow_succ'
    refine spells_succ hsum' hz (fun ρ => ?_) fun ρ => ?_
    · rw [hpow, Nat.mod_mul_right_mod]
      exact sum_digit (X ρ) (Y ρ) (κ ρ)
    · rw [hpow, Nat.mod_mul_right_div_self, carry_digit]

/-- The sum with the complement of a number and a carry. -/
theorem add_complement {n x y : Nat} (hy : y < 2 ^ n) :
    (x + (2 ^ n - 1 - y) + true.toNat) % 2 ^ n = (x + (2 ^ n - y)) % 2 ^ n := by
  rw [Bool.toNat_true]
  congr 1
  omega

theorem Valid.gives_add {a b : BitVector} (hs : s.Valid) (hx : s.Spells w a.bits X)
    (hy : s.Spells w b.bits Y) :
    s.Gives (a.add b) fun r t => r.signed = (a.signed && b.signed) ∧
      t.Spells w r.bits fun ρ => (X ρ + Y ρ) % 2 ^ w := by
  unfold BitVector.add
  refine Gives.lift_bind (hx.checkWidths hy) ?_
  have hadd := gives_addBits w _ _ _ _ _ _ s hs hx hy (denotes_zero hs.reduced)
  exact (hadd.mono fun zs t ht hst hz => ⟨rfl, hz⟩).map

theorem Valid.gives_sub {a b : BitVector} (hs : s.Valid) (hx : s.Spells w a.bits X)
    (hy : s.Spells w b.bits Y) :
    s.Gives (a.sub b) fun r t => r.signed = (a.signed && b.signed) ∧
      t.Spells w r.bits fun ρ => (X ρ + (2 ^ w - Y ρ)) % 2 ^ w := by
  unfold BitVector.sub
  refine Gives.lift_bind (hx.checkWidths hy) ?_
  refine (hs.gives_mapM_complement hy).bind fun zs t ht hst hz => ?_
  have hadd := gives_addBits w _ _ _ _ _ _ t ht (hx.grow hs.reduced hst) hz (denotes_one ht.reduced)
  refine (hadd.mono fun zs u hu htu hz => ⟨rfl, hz.congr fun ρ => ?_⟩).map
  exact add_complement (hy.lt ρ)

theorem Valid.gives_neg {a : BitVector} (hs : s.Valid) (hx : s.Spells w a.bits X) :
    s.Gives a.neg fun r t => r.signed = a.signed ∧
      t.Spells w r.bits fun ρ => (2 ^ w - X ρ) % 2 ^ w := by
  have hwidth : a.width = w := hx.length
  unfold BitVector.neg
  rw [hwidth]
  refine (hs.gives_mapM_complement hx).bind fun zs t ht hst hz => ?_
  have hadd := gives_addBits w _ _ _ _ _ _ t ht (spells_zeros ht.reduced w) hz
    (denotes_one ht.reduced)
  refine (hadd.mono fun zs u hu htu hz => ⟨rfl, hz.congr fun ρ => ?_⟩).map
  rw [add_complement (hx.lt ρ), Nat.zero_add]

/-! ## Products -/

/-- One more shifted copy. -/
theorem product_step {a b acc i n : Nat} :
    ((acc + (0 + 2 ^ i * (if decide (b % 2 = 1) then a % 2 ^ n else 0)) + false.toNat) %
        2 ^ (i + n) + a * (b / 2) * 2 ^ (i + 1)) % 2 ^ (i + n) =
      (acc + a * b * 2 ^ i) % 2 ^ (i + n) := by
  -- the last digit of the factor apart from the others
  have hb : a * b * 2 ^ i = 2 ^ i * (a * (b % 2)) + a * (b / 2) * 2 ^ (i + 1) := by
    conv_lhs => rw [← Nat.mod_add_div b 2]
    ring
  -- the copy is cut to the digits that are left
  have hcut : 2 ^ i * (a % 2 ^ n) = 2 ^ i * a % 2 ^ (i + n) := by
    rw [Nat.pow_add, Nat.mul_mod_mul_left]
  rw [hb, Nat.mod_add_mod, Bool.toNat_false, Nat.add_zero, Nat.zero_add, ← Nat.add_assoc]
  rcases Nat.mod_two_eq_zero_or_one b with h | h
  · simp [h]
  · simp only [h, decide_true, if_true, hcut, Nat.mul_one]
    rw [Nat.add_right_comm, Nat.add_mod_mod, Nat.add_right_comm]

/-- A digit that is not set adds nothing. -/
theorem product_step_even {a b acc i n : Nat} (hb : b % 2 = 0) :
    (acc + a * (b / 2) * 2 ^ (i + 1)) % 2 ^ (i + n) = (acc + a * b * 2 ^ i) % 2 ^ (i + n) := by
  have hb2 : b = 2 * (b / 2) := by omega
  conv_rhs => rw [hb2]
  congr 2
  ring

/-- A shifted copy: the digits that stay within the width, where the digit of the factor is set. -/
theorem gives_copy {a : List Edge} {b : Edge} {i n : Nat} {A : Assignment → Nat}
    {κ : Assignment → Bool} (hs : s.Valid) (ha : s.Spells (i + n) a A) (hb : s.Denotes b κ) :
    s.Gives ((a.take (a.length - i)).mapM (conj · b)) fun partials t =>
      t.Spells (i + n) (List.replicate i .zero ++ partials) fun ρ =>
        0 + 2 ^ i * if κ ρ then A ρ % 2 ^ n else 0 := by
  have hlen : a.length - i = n := by
    rw [ha.length]
    omega
  rw [hlen]
  refine (gives_mapM_conj n _ _ s hs (fun t e ψ ht hst he => ?_)
    (ha.take (Nat.le_add_left n i))).mono fun partials t ht _ hp =>
      (spells_zeros ht.reduced i).append hp
  exact (ht.gives_conj he (hb.grow hs.reduced hst)).mono
    fun r u _ _ hr => hr.congr fun ρ => Bool.and_comm _ _

/-- The multiplier adds the product with the digits that are still to come. -/
theorem gives_mulBits : ∀ (n i : Nat) (a bs acc : List Edge) (A B C : Assignment → Nat) (s : Store),
    s.Valid → s.Spells (i + n) a A → s.Spells n bs B → s.Spells (i + n) acc C →
      s.Gives (BitVector.mulBits a i bs acc) fun zs t =>
        t.Spells (i + n) zs fun ρ => (C ρ + A ρ * B ρ * 2 ^ i) % 2 ^ (i + n) := by
  intro n
  induction n with
  | zero =>
    intro i a bs acc A B C s hs ha hb hc
    obtain ⟨rfl, rfl⟩ := hb.eq_nil
    refine hs.gives_pure (hc.congr fun ρ => ?_)
    rw [Nat.mul_zero, Nat.zero_mul, Nat.add_zero, Nat.mod_eq_of_lt (hc.lt ρ)]
  | succ n ih =>
    intro i a bs acc A B C s hs ha hb hc
    obtain ⟨b, bs, rfl, hb₀, hbs⟩ := hb.eq_cons
    have hw : i + (n + 1) = i + 1 + n := by omega
    unfold BitVector.mulBits
    by_cases hzero : b = .zero
    · rw [if_pos hzero]
      -- the digit is constantly zero
      have heven := (hzero ▸ hb₀).unique (denotes_zero hs.reduced)
      rw [hw] at ha hc ⊢
      refine (ih (i + 1) a bs acc _ _ _ s hs ha hbs hc).mono fun zs t _ _ hz => ?_
      refine hz.congr fun ρ => ?_
      have hmod := congrFun heven ρ
      rw [decide_eq_false_iff_not] at hmod
      rw [← hw]
      exact product_step_even (by omega)
    · rw [if_neg hzero]
      refine (gives_copy hs ha hb₀).bind fun partials t ht hst hshifted => ?_
      refine (gives_addBits _ _ _ _ _ _ _ t ht (hc.grow hs.reduced hst) hshifted
        (denotes_zero ht.reduced)).bind fun acc' u hu htu hacc => ?_
      have hsu := hst.trans htu
      have ha' := ha.grow hs.reduced hsu
      have hbs' := hbs.grow hs.reduced hsu
      rw [hw] at ha' hacc ⊢
      refine (ih (i + 1) a bs acc' _ _ _ u hu ha' hbs' hacc).mono fun zs v _ _ hz => ?_
      refine hz.congr fun ρ => ?_
      rw [← hw]
      exact product_step

theorem Valid.gives_mul {a b : BitVector} (hs : s.Valid) (hx : s.Spells w a.bits X)
    (hy : s.Spells w b.bits Y) :
    s.Gives (a.mul b) fun r t => r.signed = (a.signed && b.signed) ∧
      t.Spells w r.bits fun ρ => X ρ * Y ρ % 2 ^ w := by
  unfold BitVector.mul
  refine Gives.lift_bind (hx.checkWidths hy) ?_
  have hzero := spells_zeros hs.reduced w
  have hwidth : a.width = w := hx.length
  rw [hwidth]
  have hx' : s.Spells (0 + w) a.bits X := by rwa [Nat.zero_add]
  have hz' : s.Spells (0 + w) (List.replicate w .zero) fun _ => 0 := by rwa [Nat.zero_add]
  refine ((gives_mulBits w 0 _ _ _ _ _ _ s hs hx' hy hz').mono
    fun zs t _ _ hz => ⟨rfl, ?_⟩).map
  rw [Nat.zero_add] at hz
  exact hz.congr fun ρ => by rw [Nat.zero_add, Nat.pow_zero, Nat.mul_one]

end Stimulus.Diagram.Store

import Stimulus.BitVector.Comparison
import Stimulus.Proofs.TwosComplement
import Stimulus.Proofs.BitVector.Spelling

/-!
# Comparing and selecting

The comparators decide the order of the spelled numbers, as they are or in two's
complement (`Store.Valid.gives_ult`, `Store.Valid.gives_slt`), and their equality
(`Store.Valid.gives_eq`). Selection picks the digit at the position that the
index spells, and nothing beyond the digits (`Store.Valid.gives_select`).
-/

set_option autoImplicit false

open Stimulus.TwosComplement (decode_signed)

namespace Stimulus.Diagram.Store

variable {s : Store} {w n : Nat} {a b : BitVector} {X Y : Assignment → Nat}

/-! ## Order and equality -/

/-- The most significant digits that differ decide the order, and these come last. -/
theorem less_digit (x y : Nat) (l : Bool) :
    (decide (x / 2 < y / 2) || (decide (x / 2 = y / 2) &&
      if (decide (x % 2 = 1) != decide (y % 2 = 1)) = true then decide (y % 2 = 1) else l)) =
      (decide (x < y) || (decide (x = y) && l)) := by
  rw [Bool.eq_iff_iff]
  rcases Nat.mod_two_eq_zero_or_one x with hx | hx <;>
    rcases Nat.mod_two_eq_zero_or_one y with hy | hy <;> cases l <;> simp [hx, hy] <;> omega

theorem equal_digit (x y : Nat) (l : Bool) :
    ((l && (decide (x % 2 = 1) == decide (y % 2 = 1))) && decide (x / 2 = y / 2)) =
      (l && decide (x = y)) := by
  rw [Bool.eq_iff_iff]
  rcases Nat.mod_two_eq_zero_or_one x with hx | hx <;>
    rcases Nat.mod_two_eq_zero_or_one y with hy | hy <;> cases l <;> simp [hx, hy] <;> omega

theorem gives_lessBits : ∀ (w : Nat) (xs ys : List Edge) (l : Edge) (X Y : Assignment → Nat)
    (κ : Assignment → Bool) (s : Store), s.Valid → s.Spells w xs X → s.Spells w ys Y →
      s.Denotes l κ → s.Gives (BitVector.lessBits xs ys l) fun e t =>
        t.Denotes e fun ρ => decide (X ρ < Y ρ) || (decide (X ρ = Y ρ) && κ ρ) := by
  intro w
  induction w with
  | zero =>
    intro xs ys l X Y κ s hs hx hy hl
    obtain ⟨rfl, rfl⟩ := hx.eq_nil
    obtain ⟨rfl, rfl⟩ := hy.eq_nil
    exact hs.gives_pure (hl.congr fun ρ => by simp)
  | succ w ih =>
    intro xs ys l X Y κ s hs hx hy hl
    obtain ⟨x, xs, rfl, hx₀, hxs⟩ := hx.eq_cons
    obtain ⟨y, ys, rfl, hy₀, hys⟩ := hy.eq_cons
    unfold BitVector.lessBits
    refine (hs.gives_differ hx₀ hy₀).bind fun d s₁ v₁ g₁ hd => ?_
    refine (v₁.gives_choose hd (hy₀.grow hs.reduced g₁) (hl.grow hs.reduced g₁)).bind
      fun l' s₂ v₂ g₂ hl' => ?_
    have g₂' := g₁.trans g₂
    exact (ih xs ys l' _ _ _ s₂ v₂ (hxs.grow hs.reduced g₂') (hys.grow hs.reduced g₂') hl').mono
      fun e t _ _ he => he.congr fun ρ => less_digit (X ρ) (Y ρ) (κ ρ)

theorem gives_equalBits : ∀ (w : Nat) (xs ys : List Edge) (l : Edge) (X Y : Assignment → Nat)
    (κ : Assignment → Bool) (s : Store), s.Valid → s.Spells w xs X → s.Spells w ys Y →
      s.Denotes l κ → s.Gives (BitVector.equalBits xs ys l) fun e t =>
        t.Denotes e fun ρ => κ ρ && decide (X ρ = Y ρ) := by
  intro w
  induction w with
  | zero =>
    intro xs ys l X Y κ s hs hx hy hl
    obtain ⟨rfl, rfl⟩ := hx.eq_nil
    obtain ⟨rfl, rfl⟩ := hy.eq_nil
    exact hs.gives_pure (hl.congr fun ρ => by simp)
  | succ w ih =>
    intro xs ys l X Y κ s hs hx hy hl
    obtain ⟨x, xs, rfl, hx₀, hxs⟩ := hx.eq_cons
    obtain ⟨y, ys, rfl, hy₀, hys⟩ := hy.eq_cons
    unfold BitVector.equalBits
    refine (hs.gives_agree hx₀ hy₀).bind fun d s₁ v₁ g₁ hd => ?_
    refine (v₁.gives_conj (hl.grow hs.reduced g₁) hd).bind fun l' s₂ v₂ g₂ hl' => ?_
    have g₂' := g₁.trans g₂
    exact (ih xs ys l' _ _ _ s₂ v₂ (hxs.grow hs.reduced g₂') (hys.grow hs.reduced g₂') hl').mono
      fun e t _ _ he => he.congr fun ρ => equal_digit (X ρ) (Y ρ) (κ ρ)

theorem Valid.gives_eq (hs : s.Valid) (hx : s.Spells w a.bits X) (hy : s.Spells w b.bits Y) :
    s.Gives (BitVector.eq a b) fun e t => t.Denotes e fun ρ => decide (X ρ = Y ρ) := by
  unfold BitVector.eq
  refine Gives.lift_bind (hx.checkWidths hy) ?_
  exact (gives_equalBits w _ _ _ _ _ _ s hs hx hy (denotes_one hs.reduced)).mono
    fun e t _ _ he => he.congr fun ρ => Bool.true_and _

theorem Valid.gives_ult (hs : s.Valid) (hx : s.Spells w a.bits X) (hy : s.Spells w b.bits Y) :
    s.Gives (BitVector.ult a b) fun e t => t.Denotes e fun ρ => decide (X ρ < Y ρ) := by
  unfold BitVector.ult
  refine Gives.lift_bind (hx.checkWidths hy) ?_
  exact (gives_lessBits w _ _ _ _ _ _ s hs hx hy (denotes_zero hs.reduced)).mono
    fun e t _ _ he => he.congr fun ρ => by rw [Bool.and_false, Bool.or_false]

theorem Valid.gives_ule (hs : s.Valid) (hx : s.Spells w a.bits X) (hy : s.Spells w b.bits Y) :
    s.Gives (BitVector.ule a b) fun e t => t.Denotes e fun ρ => decide (X ρ ≤ Y ρ) := by
  unfold BitVector.ule
  refine ((hs.gives_ult hy hx).mono fun e t ht _ he => ?_).map
  refine (he.neg ht.reduced).congr fun ρ => ?_
  rw [← decide_not, decide_eq_decide]
  exact Nat.not_lt

/-! ## Signed order -/

/-- Complementing the top digit adds half of the range. -/
theorem gives_flipTop : ∀ (w : Nat) (xs : List Edge) (X : Assignment → Nat) (s : Store), s.Valid →
    s.Spells (w + 1) xs X → s.Gives (BitVector.flipTop xs) fun zs t =>
      t.Spells (w + 1) zs fun ρ => (X ρ + 2 ^ w) % 2 ^ (w + 1) := by
  intro w
  induction w with
  | zero =>
    intro xs X s hs hx
    obtain ⟨x, xs, rfl, hx₀, hxs⟩ := hx.eq_cons
    obtain ⟨rfl, hX⟩ := hxs.eq_nil
    unfold BitVector.flipTop
    refine ((hs.gives_complement hx₀).mono fun r t ht _ hr => ?_).map
    refine spells_succ hr.2 (spells_nil t) (fun ρ => ?_) fun ρ => ?_
    · rw [← decide_not, decide_eq_decide]
      omega
    · omega
  | succ w ih =>
    intro xs X s hs hx
    obtain ⟨x, xs, rfl, hx₀, hxs⟩ := hx.eq_cons
    obtain ⟨y, ys, rfl, -, -⟩ := hxs.eq_cons
    unfold BitVector.flipTop
    refine ((ih _ _ s hs hxs).mono fun zs t ht hst hz => ?_).map
    have hpow : 2 ^ (w + 1 + 1) = 2 * 2 ^ (w + 1) := by ring
    have hpow' : 2 ^ (w + 1) = 2 * 2 ^ w := by ring
    refine spells_succ (hx₀.grow hs.reduced hst) hz (fun ρ => ?_) fun ρ => ?_
    · rw [hpow, Nat.mod_mul_right_mod, hpow', Nat.add_mul_mod_self_left]
    · rw [hpow, Nat.mod_mul_right_div_self]
      congr 1
      omega

/-- Adding half of the range maps the signed order onto the unsigned one. -/
theorem flip_lt_flip {x y : Nat} (hx : x < 2 ^ (n + 1)) (hy : y < 2 ^ (n + 1)) :
    (x + 2 ^ n) % 2 ^ (n + 1) < (y + 2 ^ n) % 2 ^ (n + 1) ↔
      TwosComplement.decode x (n + 1) true < TwosComplement.decode y (n + 1) true := by
  -- the lower half moves up and the upper half down
  have hflip : ∀ z, z < 2 ^ (n + 1) →
      (z + 2 ^ n) % 2 ^ (n + 1) = if 2 ^ n ≤ z then z - 2 ^ n else z + 2 ^ n := by
    intro z hz
    rw [Nat.pow_succ] at hz ⊢
    split
    · rw [show z + 2 ^ n = z - 2 ^ n + 2 ^ n * 2 by omega, Nat.add_mod_right]
      exact Nat.mod_eq_of_lt (by omega)
    · exact Nat.mod_eq_of_lt (by omega)
  rw [hflip x hx, hflip y hy, decode_signed hx, decode_signed hy]
  rw [Nat.pow_succ] at hx hy ⊢
  split <;> split <;> omega

theorem Valid.gives_slt (hs : s.Valid) (hx : s.Spells (n + 1) a.bits X)
    (hy : s.Spells (n + 1) b.bits Y) :
    s.Gives (BitVector.slt a b) fun e t => t.Denotes e fun ρ =>
      decide (TwosComplement.decode (X ρ) (n + 1) true <
        TwosComplement.decode (Y ρ) (n + 1) true) := by
  unfold BitVector.slt
  refine Gives.lift_bind (hx.checkWidths hy) ?_
  refine (gives_flipTop n _ _ s hs hx).bind fun xs t ht hst hxs => ?_
  refine (gives_flipTop n _ _ t ht (hy.grow hs.reduced hst)).bind fun ys u hu htu hys => ?_
  refine (gives_lessBits _ _ _ _ _ _ _ u hu (hxs.grow ht.reduced htu) hys
    (denotes_zero hu.reduced)).mono fun e v _ _ he => he.congr fun ρ => ?_
  rw [Bool.and_false, Bool.or_false, decide_eq_decide]
  exact flip_lt_flip (hx.lt ρ) (hy.lt ρ)

theorem Valid.gives_sle (hs : s.Valid) (hx : s.Spells (n + 1) a.bits X)
    (hy : s.Spells (n + 1) b.bits Y) :
    s.Gives (BitVector.sle a b) fun e t => t.Denotes e fun ρ =>
      decide (TwosComplement.decode (X ρ) (n + 1) true ≤
        TwosComplement.decode (Y ρ) (n + 1) true) := by
  unfold BitVector.sle
  refine ((hs.gives_slt hy hx).mono fun e t ht _ he => ?_).map
  refine (he.neg ht.reduced).congr fun ρ => ?_
  rw [← decide_not, decide_eq_decide]
  exact Int.not_lt

/-! ## Selection -/

/-- A digit counted from `position` on is the first one there or comes after it. -/
theorem testBit_from {position i x : Nat} :
    ((decide (i = position) && decide (x % 2 = 1)) ||
        (decide (position + 1 ≤ i) && (x / 2).testBit (i - (position + 1)))) =
      (decide (position ≤ i) && x.testBit (i - position)) := by
  rcases Nat.lt_trichotomy i position with hlt | rfl | hgt
  · have h1 : ¬ i = position := by omega
    have h2 : ¬ position + 1 ≤ i := by omega
    have h3 : ¬ position ≤ i := by omega
    simp [h1, h2, h3]
  · simp
  · have h1 : ¬ i = position := by omega
    have h2 : position + 1 ≤ i := by omega
    have h3 : position ≤ i := by omega
    rw [show i - position = i - (position + 1) + 1 by omega, Nat.testBit_succ]
    simp [h1, h2, h3]

/-- The digits from `position` on, each where the index is its position. -/
theorem gives_selections {index : List Edge} {m : Nat} {I : Assignment → Nat} :
    ∀ (w : Nat) (position : Nat) (xs : List Edge) (X : Assignment → Nat) (s : Store), s.Valid →
      s.Spells m index I → s.Spells w xs X →
        s.Gives (BitVector.selections index position xs) fun es t =>
          ∃ φs, List.Forall₂ t.Denotes es φs ∧ ∀ ρ, (φs.any fun φ => φ ρ) =
            (decide (position ≤ I ρ) && (X ρ).testBit (I ρ - position)) := by
  intro w
  induction w with
  | zero =>
    intro position xs X s hs _ hx
    obtain ⟨rfl, rfl⟩ := hx.eq_nil
    exact hs.gives_pure ⟨[], List.Forall₂.nil, fun ρ => by simp⟩
  | succ w ih =>
    intro position xs X s hs hi hx
    obtain ⟨x, xs, rfl, hx₀, hxs⟩ := hx.eq_cons
    unfold BitVector.selections
    rw [Nat.one_shiftLeft, hi.length]
    by_cases hreach : position < 2 ^ m
    · rw [if_pos hreach]
      -- the position can be reached, so it is compared with the index
      have hconst := spells_constantBits hs.reduced position m
      refine (gives_equalBits m _ _ _ _ _ _ s hs hi hconst (denotes_one hs.reduced)).bind
        fun here s₁ v₁ g₁ hhere => ?_
      refine (v₁.gives_conj hhere (hx₀.grow hs.reduced g₁)).bind fun chosen s₂ v₂ g₂ hch => ?_
      have g₂' := g₁.trans g₂
      refine ((ih (position + 1) xs _ s₂ v₂ (hi.grow hs.reduced g₂')
        (hxs.grow hs.reduced g₂')).mono fun es t ht g₃ hes => ?_).map
      obtain ⟨φs, hφs, hany⟩ := hes
      refine ⟨_ :: φs, List.Forall₂.cons (hch.grow v₂.reduced g₃) hφs, fun ρ => ?_⟩
      rw [List.any_cons, hany ρ]
      simp only [Nat.mod_eq_of_lt hreach, Bool.true_and]
      exact testBit_from
    · rw [if_neg hreach]
      -- no index reaches this position or a later one
      refine hs.gives_pure ⟨[], List.Forall₂.nil, fun ρ => ?_⟩
      have := hi.lt ρ
      rw [decide_eq_false (by omega)]
      rfl

theorem Valid.gives_select (hs : s.Valid) (hx : s.Spells w a.bits X) (hy : s.Spells n b.bits Y) :
    s.Gives (BitVector.select a b) fun e t => t.Denotes e fun ρ => (X ρ).testBit (Y ρ) := by
  unfold BitVector.select
  refine (gives_selections w 0 _ _ s hs hy hx).bind fun es t ht hst hes => ?_
  obtain ⟨φs, hφs, hany⟩ := hes
  refine (ht.gives_disjAll hφs).mono fun e u _ _ he => he.congr fun ρ => ?_
  rw [hany ρ, decide_eq_true (Nat.zero_le _), Nat.sub_zero, Bool.true_and]

end Stimulus.Diagram.Store

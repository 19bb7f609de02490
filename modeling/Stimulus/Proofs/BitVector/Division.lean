import Mathlib.Tactic.Ring
import Stimulus.Proofs.BitVector.Arithmetic
import Stimulus.Proofs.BitVector.Bitwise
import Stimulus.Proofs.BitVector.Comparison

/-!
# Dividing spelled numbers

After the top digits of the dividend that spell `P`, the restoring divider holds
the quotient and the remainder of `P` (`Store.Divides`). One step keeps this for one
digit more (`Store.gives_divideDigit`), so in the end the divider holds the quotient
and the remainder of the dividend (`Store.gives_divideBits`,
`Store.Valid.gives_udivmod`). For the divisor zero no digit of the quotient is refused
and the remainder keeps everything; it still has no more digits than were taken in, so
the top bit of the remainder is never set (`Store.Divides.getLast?_eq`).

The signed divider works on magnitudes and puts the signs back
(`Store.Valid.gives_sdivmod`), which truncates toward zero (`quotient_with_sign`,
`remainder_with_sign`).
-/

set_option autoImplicit false

namespace Stimulus.Diagram

open TwosComplement

/-- The quotient of `p` by `d` in `k` digits, all ones for the divisor zero. -/
def quotientWithin (k p d : Nat) : Nat := if d = 0 then 2 ^ k - 1 else p / d

/-- The quotient and the remainder by a divisor other than zero make up the dividend. -/
theorem quotientWithin_mul_add {d : Nat} (k p : Nat) (hd : d ≠ 0) :
    p = quotientWithin k p d * d + p % d ∧ p % d < d := by
  unfold quotientWithin
  rw [if_neg hd]
  exact ⟨(Nat.div_add_mod' p d).symm, Nat.mod_lt p (Nat.pos_of_ne_zero hd)⟩

/-- Division by zero gives all ones and keeps the dividend. -/
theorem quotientWithin_zero {d : Nat} (k p : Nat) (hd : d = 0) :
    quotientWithin k p d = 2 ^ k - 1 ∧ p % d = p := by
  subst hd
  exact ⟨if_pos rfl, Nat.mod_zero p⟩

/-- One more digit `b` of the dividend goes to the remainder. -/
theorem digit_split (p d b : Nat) :
    2 * p + b = b + 2 * (p % d) + d * (2 * (p / d)) := by
  conv_lhs => rw [← Nat.mod_add_div p d]
  ring

/-- The remainder takes in one more digit `b` of the dividend and gives up the divisor where it
can. -/
theorem remainder_step {p d b : Nat} (hb : b ≤ 1) :
    (2 * p + b) % d =
      if b + 2 * (p % d) < d then b + 2 * (p % d) else b + 2 * (p % d) - d := by
  rw [digit_split p d b, Nat.add_mul_mod_self_left]
  -- the divisor zero is never given up
  rcases Nat.eq_zero_or_pos d with rfl | hd
  · rw [if_neg (Nat.not_lt_zero _), Nat.mod_zero, Nat.sub_zero]
  have hlt := Nat.mod_lt p hd
  split
  · exact Nat.mod_eq_of_lt ‹_›
  · rw [Nat.mod_eq_sub_mod (by omega)]
    exact Nat.mod_eq_of_lt (by omega)

/-- The quotient gets a digit where the divisor is given up. -/
theorem quotient_step {k p d b : Nat} (hb : b ≤ 1) :
    quotientWithin (k + 1) (2 * p + b) d =
      (!decide (b + 2 * (p % d) < d)).toNat + 2 * quotientWithin k p d := by
  unfold quotientWithin
  rcases Nat.eq_zero_or_pos d with rfl | hd
  · have hpos := Nat.two_pow_pos k
    simp only [Nat.not_lt_zero, decide_false, Bool.not_false, Bool.toNat_true, if_true,
      Nat.pow_succ]
    omega
  have hlt := Nat.mod_lt p hd
  rw [if_neg (by omega), if_neg (by omega), digit_split p d b, Nat.add_mul_div_left _ _ hd]
  by_cases hless : b + 2 * (p % d) < d
  · rw [decide_eq_true hless, Nat.div_eq_of_lt hless]
    rfl
  · have hone : (b + 2 * (p % d)) / d = 1 := Nat.div_eq_of_lt_le (by omega) (by omega)
    rw [decide_eq_false hless, hone]
    rfl

/-! ## Signs -/

variable {n x y : Nat}

theorem natAbs_decode_le (hx : x < 2 ^ (n + 1)) : (decode x (n + 1) true).natAbs ≤ 2 ^ n := by
  rw [natAbs_decode hx]
  rw [Nat.pow_succ] at hx ⊢
  split <;> omega

/-- The quotient of the magnitudes, negated where the signs differ. -/
theorem quotient_with_sign (hx : x < 2 ^ (n + 1)) (hy : y < 2 ^ (n + 1)) :
    (if (decide (2 ^ n ≤ x) != decide (2 ^ n ≤ y)) = true then
      (2 ^ (n + 1) - quotientWithin (n + 1) (decode x (n + 1) true).natAbs
        (decode y (n + 1) true).natAbs) % 2 ^ (n + 1)
      else quotientWithin (n + 1) (decode x (n + 1) true).natAbs (decode y (n + 1) true).natAbs) =
    if y = 0 then if decode x (n + 1) true < 0 then 1 else 2 ^ (n + 1) - 1
    else wrap ((decode x (n + 1) true).tdiv (decode y (n + 1) true)) (n + 1) := by
  have hpow := Nat.pow_succ 2 n
  have hpos := Nat.two_pow_pos n
  unfold quotientWithin
  simp only [Int.natAbs_eq_zero, decode_eq_zero_iff hy]
  by_cases hzero : y = 0
  · rw [if_pos hzero, if_pos hzero, decide_eq_false (by omega : ¬ 2 ^ n ≤ y), Bool.bne_false]
    simp only [decide_eq_true_eq, decode_neg_iff hx]
    split
    · rw [show 2 ^ (n + 1) - (2 ^ (n + 1) - 1) = 1 by omega]
      exact Nat.mod_eq_of_lt (by omega)
    · rfl
  rw [if_neg hzero, if_neg hzero]
  -- the quotient of the magnitudes fits, so that negating it does not overflow
  have hq : (decode x (n + 1) true).natAbs / (decode y (n + 1) true).natAbs ≤ 2 ^ n :=
    Nat.le_trans (Nat.div_le_self _ _) (natAbs_decode_le hx)
  have hmod := Nat.mod_eq_of_lt (by omega :
    (decode x (n + 1) true).natAbs / (decode y (n + 1) true).natAbs < 2 ^ (n + 1))
  -- both integers as magnitudes with their signs, one case for each pair of signs
  conv_rhs => rw [decode_eq_natAbs hx, decode_eq_natAbs hy]
  by_cases hnx : 2 ^ n ≤ x <;> by_cases hny : 2 ^ n ≤ y <;>
    simp only [hnx, hny, decide_true, decide_false, if_true, if_false, bne_self_eq_false,
      Bool.false_eq_true, Bool.true_bne, Bool.false_bne, Bool.not_false, Int.neg_tdiv, Int.tdiv_neg,
      Int.neg_neg, ← Int.ofNat_tdiv]
  · rw [wrap_natCast, hmod]
  · rw [wrap_neg (by omega)]
  · rw [wrap_neg (by omega)]
  · rw [wrap_natCast, hmod]

/-- The remainder of the magnitudes with the sign of the dividend. -/
theorem remainder_with_sign (hx : x < 2 ^ (n + 1)) :
    (if decide (2 ^ n ≤ x) = true then
      (2 ^ (n + 1) - (decode x (n + 1) true).natAbs % (decode y (n + 1) true).natAbs) % 2 ^ (n + 1)
      else (decode x (n + 1) true).natAbs % (decode y (n + 1) true).natAbs) =
    wrap ((decode x (n + 1) true).tmod (decode y (n + 1) true)) (n + 1) := by
  have hpow := Nat.pow_succ 2 n
  have hpos := Nat.two_pow_pos n
  have hr : (decode x (n + 1) true).natAbs % (decode y (n + 1) true).natAbs ≤ 2 ^ n :=
    Nat.le_trans (Nat.mod_le _ _) (natAbs_decode_le hx)
  -- the sign of the divisor does not count for the remainder
  have habs : ∀ a b : Int, a.tmod b = a.tmod b.natAbs := by
    intro a b
    rcases Int.natAbs_eq b with hb | hb
    · rw [← hb]
    · conv_lhs => rw [hb, Int.tmod_neg]
  conv_rhs => rw [habs, decode_eq_natAbs hx]
  simp only [decide_eq_true_eq]
  split
  · rw [Int.neg_tmod, ← Int.ofNat_tmod, wrap_neg (by omega)]
  · rw [← Int.ofNat_tmod, wrap_natCast]
    exact (Nat.mod_eq_of_lt (by omega)).symm

namespace Store

variable {s : Store} {w : Nat} {a b : BitVector} {X Y : Assignment → Nat}

/-! ## Unsigned division -/

/-- Adding the complement of a smaller number and a carry takes the number away. -/
theorem sub_of_le {m x d : Nat} (hd : d ≤ x) (hx : x < m) : (x + (m - d)) % m = x - d := by
  rw [show x + (m - d) = x - d + m by omega, Nat.add_mod_right]
  exact Nat.mod_eq_of_lt (by omega)

/-- A digit taken in where there is room for one. -/
theorem Spells.take_in {digit : Edge} {bits : List Edge} {B R : Assignment → Nat}
    (hdigit : s.Denotes digit fun ρ => decide (B ρ = 1)) (hB : ∀ ρ, B ρ ≤ 1)
    (hr : s.Spells (w + 1) bits R) (hR : ∀ ρ, R ρ < 2 ^ w) :
    s.Spells (w + 1) (digit :: bits.dropLast) fun ρ => B ρ + 2 * R ρ := by
  have hcut : s.Spells w bits.dropLast R := by
    rw [List.dropLast_eq_take, hr.length, Nat.add_sub_cancel]
    exact (hr.take (Nat.le_succ w)).congr fun ρ => Nat.mod_eq_of_lt (hR ρ)
  refine (hdigit.spells_cons hcut).congr fun ρ => ?_
  have := hB ρ
  rcases Nat.eq_zero_or_pos (B ρ) with h | h
  · simp [h]
  · simp [Nat.le_antisymm (hB ρ) h]

/-- One step of the divider: a digit is taken in, and the divisor is given up where it can. -/
def divideDigit (divisor opposite : List Edge) (digit : Edge) (quotient remainder : List Edge) :
    Build (List Edge × List Edge) := do
  let taken := digit :: remainder.dropLast
  let less ← BitVector.lessBits taken divisor .zero
  let difference ← BitVector.addBits taken opposite .one
  let remainder ← BitVector.zipWithM (Diagram.choose less) taken difference
  return (-less :: quotient, remainder)

theorem divideBits_cons (divisor opposite : List Edge) (digit : Edge)
    (digits quotient remainder : List Edge) :
    BitVector.divideBits divisor opposite (digit :: digits) quotient remainder =
      divideDigit divisor opposite digit quotient remainder >>= fun r =>
        BitVector.divideBits divisor opposite digits r.1 r.2 := by
  rw [BitVector.divideBits, divideDigit]
  simp only [bind_assoc, pure_bind]

/-- The divider goes on where it has stopped. -/
theorem divideBits_append (divisor opposite : List Edge) : ∀ xs ys quotient remainder : List Edge,
    BitVector.divideBits divisor opposite (xs ++ ys) quotient remainder =
      BitVector.divideBits divisor opposite xs quotient remainder >>= fun r =>
        BitVector.divideBits divisor opposite ys r.1 r.2 := by
  intro xs ys
  induction xs with
  | nil => exact fun _ _ => rfl
  | cons x xs ih =>
    intro quotient remainder
    rw [List.cons_append, divideBits_cons, divideBits_cons, bind_assoc]
    simp only [ih]

/-- What the divider holds after the top `k` digits of the dividend, which spell `P`. -/
structure Divides (s : Store) (w k : Nat) (D P : Assignment → Nat)
    (quotient remainder : List Edge) : Prop where
  lt : ∀ ρ, P ρ < 2 ^ k
  quotient : s.Spells k quotient fun ρ => quotientWithin k (P ρ) (D ρ)
  remainder : s.Spells (w + 1) remainder fun ρ => P ρ % D ρ

/-- The divider before the first digit. -/
theorem divides_start (hs : s.Reduced) (w : Nat) (D : Assignment → Nat) :
    s.Divides w 0 D (fun _ => 0) [] (List.replicate (w + 1) .zero) where
  lt _ := Nat.one_pos
  quotient := (spells_nil s).congr fun ρ => by
    unfold quotientWithin
    split
    · rfl
    · exact (Nat.zero_div _).symm
  remainder := (spells_zeros hs _).congr fun ρ => (Nat.zero_mod _).symm

variable {k n : Nat} {D P A B : Assignment → Nat}
  {digit : Edge} {digits divisor opposite quotient remainder : List Edge}

/-- The remainder has no more digits than were taken in. -/
theorem Divides.remainder_lt (h : s.Divides w k D P quotient remainder) (hk : k ≤ w)
    (ρ : Assignment) : P ρ % D ρ < 2 ^ w :=
  Nat.lt_of_le_of_lt (Nat.mod_le _ _)
    (Nat.lt_of_lt_of_le (h.lt ρ) (Nat.pow_le_pow_right Nat.two_pos hk))

/-- **The top bit of the remainder is never set**, so it can be dropped. -/
theorem Divides.getLast?_eq (h : s.Divides w k D P quotient remainder) (hs : s.Reduced)
    (hk : k ≤ w) : remainder.getLast? = some .zero := by
  have hne : remainder ≠ [] := by
    rintro rfl
    exact absurd h.remainder.length (by simp)
  have hmsb : s.Denotes (remainder.getLastD .zero) fun _ => false :=
    h.remainder.msb.congr fun ρ => decide_eq_false (Nat.not_le_of_lt (h.remainder_lt hk ρ))
  have hzero := hs.canonical hmsb (denotes_zero hs)
  rw [List.getLastD_eq_getLast?, List.getLast?_eq_some_getLast hne, Option.getD_some] at hzero
  rw [List.getLast?_eq_some_getLast hne, hzero]

/-- **One step takes in one digit more.** -/
theorem gives_divideDigit (hs : s.Valid) (hD : ∀ ρ, D ρ < 2 ^ w) (hk : k + 1 ≤ w)
    (hdigit : s.Denotes digit fun ρ => decide (B ρ = 1)) (hB : ∀ ρ, B ρ ≤ 1)
    (hd : s.Spells (w + 1) divisor D)
    (ho : s.Spells (w + 1) opposite fun ρ => 2 ^ (w + 1) - 1 - D ρ)
    (h : s.Divides w k D P quotient remainder) :
    s.Gives (divideDigit divisor opposite digit quotient remainder) fun r t =>
      t.Divides w (k + 1) D (fun ρ => 2 * P ρ + B ρ) r.1 r.2 := by
  -- the remainder leaves room for one more digit
  have htaken := Spells.take_in hdigit hB h.remainder (h.remainder_lt (by omega))
  unfold divideDigit
  refine (gives_lessBits _ _ _ _ _ _ _ s hs htaken hd (denotes_zero hs.reduced)).bind
    fun less s₁ v₁ g₁ hless => ?_
  have htaken₁ := htaken.grow hs.reduced g₁
  refine (gives_addBits _ _ _ _ _ _ _ s₁ v₁ htaken₁ (ho.grow hs.reduced g₁)
    (denotes_one v₁.reduced)).bind fun difference s₂ v₂ g₂ hdiff => ?_
  refine ((gives_choices v₂ (hless.grow v₁.reduced g₂) (htaken₁.grow v₁.reduced g₂) hdiff).mono
    fun remainder' s₃ v₃ g₃ hrem => ?_).map
  have hless₃ := (hless.grow v₁.reduced (g₂.trans g₃)).congr
    (ψ := fun ρ => decide (B ρ + 2 * (P ρ % D ρ) < D ρ))
    fun ρ => by rw [Bool.and_false, Bool.or_false]
  have hquot := (hless₃.neg v₃.reduced).spells_cons
    (h.quotient.grow hs.reduced ((g₁.trans g₂).trans g₃))
  refine ⟨fun ρ => ?_, hquot.congr fun ρ => (quotient_step (hB ρ)).symm,
    hrem.congr fun ρ => ?_⟩
  · have := h.lt ρ
    have := hB ρ
    rw [Nat.pow_succ]
    omega
  · rw [remainder_step (hB ρ), Bool.and_false, Bool.or_false, add_complement (by
      have := hD ρ
      rw [Nat.pow_succ]
      omega)]
    by_cases hlt : B ρ + 2 * (P ρ % D ρ) < D ρ
    · rw [decide_eq_true hlt, if_pos rfl, if_pos hlt]
    · rw [decide_eq_false hlt, if_neg Bool.false_ne_true, if_neg hlt]
      exact sub_of_le (Nat.le_of_not_lt hlt) (htaken.lt ρ)

/-- **The divider brings in the digits of `A`**, most significant first, after those of `P`. -/
theorem gives_divideBits (hD : ∀ ρ, D ρ < 2 ^ w) : ∀ (n k : Nat)
    (digits quotient remainder : List Edge) (A P : Assignment → Nat) (s : Store),
    k + n ≤ w → s.Valid → s.Spells n digits.reverse A → s.Spells (w + 1) divisor D →
    s.Spells (w + 1) opposite (fun ρ => 2 ^ (w + 1) - 1 - D ρ) →
    s.Divides w k D P quotient remainder →
      s.Gives (BitVector.divideBits divisor opposite digits quotient remainder) fun r t =>
        t.Divides w (k + n) D (fun ρ => 2 ^ n * P ρ + A ρ) r.1 r.2 := by
  intro n
  induction n with
  | zero =>
    intro k digits quotient remainder A P s _ hs hA _ _ h
    obtain ⟨hnil, rfl⟩ := hA.eq_nil
    rw [List.reverse_eq_nil_iff.1 hnil]
    refine hs.gives_pure ?_
    simpa only [Nat.pow_zero, Nat.one_mul, Nat.add_zero] using h
  | succ n ih =>
    intro k digits quotient remainder A P s hk hs hA hd ho h
    obtain ⟨digit, digits, rfl⟩ : ∃ d ds, digits = d :: ds := by
      cases digits with
      | nil => exact absurd hA.length (by simp)
      | cons d ds => exact ⟨d, ds, rfl⟩
    rw [List.reverse_cons] at hA
    have hlen := hA.length
    obtain ⟨hlow, htop⟩ := hA.of_append
    have hn : digits.reverse.length = n := by
      simp only [List.length_append, List.length_singleton] at hlen
      omega
    rw [hn] at hlow htop
    rw [divideBits_cons]
    refine (gives_divideDigit hs hD (by omega) htop.denotes
      (fun ρ => Nat.lt_succ_iff.1 (htop.lt ρ)) hd ho h).bind fun r t ht hst hr => ?_
    refine (ih (k + 1) digits r.1 r.2 _ _ t (by omega) ht (hlow.grow hs.reduced hst)
      (hd.grow hs.reduced hst) (ho.grow hs.reduced hst) hr).mono fun r' u _ _ hr' => ?_
    -- the digits brought in so far and those to come make up the dividend
    have hjoin : ∀ ρ, 2 ^ n * (2 * P ρ + A ρ / 2 ^ n) + A ρ % 2 ^ n =
        2 ^ (n + 1) * P ρ + A ρ := fun ρ => by
      conv_rhs => rw [← Nat.mod_add_div (A ρ) (2 ^ n)]
      ring
    simpa only [hjoin, show k + 1 + n = k + (n + 1) by omega] using hr'

/-- The divider of two vectors: the divisor with one more bit, which leaves room for the remainder
before it is given up, and then the loop over the digits of the dividend. -/
theorem udivmod_loop (hx : s.Spells w a.bits X) (hy : s.Spells (w + 1) (b.bits ++ [.zero]) Y) :
    BitVector.udivmod a b s = (BitVector.divideBits (b.bits ++ [Edge.zero])
      ((b.bits ++ [Edge.zero]).map fun e => -e) a.bits.reverse []
        (List.replicate (w + 1) .zero) >>= fun r =>
          pure (⟨r.1, false⟩, ⟨r.2.take w, false⟩)) s := by
  have hwidth : a.width = w := hx.length
  have hwidths : BitVector.checkWidths a b = .ok () := by
    have hlen : b.bits.length + 1 = w + 1 := by
      rw [← hy.length, List.length_append, List.length_singleton]
    exact if_pos (hwidth.trans (Nat.succ.inj hlen).symm)
  unfold BitVector.udivmod
  rw [hwidths, hwidth]
  exact (bind_of_ok (a := ()) (t := s) rfl).trans (bind_of_ok (mapM_complement hy.has))

theorem Valid.spells_divisor (hs : s.Valid) (hy : s.Spells w b.bits Y) :
    s.Spells (w + 1) (b.bits ++ [.zero]) Y :=
  (hy.append (spells_zeros hs.reduced 1)).congr fun ρ => by rw [Nat.mul_zero, Nat.add_zero]

/-- The quotient, all ones for the divisor zero, and the remainder. -/
theorem Valid.gives_udivmod (hs : s.Valid) (hx : s.Spells w a.bits X) (hy : s.Spells w b.bits Y) :
    s.Gives (BitVector.udivmod a b) fun r t =>
      (r.1.signed = false ∧ t.Spells w r.1.bits fun ρ => quotientWithin w (X ρ) (Y ρ)) ∧
        r.2.signed = false ∧ t.Spells w r.2.bits fun ρ => X ρ % Y ρ := by
  have hd := hs.spells_divisor hy
  have hfree := s.growsTo_unbounded
  refine Gives.of_eq ?_ (GrowsTo.refl s) (udivmod_loop hx hd)
    (udivmod_loop (hx.grow hs.reduced hfree) (hd.grow hs.reduced hfree)) rfl
  have hdigits : s.Spells w a.bits.reverse.reverse X := by
    rw [List.reverse_reverse]
    exact hx
  have hdivides := gives_divideBits hy.lt w 0 _ _ _ X _ s (by omega) hs hdigits hd
    (hd.complement hs.reduced) (divides_start hs.reduced w Y)
  simp only [Nat.mul_zero, Nat.zero_add] at hdivides
  refine (hdivides.mono fun r t _ _ hdivides => ?_).map
  exact ⟨⟨rfl, hdivides.quotient⟩, rfl,
    (hdivides.remainder.take (Nat.le_succ w)).congr fun ρ =>
      Nat.mod_eq_of_lt (hdivides.remainder_lt (Nat.le_refl w) ρ)⟩

/-! ## Signed division -/

theorem Valid.gives_negateWhere {c : Edge} {κ : Assignment → Bool} (hs : s.Valid)
    (hc : s.Denotes c κ) (hx : s.Spells w a.bits X) :
    s.Gives (BitVector.negateWhere c a) fun r t =>
      t.Spells w r.bits fun ρ => if κ ρ then (2 ^ w - X ρ) % 2 ^ w else X ρ := by
  unfold BitVector.negateWhere
  refine (hs.gives_neg hx).bind fun negated t ht hst hneg => ?_
  exact (ht.gives_bitChoose (hc.grow hs.reduced hst) hneg.2 (hx.grow hs.reduced hst)).mono
    fun r u _ _ hr => hr.2

/-- Negating where the top digit is set leaves the magnitude. -/
theorem Valid.gives_magnitude (hs : s.Valid) (hx : s.Spells (n + 1) a.bits X) :
    s.Gives (BitVector.negateWhere a.msb a) fun r t =>
      t.Spells (n + 1) r.bits fun ρ => (decode (X ρ) (n + 1) true).natAbs := by
  refine (hs.gives_negateWhere hx.msb hx).mono fun r t _ _ hr => hr.congr fun ρ => ?_
  have hpos := Nat.two_pow_pos n
  rw [natAbs_decode (hx.lt ρ)]
  simp only [decide_eq_true_eq]
  split
  · exact Nat.mod_eq_of_lt (by omega)
  · rfl

/-- The quotient truncated toward zero and its remainder. For the divisor zero the quotient is one
for a negative dividend and all ones otherwise. -/
theorem Valid.gives_sdivmod (hs : s.Valid) (hx : s.Spells (n + 1) a.bits X)
    (hy : s.Spells (n + 1) b.bits Y) :
    s.Gives (BitVector.sdivmod a b) fun r t => (r.1.signed = true ∧
      t.Spells (n + 1) r.1.bits fun ρ =>
        if Y ρ = 0 then if decode (X ρ) (n + 1) true < 0 then 1 else 2 ^ (n + 1) - 1
        else wrap ((decode (X ρ) (n + 1) true).tdiv (decode (Y ρ) (n + 1) true)) (n + 1)) ∧
      r.2.signed = true ∧ t.Spells (n + 1) r.2.bits fun ρ =>
        wrap ((decode (X ρ) (n + 1) true).tmod (decode (Y ρ) (n + 1) true)) (n + 1) := by
  unfold BitVector.sdivmod
  refine Gives.lift_bind (hx.checkWidths hy) ?_
  refine (hs.gives_magnitude hx).bind fun dividend s₁ v₁ g₁ hdividend => ?_
  refine (v₁.gives_magnitude (hy.grow hs.reduced g₁)).bind fun divisor s₂ v₂ g₂ hdivisor => ?_
  refine (v₂.gives_udivmod (hdividend.grow v₁.reduced g₂) hdivisor).bind fun r s₃ v₃ g₃ hr => ?_
  have g₃' := (g₁.trans g₂).trans g₃
  have ha := hx.msb.grow hs.reduced g₃'
  refine (v₃.gives_differ ha (hy.msb.grow hs.reduced g₃')).bind fun opposite s₄ v₄ g₄ hopp => ?_
  refine (v₄.gives_negateWhere hopp (hr.1.2.grow v₃.reduced g₄)).bind fun q s₅ v₅ g₅ hq => ?_
  have g₅' := g₄.trans g₅
  refine ((v₅.gives_negateWhere (ha.grow v₃.reduced g₅') (hr.2.2.grow v₃.reduced g₅')).mono
    fun m s₆ _ g₆ hm => ?_).map
  refine ⟨⟨rfl, (hq.grow v₅.reduced g₆).congr fun ρ => ?_⟩, rfl, hm.congr fun ρ => ?_⟩
  · exact quotient_with_sign (hx.lt ρ) (hy.lt ρ)
  · exact remainder_with_sign (hx.lt ρ)

end Store

end Stimulus.Diagram

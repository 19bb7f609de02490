import Stimulus.Proofs.BitVector.Apply
import Stimulus.Proofs.Runs

/-!
# Division over runs

On every store that a run reaches, two vectors of one width are divided exactly, as long as there
are indexes for the nodes that this takes. The unsigned quotient and remainder are those of natural
numbers, and for the divisor zero all ones and the dividend (`Store.Reached.udivmod_exact`).
Wherever the loop of the divider is cut, the top bit of its remainder is the constant false
(`Store.gives_cut`), so nothing is lost when it is dropped.

The signed quotient is truncated toward zero, and the remainder goes with it
(`Store.Reached.sdivmod_truncates`). The least integer over minus one is the only quotient that
does not fit (`tdiv_bounds`), and it wraps (`decode_quotient_least`). Both results are those of the
standard operations on words (`ofNat_quotient`, `ofNat_remainder`).
-/

set_option autoImplicit false

namespace Stimulus.Diagram

open TwosComplement Quantity

/-! ## Quotients and remainders of integers -/

section Signed

variable {n x y : Nat} {i j : Int}

/-- A remainder is zero or has the sign of the dividend. -/
theorem tmod_sign (i j : Int) : i.tmod j = 0 ∨ (i.tmod j).sign = i.sign := by
  have hsign := Int.sign_tmod i j
  split at hsign
  · exact .inl (Int.sign_eq_zero_iff_zero.1 hsign)
  · exact .inr hsign

/-- Remainders fit where the dividend does. -/
theorem tmod_bounds (hi : -(2 ^ n : Nat) ≤ i ∧ i < (2 ^ n : Nat)) (j : Int) :
    -(2 ^ n : Nat) ≤ i.tmod j ∧ i.tmod j < (2 ^ n : Nat) := by
  have habs : (i.tmod j).natAbs ≤ i.natAbs := by
    rw [Int.natAbs_tmod]
    exact Nat.mod_le _ _
  have hpos := Nat.two_pow_pos n
  rcases tmod_sign i j with hzero | hsign
  · omega
  · have hneg := Int.sign_eq_neg_one_iff_neg (a := i.tmod j)
    have hneg' := Int.sign_eq_neg_one_iff_neg (a := i)
    rw [hsign, hneg'] at hneg
    omega

/-- Quotients fit where the dividend does, except for the least integer over minus one. -/
theorem tdiv_bounds (hi : -(2 ^ n : Nat) ≤ i ∧ i < (2 ^ n : Nat))
    (hfits : ¬ (i = -(2 ^ n : Nat) ∧ j = -1)) :
    -(2 ^ n : Nat) ≤ i.tdiv j ∧ i.tdiv j < (2 ^ n : Nat) := by
  have hquot : (i.tdiv j).natAbs = i.natAbs / j.natAbs := Int.natAbs_tdiv i j
  have habs : i.natAbs / j.natAbs ≤ i.natAbs := Nat.div_le_self _ _
  have hpos := Nat.two_pow_pos n
  refine ⟨by omega, ?_⟩
  by_contra hlarge
  -- only a divisor of magnitude one leaves the magnitude of the least integer
  have hleast : i = -(2 ^ n : Nat) := by omega
  have hone : j.natAbs = 1 := by
    rcases Nat.lt_trichotomy j.natAbs 1 with hlt | heq | hgt
    · rw [Nat.lt_one_iff.1 hlt, Nat.div_zero] at hquot
      omega
    · exact heq
    · have hhalf : i.natAbs / j.natAbs ≤ i.natAbs / 2 := Nat.div_le_div_left hgt Nat.two_pos
      omega
  rcases Int.natAbs_eq_iff.1 hone with rfl | rfl
  · rw [Int.natCast_one, Int.tdiv_one] at hlarge
    omega
  · exact hfits ⟨hleast, rfl⟩

theorem toInt_ofNat (hx : x < 2 ^ (n + 1)) :
    (BitVec.ofNat (n + 1) x).toInt = decode x (n + 1) true := by
  rw [BitVec.toInt_eq_toNat_cond, BitVec.toNat_ofNat, Nat.mod_eq_of_lt hx, decode_signed hx]
  have hpow := Nat.pow_succ 2 n
  split <;> split <;> omega

theorem ofNat_wrap (i : Int) (w : Nat) : BitVec.ofNat w (wrap i w) = BitVec.ofInt w i := by
  refine BitVec.eq_of_toNat_eq ?_
  rw [BitVec.toNat_ofNat, BitVec.toNat_ofInt, Nat.mod_eq_of_lt (wrap_lt i w)]
  rfl

/-- The divisions of words differ for the divisor zero only. -/
theorem smtSDiv_of_ne_zero (p : BitVec n) {q : BitVec n} (hq : q ≠ 0#n) :
    p.smtSDiv q = p.sdiv q := by
  rw [BitVec.smtSDiv_eq, BitVec.sdiv_eq]
  simp only [BitVec.smtUDiv_eq, BitVec.neg_eq_zero_iff, if_neg hq]
  rfl

/-- The quotient of integers is the one of words. -/
theorem ofNat_quotient (p q : BitVec n) :
    BitVec.ofNat n (quotient n p.toInt q.toInt) = p.smtSDiv q := by
  unfold quotient
  by_cases hq : q = 0#n
  · subst hq
    simp only [BitVec.smtSDiv_zero, BitVec.slt_iff_toInt_lt, BitVec.toInt_zero, if_true]
    split
    · rfl
    · refine BitVec.eq_of_toNat_eq ?_
      have hpos := Nat.two_pow_pos n
      rw [BitVec.toNat_ofNat, BitVec.toNat_allOnes, Nat.mod_eq_of_lt (by omega)]
  · have hne : q.toInt ≠ 0 := fun hzero =>
      hq (BitVec.eq_of_toInt_eq (hzero.trans BitVec.toInt_zero.symm))
    rw [if_neg hne, smtSDiv_of_ne_zero p hq, ofNat_wrap]
    exact BitVec.eq_of_toInt_eq (by rw [BitVec.toInt_sdiv, BitVec.toInt_ofInt])

/-- The remainder of integers is the one of words. -/
theorem ofNat_remainder (p q : BitVec n) :
    BitVec.ofNat n (remainder n p.toInt q.toInt) = p.srem q := by
  rw [remainder_eq_wrap, ofNat_wrap, ← BitVec.toInt_srem, BitVec.ofInt_toInt]

/-- The results `z` and `m` of dividing the raw numbers `x` by `y`, as integers of the width `w` in
two's complement: the quotient is truncated toward zero and wrapped, and the remainder goes with
it. -/
structure Truncates (w x y z m : Nat) : Prop where
  /-- The quotient, modulo two to the width. -/
  quotient : decode y w true ≠ 0 → z = wrap ((decode x w true).tdiv (decode y w true)) w
  /-- The quotient itself, where it fits. -/
  fits : decode y w true ≠ 0 → ¬ (decode x w true = -(2 ^ (w - 1) : Nat) ∧ decode y w true = -1) →
    decode z w true = (decode x w true).tdiv (decode y w true)
  /-- The only quotient that does not fit wraps to the dividend. -/
  overflow : decode x w true = -(2 ^ (w - 1) : Nat) → decode y w true = -1 →
    decode z w true = -(2 ^ (w - 1) : Nat) ∧ decode m w true = 0
  remainder : decode y w true ≠ 0 → decode m w true =
    decode x w true - decode y w true * (decode x w true).tdiv (decode y w true)
  remainder_sign : decode m w true = 0 ∨ (decode m w true).sign = (decode x w true).sign
  remainder_lt : decode y w true ≠ 0 → (decode m w true).natAbs < (decode y w true).natAbs
  /-- Division by zero keeps the dividend. The quotient is minus one, or one for a negative
  dividend. -/
  zero : decode y w true = 0 → decode m w true = decode x w true ∧ m = x ∧
    (0 ≤ decode x w true → decode z w true = -1 ∧ z = 2 ^ w - 1) ∧ (decode x w true < 0 → z = 1)
  /-- Both are results of operations on words. -/
  words : BitVec.ofNat w z = (BitVec.ofNat w x).smtSDiv (BitVec.ofNat w y) ∧
    BitVec.ofNat w m = (BitVec.ofNat w x).srem (BitVec.ofNat w y)

/-- The remainder of an integer of the width is one, too. -/
theorem decode_remainder (hi : -(2 ^ n : Nat) ≤ i ∧ i < (2 ^ n : Nat)) (j : Int) :
    decode (remainder (n + 1) i j) (n + 1) true = i.tmod j := by
  obtain ⟨hlow, hhigh⟩ := tmod_bounds hi j
  rw [remainder_eq_wrap, decode_wrap hlow hhigh]

/-- The quotient is one, but for the least integer over minus one. -/
theorem decode_quotient (hi : -(2 ^ n : Nat) ≤ i ∧ i < (2 ^ n : Nat)) (hj : j ≠ 0)
    (hfits : ¬ (i = -(2 ^ n : Nat) ∧ j = -1)) :
    decode (quotient (n + 1) i j) (n + 1) true = i.tdiv j := by
  obtain ⟨hlow, hhigh⟩ := tdiv_bounds hi hfits
  rw [quotient_of_ne_zero _ _ hj, decode_wrap hlow hhigh]

/-- The quotient of the least integer by minus one wraps to the least integer. -/
theorem decode_quotient_least (n : Nat) :
    decode (quotient (n + 1) (-(2 ^ n : Nat)) (-1)) (n + 1) true = -(2 ^ n : Nat) := by
  have hpow := Nat.pow_succ 2 n
  have hpos := Nat.two_pow_pos n
  rw [quotient_of_ne_zero _ _ (by decide), Int.tdiv_neg, Int.tdiv_one, Int.neg_neg]
  -- two integers that are two to the width apart wrap to one number
  have hwrap := wrap_add_pow (-(2 ^ n : Nat)) (n + 1)
  rw [show -((2 ^ n : Nat) : Int) + (2 ^ (n + 1) : Nat) = (2 ^ n : Nat) by omega] at hwrap
  rw [hwrap]
  exact decode_wrap (Int.le_refl _) (by omega)

/-- All ones stand for minus one. -/
theorem decode_ones (n : Nat) : decode (2 ^ (n + 1) - 1) (n + 1) true = -1 := by
  have hpow := Nat.pow_succ 2 n
  have hpos := Nat.two_pow_pos n
  rw [decode_signed (by omega), if_pos (by omega)]
  omega

/-- What the signed divider computes is the truncated quotient with its remainder. -/
theorem truncates (hx : x < 2 ^ (n + 1)) (hy : y < 2 ^ (n + 1)) :
    Truncates (n + 1) x y (quotient (n + 1) (decode x (n + 1) true) (decode y (n + 1) true))
      (remainder (n + 1) (decode x (n + 1) true) (decode y (n + 1) true)) where
  quotient hne := quotient_of_ne_zero _ _ hne
  fits hne hfits := decode_quotient (decode_bounds hx) hne hfits
  overflow hleast hminus := by
    have hleast : decode x (n + 1) true = -(2 ^ n : Nat) := hleast
    have hmod := decode_remainder (decode_bounds hx) (-1)
    rw [Int.tmod_neg, Int.tmod_one] at hmod
    rw [hminus]
    exact ⟨by rw [hleast]; exact decode_quotient_least n, hmod⟩
  remainder _ := by rw [decode_remainder (decode_bounds hx), Int.tmod_def]
  remainder_sign := by
    rw [decode_remainder (decode_bounds hx)]
    exact tmod_sign _ _
  remainder_lt hne := by
    rw [decode_remainder (decode_bounds hx), Int.natAbs_tmod]
    exact Nat.mod_lt _ (Int.natAbs_pos.2 hne)
  zero hzero := by
    rw [decode_remainder (decode_bounds hx), remainder_eq_wrap, hzero, Int.tmod_zero,
      wrap_decode hx (Nat.succ_pos n) true]
    refine ⟨rfl, rfl, fun hpos => ?_, fun hneg => if_pos hneg⟩
    have hones : quotient (n + 1) (decode x (n + 1) true) 0 = 2 ^ (n + 1) - 1 :=
      if_neg (Int.not_lt.2 hpos)
    rw [hones]
    exact ⟨decode_ones n, rfl⟩
  words := by
    rw [← toInt_ofNat hx, ← toInt_ofNat hy]
    exact ⟨ofNat_quotient _ _, ofNat_remainder _ _⟩

end Signed

namespace Store

variable {s : Store} {w : Nat} {a b : BitVector} {X Y : Assignment → Nat}

/-! ## The loop of the divider -/

/-- **The top bit of the remainder is the constant false wherever the loop is cut.** -/
theorem gives_cut {bits divisor opposite taken rest : List Edge} (hs : s.Valid)
    (hx : s.Spells w bits X) (hY : ∀ ρ, Y ρ < 2 ^ w) (hd : s.Spells (w + 1) divisor Y)
    (ho : s.Spells (w + 1) opposite fun ρ => 2 ^ (w + 1) - 1 - Y ρ)
    (hcut : bits.reverse = taken ++ rest) :
    s.Gives (BitVector.divideBits divisor opposite taken [] (List.replicate (w + 1) .zero))
      fun r _ => r.2.length = w + 1 ∧ r.2.getLast? = some .zero := by
  -- the digits that are taken are the upper ones
  obtain rfl : bits = rest.reverse ++ taken.reverse := by
    rw [← List.reverse_append, ← hcut, List.reverse_reverse]
  have hlen := hx.length
  rw [List.length_append, List.length_reverse, List.length_reverse] at hlen
  obtain ⟨-, htaken⟩ := hx.of_append
  rw [List.length_reverse] at htaken
  refine (gives_divideBits hY taken.length 0 taken [] _ _ _ s (by omega) hs htaken hd ho
    (divides_start hs.reduced w Y)).mono fun r t ht _ hr => ?_
  exact ⟨hr.remainder.length, hr.getLast?_eq ht.reduced (by omega)⟩

/-! ## Whole divisions -/

/-- **Unsigned division is exact.** Two vectors of one width have a quotient and a remainder of
that width. Under every assignment, a dividend `A` and a divisor `B` other than zero have the
quotient `Q` and the remainder `R` with `A = Q * B + R` and `R < B`; for the divisor zero the
quotient is all ones and the remainder is the dividend. Wherever the loop of the divider is cut in
two, the remainder has one bit more than the operands, and its top bit is the constant false. A
division without a result has outgrown the storage. -/
theorem Reached.udivmod_exact (h : s.Reached) (ha : s.Carries a) (hb : s.Carries b)
    (hw : a.width = b.width) :
    (∃ q r t, BitVector.udivmod a b s = .ok ((q, r), t) ∧ t.Reached ∧ q.width = a.width ∧
      r.width = a.width ∧
      (∀ ρ, ∃ A B Q R, BitVector.valueOf s ρ a.bits = .ok A ∧ BitVector.valueOf s ρ b.bits = .ok B ∧
        BitVector.valueOf t ρ q.bits = .ok Q ∧ BitVector.valueOf t ρ r.bits = .ok R ∧
        (B ≠ 0 → A = Q * B + R ∧ R < B) ∧ (B = 0 → Q = 2 ^ a.width - 1 ∧ R = A)) ∧
      ∃ opposite s₀, (b.bits ++ [Edge.zero]).mapM Diagram.complement s = .ok (opposite, s₀) ∧
        ∀ taken rest, a.bits.reverse = taken ++ rest → ∃ quotient remainder u last,
          BitVector.divideBits (b.bits ++ [Edge.zero]) opposite taken []
            (List.replicate (a.width + 1) .zero) s₀ = .ok ((quotient, remainder), u) ∧
          remainder.length = a.width + 1 ∧ remainder.getLast? = some .zero ∧
          BitVector.divideBits (b.bits ++ [Edge.zero]) opposite rest quotient remainder u =
            .ok ((q.bits, last), t) ∧
          r.bits = last.take a.width) ∨
    Outgrows s (BitVector.udivmod a b) := by
  have hs := h.valid
  obtain ⟨n, X, Y, hwidth, hX, hY⟩ := ha.spells_both hb hw hs.reduced
  refine (hs.gives_udivmod hX hY).run_or_outgrows.imp_left ?_
  rintro ⟨⟨q, r⟩, t, hr, -, -, -, ⟨-, hq⟩, -, hm⟩
  have hqw : q.width = n + 1 := hq.length
  have hrw : r.width = n + 1 := hm.length
  refine ⟨q, r, t, hr, h.call (c := .udivmod a b) ⟨ha, hb, hw⟩ (bind_of_ok hr),
    hqw.trans hwidth.symm, hrw.trans hwidth.symm, fun ρ => ?_, ?_⟩
  · rw [hwidth]
    exact ⟨X ρ, Y ρ, _, _, hX.valueOf ρ, hY.valueOf ρ, hq.valueOf ρ, hm.valueOf ρ,
      quotientWithin_mul_add _ _, quotientWithin_zero _ _⟩
  -- the call is the loop over the digits of the dividend, which stops at every cut
  have hd := hs.spells_divisor hY
  refine ⟨_, s, mapM_complement hd.has, fun taken rest hcut => ?_⟩
  rw [udivmod_loop hX hd] at hr
  obtain ⟨⟨final, last⟩, t', hwhole, hresult⟩ := exists_of_bind hr
  cases hresult
  rw [hcut, divideBits_append] at hwhole
  obtain ⟨⟨quotient, remainder⟩, u, hu, hrest⟩ := exists_of_bind hwhole
  obtain ⟨-, -, hlen, htop⟩ := (gives_cut hs hX hY.lt hd (hd.complement hs.reduced) hcut).of_run hu
  rw [hwidth]
  exact ⟨quotient, remainder, u, last, hu, hlen, htop, hrest, rfl⟩

/-- The number `2 + v` in two bits, for a literal `v`. -/
def literalAndOne : BitVector := ⟨[.ofIndex 2, .one], false⟩

/-- The number `1 - v` in two bits. -/
def negatedLiteral : BitVector := ⟨[-.ofIndex 2, .zero], false⟩

theorem firstLiteral_udivmod_exact :
    ∃ q r t, BitVector.udivmod literalAndOne negatedLiteral firstLiteral = .ok ((q, r), t) ∧
      BitVector.valueOf t (fun _ => false) q.bits = .ok 2 ∧
      BitVector.valueOf t (fun _ => false) r.bits = .ok 0 ∧
      BitVector.valueOf t (fun _ => true) q.bits = .ok 3 ∧
      BitVector.valueOf t (fun _ => true) r.bits = .ok 3 := by
  have ha : firstLiteral.Carries literalAndOne :=
    ⟨by decide, List.forall_mem_cons.2 ⟨⟨by decide, by decide⟩,
      List.forall_mem_singleton.2 ⟨by decide, by decide⟩⟩⟩
  have hb : firstLiteral.Carries negatedLiteral :=
    ⟨by decide, List.forall_mem_cons.2 ⟨⟨by decide, by decide⟩,
      List.forall_mem_singleton.2 ⟨by decide, by decide⟩⟩⟩
  obtain ⟨q, r, t, hr, -, -, -, hvalues, -⟩ :=
    (reached_firstLiteral.udivmod_exact ha hb rfl).resolve_right
      (not_outgrows_of_isOk (by decide +kernel))
  -- two by one
  obtain ⟨A, B, Q, R, hA, hB, hQ, hR, hdiv, -⟩ := hvalues fun _ => false
  obtain rfl : 2 = A := Except.ok.inj hA
  obtain rfl : 1 = B := Except.ok.inj hB
  obtain ⟨hsum, hlt⟩ := hdiv Nat.one_ne_zero
  obtain rfl : Q = 2 := by omega
  obtain rfl : R = 0 := by omega
  -- three by zero
  obtain ⟨A, B, Q, R, hA, hB, hQ', hR', -, hzero⟩ := hvalues fun _ => true
  obtain rfl : 3 = A := Except.ok.inj hA
  obtain rfl : 0 = B := Except.ok.inj hB
  obtain ⟨rfl, rfl⟩ := hzero rfl
  exact ⟨q, r, t, hr, hQ, hR, hQ', hR'⟩

/-- **Signed division truncates toward zero.** Two vectors of one width have a signed quotient and
a signed remainder of that width, which are under every assignment those of the integers that the
vectors stand for in two's complement. A division without a result has outgrown the storage. -/
theorem Reached.sdivmod_truncates (h : s.Reached) (ha : s.Carries a) (hb : s.Carries b)
    (hw : a.width = b.width) :
    (∃ q r t, BitVector.sdivmod a b s = .ok ((q, r), t) ∧ t.Reached ∧ q.width = a.width ∧
      r.width = a.width ∧ q.signed = true ∧ r.signed = true ∧
      ∀ ρ, ∃ x y z m, BitVector.valueOf s ρ a.bits = .ok x ∧ BitVector.valueOf s ρ b.bits = .ok y ∧
        BitVector.valueOf t ρ q.bits = .ok z ∧ BitVector.valueOf t ρ r.bits = .ok m ∧
        Truncates a.width x y z m) ∨
    Outgrows s (BitVector.sdivmod a b) := by
  have hs := h.valid
  obtain ⟨n, X, Y, hwidth, hX, hY⟩ := ha.spells_both hb hw hs.reduced
  refine (hs.gives_divmod hX hY (Nat.succ_pos n) true).run_or_outgrows.imp_left ?_
  rintro ⟨⟨q, r⟩, t, hr, -, -, -, ⟨hqs, hq⟩, hrs, hm⟩
  have hqw : q.width = n + 1 := hq.length
  have hrw : r.width = n + 1 := hm.length
  refine ⟨q, r, t, hr, h.call (c := .sdivmod a b) ⟨ha, hb, hw⟩ (bind_of_ok hr),
    hqw.trans hwidth.symm, hrw.trans hwidth.symm, hqs, hrs, fun ρ => ?_⟩
  rw [hwidth]
  exact ⟨X ρ, Y ρ, _, _, hX.valueOf ρ, hY.valueOf ρ, hq.valueOf ρ, hm.valueOf ρ,
    truncates (hX.lt ρ) (hY.lt ρ)⟩

/-- A vector of one bit by itself: minus one by minus one wraps, and zero is divided by zero. -/
theorem firstLiteral_sdivmod_truncates :
    ∃ q r t, BitVector.sdivmod ⟨[.ofIndex 2], true⟩ ⟨[.ofIndex 2], true⟩ firstLiteral =
        .ok ((q, r), t) ∧
      (∃ z m, BitVector.valueOf t (fun _ => true) q.bits = .ok z ∧ decode z 1 true = -1 ∧
        BitVector.valueOf t (fun _ => true) r.bits = .ok m ∧ decode m 1 true = 0) ∧
      ∃ z m, BitVector.valueOf t (fun _ => false) q.bits = .ok z ∧ decode z 1 true = -1 ∧
        BitVector.valueOf t (fun _ => false) r.bits = .ok m ∧ decode m 1 true = 0 := by
  have ha : firstLiteral.Carries ⟨[.ofIndex 2], true⟩ :=
    ⟨by decide, List.forall_mem_singleton.2 ⟨by decide, by decide⟩⟩
  obtain ⟨q, r, t, hr, -, -, -, -, -, hvalues⟩ :=
    (reached_firstLiteral.sdivmod_truncates ha ha rfl).resolve_right
      (not_outgrows_of_isOk (by decide +kernel))
  refine ⟨q, r, t, hr, ?_, ?_⟩
  · obtain ⟨x, y, z, m, hx, hy, hz, hm, htrunc⟩ := hvalues fun _ => true
    obtain rfl : 1 = x := Except.ok.inj hx
    obtain rfl : 1 = y := Except.ok.inj hy
    obtain ⟨hquot, hrem⟩ := htrunc.overflow rfl rfl
    exact ⟨z, m, hz, hquot, hm, hrem⟩
  · obtain ⟨x, y, z, m, hx, hy, hz, hm, htrunc⟩ := hvalues fun _ => false
    obtain rfl : 0 = x := Except.ok.inj hx
    obtain rfl : 0 = y := Except.ok.inj hy
    obtain ⟨hrem, -, hquot, -⟩ := htrunc.zero rfl
    exact ⟨z, m, hz, (hquot (by decide)).1, hm, hrem⟩

end Store

end Stimulus.Diagram

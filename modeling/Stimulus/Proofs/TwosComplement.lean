import Mathlib.Tactic.Ring
import Stimulus.TwosComplement

/-!
# Integers and raw numbers

`wrap` takes an integer to the raw number of a width, whether it fits or not. It
is the inverse of `decode` on raw numbers (`wrap_decode`) and on the integers of a width
(`decode_wrap`), and so is `encode` (`encode_decode`, `decode_encode`). The negative of a
number wraps to its complement to two to the width (`wrap_neg`).
-/

set_option autoImplicit false

namespace Stimulus.TwosComplement

variable {w n x y : Nat}

/-- The raw number of an integer, reduced modulo two to the width. -/
def wrap (value : Int) (width : Nat) : Nat := (value % ((2 ^ width : Nat) : Int)).toNat

theorem wrap_natCast (x w : Nat) : wrap x w = x % 2 ^ w := by
  unfold wrap
  rw [← Int.natCast_emod, Int.toNat_natCast]

theorem natCast_wrap (i : Int) (w : Nat) : (wrap i w : Int) = i % (2 ^ w : Nat) := by
  have hpos := Nat.two_pow_pos w
  unfold wrap
  omega

theorem wrap_lt (i : Int) (w : Nat) : wrap i w < 2 ^ w := by
  have hpos := Nat.two_pow_pos w
  unfold wrap
  omega

/-- Wrapping does not see multiples of two to the width. -/
theorem wrap_add_pow (value : Int) (w : Nat) : wrap (value + (2 ^ w : Nat)) w = wrap value w := by
  unfold wrap
  rw [Int.add_emod_right]

theorem wrap_neg (hx : x ≤ 2 ^ w) : wrap (-(x : Int)) w = (2 ^ w - x) % 2 ^ w := by
  rw [← wrap_add_pow, ← wrap_natCast]
  congr 1
  omega

theorem wrap_sub (hy : y < 2 ^ w) : wrap ((x : Int) - y) w = (x + (2 ^ w - y)) % 2 ^ w := by
  rw [← wrap_add_pow, ← wrap_natCast]
  congr 1
  omega

/-- The number in two's complement, for digits of some width. -/
theorem decode_signed (hx : x < 2 ^ (n + 1)) :
    decode x (n + 1) true = if 2 ^ n ≤ x then (x : Int) - (2 ^ (n + 1) : Nat) else x := by
  unfold decode
  simp only [Nat.one_shiftLeft, Nat.add_sub_cancel, Nat.mod_eq_of_lt hx, true_and]

theorem decode_unsigned (hx : x < 2 ^ n) : decode x n false = x := by
  unfold decode
  simp only [Nat.one_shiftLeft, Nat.mod_eq_of_lt hx]
  rfl

/-- The integers of a signed type. -/
theorem decode_bounds (hx : x < 2 ^ (n + 1)) :
    -(2 ^ n : Nat) ≤ decode x (n + 1) true ∧ decode x (n + 1) true < (2 ^ n : Nat) := by
  have hpow := Nat.pow_succ 2 n
  rw [decode_signed hx]
  split <;> omega

theorem decode_neg_iff (hx : x < 2 ^ (n + 1)) : decode x (n + 1) true < 0 ↔ 2 ^ n ≤ x := by
  rw [decode_signed hx]
  split <;> omega

theorem decode_eq_zero_iff (hx : x < 2 ^ (n + 1)) : decode x (n + 1) true = 0 ↔ x = 0 := by
  rw [decode_signed hx]
  split <;> omega

theorem natAbs_decode (hx : x < 2 ^ (n + 1)) :
    (decode x (n + 1) true).natAbs = if 2 ^ n ≤ x then 2 ^ (n + 1) - x else x := by
  rw [decode_signed hx]
  split <;> omega

/-- The magnitude with the sign put back. -/
theorem decode_eq_natAbs (hx : x < 2 ^ (n + 1)) :
    decode x (n + 1) true =
      if 2 ^ n ≤ x then -((decode x (n + 1) true).natAbs : Int)
      else (decode x (n + 1) true).natAbs := by
  rw [natAbs_decode hx, decode_signed hx]
  split <;> omega

theorem wrap_decode (hx : x < 2 ^ w) (hw : 1 ≤ w) (signed : Bool) :
    wrap (decode x w signed) w = x := by
  obtain ⟨n, rfl⟩ : ∃ n, w = n + 1 := ⟨w - 1, by omega⟩
  cases signed with
  | false => rw [decode_unsigned hx, wrap_natCast, Nat.mod_eq_of_lt hx]
  | true =>
    rw [decode_signed hx]
    split
    · rw [← wrap_add_pow, Int.sub_add_cancel, wrap_natCast, Nat.mod_eq_of_lt hx]
    · rw [wrap_natCast, Nat.mod_eq_of_lt hx]

/-- Raw numbers of one width that stand for the same integer are equal. -/
theorem decode_inj (hx : x < 2 ^ w) (hy : y < 2 ^ w) (hw : 1 ≤ w) (signed : Bool) :
    decode x w signed = decode y w signed ↔ x = y := by
  constructor
  · intro h
    rw [← wrap_decode hx hw signed, h, wrap_decode hy hw signed]
  · rintro rfl
    rfl

/-- Only the low bits of a raw number count. -/
theorem decode_mod (x w : Nat) (signed : Bool) :
    decode (x % 2 ^ w) w signed = decode x w signed := by
  simp only [decode, Nat.one_shiftLeft, Nat.mod_mod]

/-- Every raw number is the encoding of the integer it stands for. -/
theorem encode_decode (hx : x < 2 ^ w) (hw : 1 ≤ w) (signed : Bool) :
    encode (decode x w signed) w signed = some x := by
  have hraw := wrap_decode hx hw signed
  obtain ⟨n, rfl⟩ : ∃ n, w = n + 1 := ⟨w - 1, by omega⟩
  unfold wrap at hraw
  unfold encode least greatest
  simp only [Nat.one_shiftLeft, hraw]
  refine if_pos ?_
  -- the integer lies in the range of its type
  cases signed with
  | false =>
    rw [decode_unsigned hx]
    simp only [Bool.false_eq_true, if_false]
    omega
  | true =>
    rw [decode_signed hx]
    simp only [if_true, Nat.add_sub_cancel]
    rw [Nat.pow_succ] at hx ⊢
    split <;> omega

theorem encode_lt_two_pow {value : Int} {signed : Bool} (h : encode value w signed = some x) :
    x < 2 ^ w := by
  have hlt := encode_lt h
  rwa [Nat.one_shiftLeft] at hlt

/-- An encoding stands for the integer that it encodes. -/
theorem decode_encode {value : Int} {signed : Bool} (hw : 1 ≤ w)
    (h : encode value w signed = some x) : decode x w signed = value := by
  have hx := encode_lt_two_pow h
  unfold encode at h
  split at h
  · rename_i hfits
    rw [Nat.one_shiftLeft] at h
    have hvalue : wrap value w = x := Option.some.inj h
    obtain ⟨n, rfl⟩ : ∃ n, w = n + 1 := ⟨w - 1, by omega⟩
    unfold least greatest at hfits
    cases signed with
    | false =>
      simp only [Bool.false_eq_true, if_false, Nat.one_shiftLeft] at hfits
      obtain ⟨k, rfl⟩ := Int.eq_ofNat_of_zero_le hfits.1
      rw [wrap_natCast, Nat.mod_eq_of_lt (by omega)] at hvalue
      rw [decode_unsigned hx, hvalue]
    | true =>
      simp only [if_true, Nat.one_shiftLeft, Nat.add_sub_cancel] at hfits
      have hpow : 2 ^ (n + 1) = 2 * 2 ^ n := Nat.pow_succ'
      rw [decode_signed hx, ← hvalue]
      by_cases hneg : value < 0
      · -- a negative integer wraps to the upper half
        obtain ⟨k, hk⟩ := Int.eq_ofNat_of_zero_le (show 0 ≤ value + (2 ^ (n + 1) : Nat) by omega)
        rw [← wrap_add_pow, hk, wrap_natCast, Nat.mod_eq_of_lt (by omega), if_pos (by omega)]
        omega
      · obtain ⟨k, rfl⟩ := Int.eq_ofNat_of_zero_le (Int.not_lt.1 hneg)
        rw [wrap_natCast, Nat.mod_eq_of_lt (by omega), if_neg (by omega)]
  · cases h

/-- An integer that fits is wrapped to its encoding. -/
theorem decode_wrap {value : Int} (hlow : -(2 ^ n : Nat) ≤ value) (hhigh : value < (2 ^ n : Nat)) :
    decode (wrap value (n + 1)) (n + 1) true = value := by
  refine decode_encode (Nat.succ_pos n) ?_
  unfold encode least greatest
  simp only [if_true, Nat.one_shiftLeft, Nat.add_sub_cancel]
  exact if_pos ⟨hlow, by omega⟩

end Stimulus.TwosComplement

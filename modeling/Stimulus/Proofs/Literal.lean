import Mathlib.Tactic.NormNum
import Stimulus.Literal
import Stimulus.Proofs.TwosComplement

/-!
# Literals of integers

A literal is made from one integer only at its own type, and that integer is its value
(`Literal.ofInt_eq_ok`). A plain integer is a number in two's complement already, so its literal is
the one that is made from its value at the plain width (`Literal.ofInt_plain`), and only such values
have one there (`Literal.ofInt_plain_eq_ok`).
-/

set_option autoImplicit false

namespace Stimulus

namespace TwosComplement

/-- A plain integer is the value of its own bits. -/
theorem decode_plain (v : Int32) : decode v.toUInt32.toNat Literal.plainWidth true = v.toInt := by
  have hlt := v.toUInt32.toNat_lt
  have hcases := BitVec.toInt_eq_toNat_cond v.toBitVec
  rw [Int32.toInt_toBitVec, Int32.toNat_toBitVec] at hcases
  rw [Literal.plainWidth, decode_signed hlt, hcases]
  norm_num
  split <;> split <;> omega

/-- The integers that fit into the plain width are the plain integers. -/
theorem encode_plain_eq_some {v : Int} {raw : Nat}
    (h : encode v Literal.plainWidth true = some raw) : ∃ w : Int32, w.toInt = v := by
  refine ⟨Int32.ofInt v, ?_⟩
  simp only [encode, Option.ite_none_right_eq_some] at h
  norm_num [least, greatest, Literal.plainWidth, Nat.one_shiftLeft] at h
  apply Int32.toInt_ofInt_of_le <;> omega

end TwosComplement

namespace Literal

theorem raw_lt_two_pow (l : Literal) : l.raw < 2 ^ l.width := by
  have h := l.raw_lt
  rwa [Nat.one_shiftLeft] at h

/-- **A literal comes from the one integer that is its value**, at its own type. -/
theorem ofInt_eq_ok {v : Int} {w : Nat} {signed : Bool} {l : Literal} :
    ofInt v w signed = .ok l ↔ l.width = w ∧ l.signed = signed ∧ l.value = v := by
  constructor
  · intro h
    simp only [ofInt] at h
    split at h
    · rename_i hwidth
      split at h
      · rename_i raw hraw
        cases h
        exact ⟨rfl, rfl, TwosComplement.decode_encode hwidth.1 hraw⟩
      · cases h
    · cases h
  · rintro ⟨rfl, rfl, rfl⟩
    have hencode : TwosComplement.encode l.value l.width l.signed = some l.raw :=
      TwosComplement.encode_decode l.raw_lt_two_pow l.width_pos l.signed
    rw [ofInt, dif_pos ⟨l.width_pos, l.width_le⟩]
    split
    · rename_i raw hraw
      obtain rfl : raw = l.raw := Option.some.inj (hraw.symm.trans hencode)
      rfl
    · rename_i hnone
      cases hnone.symm.trans hencode

theorem eq_of_ofInt_eq_error {v : Int} {w : Nat} {signed : Bool} {e : Error}
    (h : ofInt v w signed = .error e) : e = .literalOutOfRange v w signed := by
  simp only [ofInt] at h
  split at h
  · split at h
    · cases h
    · cases h
      rfl
  · cases h
    rfl

theorem ofInt_plain (v : Int32) : ofInt v.toInt plainWidth true = .ok (ofInt32 v) :=
  ofInt_eq_ok.2 ⟨rfl, rfl, TwosComplement.decode_plain v⟩

theorem ofInt_plain_eq_ok {v : Int} {l : Literal} (h : ofInt v plainWidth true = .ok l) :
    ∃ w : Int32, w.toInt = v ∧ ofInt32 w = l := by
  obtain ⟨hwidth, hsigned, hvalue⟩ := ofInt_eq_ok.1 h
  have hencode := TwosComplement.encode_decode l.raw_lt_two_pow l.width_pos l.signed
  rw [← value, hvalue, hwidth, hsigned] at hencode
  obtain ⟨w, rfl⟩ := TwosComplement.encode_plain_eq_some hencode
  exact ⟨w, rfl, Except.ok.inj ((ofInt_plain w).symm.trans h)⟩

end Literal

end Stimulus

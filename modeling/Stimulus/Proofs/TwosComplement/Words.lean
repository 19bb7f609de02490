import Stimulus.Proofs.TwosComplement

/-!
# Encoding on machine words

Integers are words of 128 bits here, and raw numbers words of 64. `encodeWord` compares an integer
with the ends of its type, cuts it to 64 bits and masks the low ones; `decodeWord` masks a raw
number, looks at its top bit and takes two to the width off. Up to a width of 64 no step overflows,
so both give what `encode` and `decode` give on integers without bounds
(`encodeWord_map_toNat`, `toInt_decodeWord`).
-/

set_option autoImplicit false

namespace Stimulus.TwosComplement

/-- The low bits of a word. All 64 of them are no power of two less one within the word. -/
def mask (width : Nat) : BitVec 64 :=
  if 64 ≤ width then BitVec.allOnes 64 else (1#64 <<< width) - 1#64

/-- The least integer of a width as a word. -/
def leastWord (width : Nat) (signed : Bool) : BitVec 128 :=
  if signed then -(1#128 <<< (width - 1)) else 0#128

/-- The greatest integer of a width as a word. -/
def greatestWord (width : Nat) (signed : Bool) : BitVec 128 :=
  (1#128 <<< (if signed then width - 1 else width)) - 1#128

/-- The raw word of an integer, if it fits. -/
def encodeWord (value : BitVec 128) (width : Nat) (signed : Bool) : Option (BitVec 64) :=
  if value.slt (leastWord width signed) || (greatestWord width signed).slt value then none
  else some (value.setWidth 64 &&& mask width)

/-- The integer of a raw word, of which the low bits count. -/
def decodeWord (raw : BitVec 64) (width : Nat) (signed : Bool) : BitVec 128 :=
  let low := raw &&& mask width
  if signed && decide (0 < width) && (low >>> (width - 1)) &&& 1#64 == 1#64 then
    low.setWidth 128 - (1#128 <<< width)
  else low.setWidth 128

variable {w k : Nat} {x y : BitVec 128}

/-! ## Words of 128 bits -/

/-- A difference that fits does not overflow. -/
theorem toInt_sub_of_fits (hlow : -(2 ^ 127 : Int) ≤ x.toInt - y.toInt)
    (hhigh : x.toInt - y.toInt < 2 ^ 127) : (x - y).toInt = x.toInt - y.toInt := by
  rw [BitVec.toInt_sub]
  exact Int.bmod_eq_of_le_mul_two (by push_cast; omega) (by push_cast; omega)

theorem toInt_power (hk : k ≤ 64) : (1#128 <<< k).toInt = (2 ^ k : Nat) := by
  have hpow : 2 ^ k ≤ 2 ^ 64 := Nat.pow_le_pow_right (by decide) hk
  have hnat : (1#128 <<< k).toNat = 2 ^ k := by
    rw [BitVec.toNat_shiftLeft, BitVec.toNat_ofNat]
    norm_num [Nat.one_shiftLeft]
    omega
  rw [BitVec.toInt_eq_toNat_of_lt (by omega), hnat]

theorem toInt_leastWord (hw : w ≤ 64) (signed : Bool) :
    (leastWord w signed).toInt = least w signed := by
  cases signed with
  | false => rfl
  | true =>
    have hpow : 2 ^ (w - 1) ≤ 2 ^ 64 := Nat.pow_le_pow_right (by decide) (by omega)
    have hpos := Nat.two_pow_pos (w - 1)
    have hpower := toInt_power (k := w - 1) (by omega)
    simp only [leastWord, least, if_true, BitVec.toInt_neg, hpower, Nat.one_shiftLeft]
    exact Int.bmod_eq_of_le_mul_two (by omega) (by omega)

theorem toInt_greatestWord (hw : w ≤ 64) (signed : Bool) :
    (greatestWord w signed).toInt = greatest w signed := by
  have hbits : (if signed then w - 1 else w) ≤ 64 := by
    cases signed <;> simp <;> omega
  rw [greatestWord, greatest, Nat.one_shiftLeft]
  generalize (if signed then w - 1 else w) = k at hbits
  have hpow : 2 ^ k ≤ 2 ^ 64 := Nat.pow_le_pow_right (by decide) hbits
  have hpos := Nat.two_pow_pos k
  have hpower := toInt_power hbits
  have hone : (1#128).toInt = 1 := rfl
  rw [toInt_sub_of_fits (by omega) (by omega), hpower, hone]

/-! ## Words of 64 bits -/

theorem toNat_mask (hw : w ≤ 64) : (mask w).toNat = 2 ^ w - 1 := by
  rcases Nat.lt_or_eq_of_le hw with hlt | rfl
  · have hpow : 2 ^ w < 2 ^ 64 := Nat.pow_lt_pow_right (by decide) hlt
    have hpos := Nat.two_pow_pos w
    have hpower : (1#64 <<< w).toNat = 2 ^ w := by
      rw [BitVec.toNat_shiftLeft, BitVec.toNat_ofNat]
      norm_num [Nat.one_shiftLeft]
      omega
    rw [mask, if_neg (by omega), BitVec.toNat_sub_of_le (by rw [BitVec.le_def, hpower]; exact hpos),
      hpower]
    rfl
  · rfl

/-- Masking keeps the low bits. -/
theorem toNat_and_mask (hw : w ≤ 64) (raw : BitVec 64) :
    (raw &&& mask w).toNat = raw.toNat % 2 ^ w := by
  rw [BitVec.toNat_and, toNat_mask hw, Nat.and_two_pow_sub_one_eq_mod]

/-- The top bit of a number of some width is set in the upper half. -/
theorem top_bit_iff {low : BitVec 64} (hw : 1 ≤ w) (hlow : low.toNat < 2 ^ w) :
    (low >>> (w - 1)) &&& 1#64 = 1#64 ↔ 2 ^ (w - 1) ≤ low.toNat := by
  have hsplit : 2 ^ (w - 1) * 2 = 2 ^ w := by
    rw [← Nat.pow_succ, Nat.succ_eq_add_one, Nat.sub_add_cancel hw]
  have hbit : low.toNat / 2 ^ (w - 1) < 2 := Nat.div_lt_of_lt_mul (by omega)
  have hpos := Nat.two_pow_pos (w - 1)
  rw [BitVec.toNat_eq, BitVec.toNat_and, BitVec.toNat_ushiftRight, Nat.shiftRight_eq_div_pow]
  show low.toNat / 2 ^ (w - 1) &&& 1 = 1 ↔ _
  rw [Nat.and_one_is_mod, Nat.mod_eq_of_lt hbit, ← Nat.one_le_div_iff hpos]
  omega

/-! ## Encoding and decoding -/

/-- The low bits of an integer are the same, whether it is cut to 64 bits first or not. -/
theorem toNat_setWidth_and_mask (hw : w ≤ 64) (value : BitVec 128) :
    (value.setWidth 64 &&& mask w).toNat = wrap value.toInt w := by
  have hcut : (2 ^ w : Nat) ∣ 2 ^ 64 := Nat.pow_dvd_pow 2 hw
  have hwhole : (2 ^ w : Nat) ∣ 2 ^ 128 := Nat.pow_dvd_pow 2 (by omega)
  rw [toNat_and_mask hw, BitVec.toNat_setWidth, Nat.mod_mod_of_dvd _ hcut, ← wrap_natCast, wrap,
    wrap, BitVec.toInt_eq_toNat_bmod, ← Int.emod_emod_of_dvd _ (Int.natCast_dvd_natCast.2 hwhole),
    ← Int.emod_emod_of_dvd (Int.bmod _ _) (Int.natCast_dvd_natCast.2 hwhole), Int.bmod_emod]

/-- **Encoding on words is encoding.** -/
theorem encodeWord_map_toNat (hw : w ≤ 64) (value : BitVec 128) (signed : Bool) :
    (encodeWord value w signed).map BitVec.toNat = encode value.toInt w signed := by
  have hiff : (value.slt (leastWord w signed) || (greatestWord w signed).slt value) = true ↔
      ¬ (least w signed ≤ value.toInt ∧ value.toInt ≤ greatest w signed) := by
    rw [Bool.or_eq_true, BitVec.slt_iff_toInt_lt, BitVec.slt_iff_toInt_lt, toInt_leastWord hw,
      toInt_greatestWord hw]
    omega
  by_cases hfits : least w signed ≤ value.toInt ∧ value.toInt ≤ greatest w signed
  · rw [encodeWord, encode, if_neg (fun h => hiff.1 h hfits), if_pos hfits, Option.map_some,
      toNat_setWidth_and_mask hw, wrap, Nat.one_shiftLeft]
  · rw [encodeWord, encode, if_pos (hiff.2 hfits), if_neg hfits, Option.map_none]

/-- **Decoding on words is decoding.** -/
theorem toInt_decodeWord (hw : 1 ≤ w) (hw' : w ≤ 64) (raw : BitVec 64) (signed : Bool) :
    (decodeWord raw w signed).toInt = decode raw.toNat w signed := by
  have hpow : 2 ^ w ≤ 2 ^ 64 := Nat.pow_le_pow_right (by decide) hw'
  have hlow := toNat_and_mask hw' raw
  have hlt : (raw &&& mask w).toNat < 2 ^ w := hlow ▸ Nat.mod_lt _ (Nat.two_pow_pos w)
  have hwide : ((raw &&& mask w).setWidth 128).toInt = ((raw &&& mask w).toNat : Int) := by
    rw [BitVec.toInt_setWidth]
    exact Int.bmod_eq_of_le_mul_two (by omega) (by omega)
  have htop : (signed && decide (0 < w) &&
      ((raw &&& mask w) >>> (w - 1)) &&& 1#64 == 1#64) = true ↔
        signed = true ∧ 2 ^ (w - 1) ≤ (raw &&& mask w).toNat := by
    rw [Bool.and_eq_true, Bool.and_eq_true, beq_iff_eq, top_bit_iff hw hlt, decide_eq_true_iff]
    exact and_congr_left fun _ => and_iff_left hw
  simp only [decodeWord, decode, Nat.one_shiftLeft, ← hlow]
  by_cases hneg : signed = true ∧ 2 ^ (w - 1) ≤ (raw &&& mask w).toNat
  · have hpower := toInt_power hw'
    rw [if_pos (htop.2 hneg), if_pos hneg, toInt_sub_of_fits (by omega) (by omega), hwide, hpower]
  · rw [if_neg fun h => hneg (htop.1 h), if_neg hneg, hwide]

end Stimulus.TwosComplement

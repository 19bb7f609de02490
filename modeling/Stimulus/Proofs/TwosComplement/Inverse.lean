import Stimulus.Proofs.Field.Legal
import Stimulus.Proofs.Randomizer.Formula
import Stimulus.Proofs.TwosComplement.Words

/-!
# Encoding and decoding are inverse

An integer has a raw number at a type exactly if it is one of the type, and every raw number is
that of exactly one integer (`TwosComplement.encode_decode_inverse`). So literals are made of just
the integers of their type and have them as their values. A plain integer has a literal at its own
type, and the present value of a field has one at the type of the field, so a field can always be
pinned to it.
-/

set_option autoImplicit false

namespace Stimulus

namespace TwosComplement

variable {w : Nat}

/-- Encoding what a raw number stands for gives back its low bits. -/
theorem encode_decode_mod (hw : 1 ≤ w) (raw : Nat) (signed : Bool) :
    encode (decode raw w signed) w signed = some (raw % 2 ^ w) := by
  rw [← decode_mod]
  exact encode_decode (Nat.mod_lt _ (Nat.two_pow_pos w)) hw signed

theorem representable_decode (hw : 1 ≤ w) (raw : Nat) (signed : Bool) :
    Representable (decode raw w signed) w signed :=
  exists_encode_iff.1 ⟨_, encode_decode_mod hw raw signed⟩

end TwosComplement

/-- A literal is made exactly of an integer of a type, whose width is that of a field. -/
theorem Literal.exists_ofInt_iff {value : Int} {w : Nat} {signed : Bool} :
    (∃ l, ofInt value w signed = .ok l) ↔
      (1 ≤ w ∧ w ≤ maxWidth) ∧ Representable value w signed := by
  constructor
  · rintro ⟨l, hl⟩
    obtain ⟨rfl, rfl, rfl⟩ := ofInt_eq_ok.1 hl
    exact ⟨⟨l.width_pos, l.width_le⟩,
      TwosComplement.representable_decode l.width_pos l.raw l.signed⟩
  · rintro ⟨hw, hvalue⟩
    obtain ⟨raw, hraw⟩ := TwosComplement.exists_encode_iff.2 hvalue
    exact ⟨⟨raw, w, signed, hw.1, hw.2, TwosComplement.encode_lt hraw⟩,
      ofInt_eq_ok.2 ⟨rfl, rfl, TwosComplement.decode_encode hw.1 hraw⟩⟩

namespace TwosComplement

/-- **Encoding and decoding are inverse at every type.** An integer is encoded exactly if it is one
of the type; its raw number has the width and stands for it. A raw number stands for an integer of
the type, whatever lies beyond its low bits, and those are what this integer is encoded to. On
machine words both come to the same, without overflow.

So a literal is made exactly of the integers of its type and has them as their values. A plain
integer has the literal of its value at 32 bits, and a field can be pinned to its present value,
whose literal has the very bits of the field. -/
theorem encode_decode_inverse {w : Nat} (hw : 1 ≤ w) (hw' : w ≤ maxWidth) (signed : Bool) :
    (∀ value, (∃ raw, encode value w signed = some raw) ↔ Representable value w signed) ∧
    (∀ value raw, encode value w signed = some raw →
      raw < 2 ^ w ∧ decode raw w signed = value) ∧
    (∀ raw, Representable (decode raw w signed) w signed ∧
      encode (decode raw w signed) w signed = some (raw % 2 ^ w)) ∧
    (∀ raw raw', raw % 2 ^ w = raw' % 2 ^ w → decode raw w signed = decode raw' w signed) ∧
    (∀ value : BitVec 128,
      (encodeWord value w signed).map BitVec.toNat = encode value.toInt w signed) ∧
    (∀ raw : BitVec 64, (decodeWord raw w signed).toInt = decode raw.toNat w signed) ∧
    (∀ value width signed, (∃ l, Literal.ofInt value width signed = .ok l) ↔
      (1 ≤ width ∧ width ≤ maxWidth) ∧ Representable value width signed) ∧
    (∀ value width signed l, Literal.ofInt value width signed = .ok l →
      l.width = width ∧ l.signed = signed ∧ l.value = value) ∧
    (∀ value : Int32, Literal.ofInt value.toInt 32 true = .ok (Literal.ofInt32 value)) ∧
    ∀ ws f, ∃ l,
      Literal.ofInt (ws.slot f).toInt (ws.slot f).width (ws.slot f).signed = .ok l ∧
        l.raw = (ws.slot f).raw ∧
        Randomizer.pin ws f = .ok (.binary .eq (.field f) (.literal l)) := by
  refine ⟨fun value => exists_encode_iff, fun value raw h => ?_, fun raw => ?_,
    fun raw raw' h => ?_, fun value => encodeWord_map_toNat hw' value signed,
    fun raw => toInt_decodeWord hw hw' raw signed, fun _ _ _ => Literal.exists_ofInt_iff,
    fun _ _ _ _ => Literal.ofInt_eq_ok.1, Literal.ofInt_plain, fun ws f => ?_⟩
  · exact ⟨encode_lt_two_pow h, decode_encode hw h⟩
  · exact ⟨representable_decode hw raw signed, encode_decode_mod hw raw signed⟩
  · rw [← decode_mod raw, h, decode_mod]
  · exact ⟨_, Randomizer.ofInt_present ws f, rfl, Randomizer.pin_eq ws f⟩

/-- At the full width, the least integer and the first one beyond the greatest, and a raw number
with a bit beyond the word. -/
theorem fullWidth_encode_decode_inverse :
    (∃ raw, encode (-9223372036854775808) 64 true = some raw ∧ raw < 2 ^ 64 ∧
      decode raw 64 true = -9223372036854775808) ∧
    (¬ ∃ raw, encode 9223372036854775808 64 true = some raw) ∧
    decode (2 ^ 64 + 5) 64 true = decode 5 64 true ∧
    encode (decode (2 ^ 64 + 5) 64 true) 64 true = some 5 := by
  obtain ⟨hfits, hvalue, hback, hlow, -⟩ :=
    encode_decode_inverse (w := 64) (by decide) (by decide) true
  obtain ⟨raw, hraw⟩ := (hfits (-9223372036854775808)).2 ⟨by decide, by decide⟩
  refine ⟨⟨raw, hraw, hvalue _ raw hraw⟩, fun h => ?_, hlow _ _ (by decide), (hback (2 ^ 64 + 5)).2⟩
  exact absurd ((hfits 9223372036854775808).1 h).2 (by decide)

end TwosComplement

end Stimulus

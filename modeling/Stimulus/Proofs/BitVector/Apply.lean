import Stimulus.Proofs.Expr.Meaning
import Stimulus.Proofs.BitVector.Division
import Stimulus.Proofs.BitVector.Shift

/-!
# Operators on terms

A term means a quantity that depends on the assignment (`Store.Means`) if it has
its type and spells its raw value. Every operator on terms means that operator on
quantities (`Store.Valid.gives_apply`).
-/

set_option autoImplicit false

namespace Stimulus.Diagram.Store

open TwosComplement Quantity

variable {s t : Store} {w : Nat} {a b : BitVector} {X Y : Assignment → Nat}
  {P Q : Assignment → Quantity} {signed : Bool}

/-- The term has the type of the quantity and spells its raw value. -/
structure Means (s : Store) (a : BitVector) (Q : Assignment → Quantity) : Prop where
  /-- Terms have at least one bit. -/
  width_pos : 1 ≤ a.width
  /-- The type does not depend on the assignment. -/
  type_eq : ∀ ρ, (Q ρ).width = a.width ∧ (Q ρ).signed = a.signed
  /-- The bits are the digits of the raw value. -/
  spells : s.Spells a.width a.bits fun ρ => (Q ρ).raw

theorem Means.congr (h : s.Means a P) (hPQ : ∀ ρ, P ρ = Q ρ) : s.Means a Q :=
  (funext hPQ : P = Q) ▸ h

theorem Means.grow (h : s.Means a Q) (hs : s.Reduced) (hst : s.GrowsTo t) : t.Means a Q :=
  ⟨h.width_pos, h.type_eq, h.spells.grow hs hst⟩

/-- The raw values of a term are in the range of its type. -/
theorem Means.inRange (h : s.Means a Q) (ρ : Assignment) : (Q ρ).InRange := by
  have hwidth := (h.type_eq ρ).1
  exact ⟨hwidth ▸ h.width_pos, hwidth ▸ h.spells.lt ρ⟩

/-- A term that spells a number means it. -/
theorem Spells.means (h : s.Spells w a.bits X) (hw : 1 ≤ w) :
    s.Means a fun ρ => ⟨w, a.signed, X ρ⟩ := by
  have hwidth : a.width = w := h.length
  exact ⟨by omega, fun ρ => ⟨hwidth.symm, rfl⟩, by rw [hwidth]; exact h⟩

/-- A single bit means a truth value. -/
theorem Denotes.means {e : Edge} {φ : Assignment → Bool} (h : s.Denotes e φ) :
    s.Means (.ofBit e) fun ρ => flag (φ ρ) :=
  ⟨Nat.le_refl 1, fun _ => ⟨rfl, rfl⟩, h.spells⟩

/-- What means a truth value is a single bit. -/
theorem Means.exists_bit {φ : Assignment → Bool} (h : s.Means a fun ρ => flag (φ ρ)) :
    ∃ f, a = .ofBit f ∧ s.Denotes f φ := by
  obtain ⟨hwidth, hsigned⟩ : 1 = a.width ∧ false = a.signed := h.type_eq fun _ => false
  have hbits : s.Spells 1 a.bits fun ρ => (φ ρ).toNat := hwidth ▸ h.spells
  obtain ⟨bits, signed⟩ := a
  obtain ⟨f, rest, rfl, -, hrest⟩ := hbits.eq_cons
  obtain ⟨rfl, -⟩ := hrest.eq_nil
  cases hsigned
  refine ⟨f, rfl, hbits.denotes.congr fun ρ => ?_⟩
  cases φ ρ <;> rfl

/-- A computation that ends with a single bit. -/
theorem Gives.ofBit {x : Build Edge} {φ : Assignment → Bool}
    (hx : s.Gives x fun e t => t.Denotes e φ) :
    s.Gives (do return .ofBit (← x)) fun r t => t.Means r fun ρ => flag (φ ρ) :=
  (hx.mono fun _ _ _ _ he => he.means).map

/-- A computation that ends with a term of a known flag. -/
theorem Gives.means {x : Build BitVector} (hw : 1 ≤ w)
    (hx : s.Gives x fun r t => r.signed = signed ∧ t.Spells w r.bits X) :
    s.Gives x fun r t => t.Means r fun ρ => ⟨w, signed, X ρ⟩ :=
  hx.mono fun r t _ _ ⟨hsigned, hr⟩ => by
    rw [← hsigned]
    exact hr.means hw

/-! ## Operators on terms of one width -/

theorem Valid.gives_less (hs : s.Valid) (hx : s.Spells w a.bits X) (hy : s.Spells w b.bits Y)
    (hw : 1 ≤ w) (signed : Bool) :
    s.Gives (BitVector.less signed a b) fun e t => t.Denotes e fun ρ =>
      decide (decode (X ρ) w signed < decode (Y ρ) w signed) := by
  obtain ⟨n, rfl⟩ : ∃ n, w = n + 1 := ⟨w - 1, by omega⟩
  cases signed with
  | true => exact hs.gives_slt hx hy
  | false =>
    refine (hs.gives_ult hx hy).mono fun e t _ _ he => he.congr fun ρ => ?_
    rw [decode_unsigned (hx.lt ρ), decode_unsigned (hy.lt ρ), decide_eq_decide]
    exact Int.ofNat_lt.symm

theorem Valid.gives_lessEq (hs : s.Valid) (hx : s.Spells w a.bits X) (hy : s.Spells w b.bits Y)
    (hw : 1 ≤ w) (signed : Bool) :
    s.Gives (BitVector.lessEq signed a b) fun e t => t.Denotes e fun ρ =>
      decide (decode (X ρ) w signed ≤ decode (Y ρ) w signed) := by
  obtain ⟨n, rfl⟩ : ∃ n, w = n + 1 := ⟨w - 1, by omega⟩
  cases signed with
  | true => exact hs.gives_sle hx hy
  | false =>
    refine (hs.gives_ule hx hy).mono fun e t _ _ he => he.congr fun ρ => ?_
    rw [decode_unsigned (hx.lt ρ), decode_unsigned (hy.lt ρ), decide_eq_decide]
    exact Int.ofNat_le.symm

theorem quotient_natCast {x y : Nat} (hx : x < 2 ^ w) :
    quotient w x y = quotientWithin w x y := by
  unfold quotient quotientWithin
  simp only [Int.natCast_eq_zero]
  split
  · exact if_neg (Int.not_lt.2 (Int.natCast_nonneg x))
  · rw [← Int.ofNat_tdiv, wrap_natCast]
    exact Nat.mod_eq_of_lt (Nat.lt_of_le_of_lt (Nat.div_le_self x y) hx)

theorem remainder_natCast {x y : Nat} (hx : x < 2 ^ w) : remainder w x y = x % y := by
  rw [remainder_eq_wrap, ← Int.ofNat_tmod, wrap_natCast]
  exact Nat.mod_eq_of_lt (Nat.lt_of_le_of_lt (Nat.mod_le x y) hx)

/-- Both results of a division, signed or not. -/
theorem Valid.gives_divmod (hs : s.Valid) (hx : s.Spells w a.bits X) (hy : s.Spells w b.bits Y)
    (hw : 1 ≤ w) (signed : Bool) :
    s.Gives (BitVector.divmod signed a b) fun r t =>
      (r.1.signed = signed ∧ t.Spells w r.1.bits fun ρ =>
        quotient w (decode (X ρ) w signed) (decode (Y ρ) w signed)) ∧
      r.2.signed = signed ∧ t.Spells w r.2.bits fun ρ =>
        remainder w (decode (X ρ) w signed) (decode (Y ρ) w signed) := by
  obtain ⟨n, rfl⟩ : ∃ n, w = n + 1 := ⟨w - 1, by omega⟩
  cases signed with
  | true =>
    refine (hs.gives_sdivmod hx hy).mono fun r t _ _ ⟨⟨hq, hquot⟩, hr, hrem⟩ =>
      ⟨⟨hq, hquot.congr fun ρ => ?_⟩, hr, hrem.congr fun ρ => ?_⟩
    · unfold quotient
      simp only [decode_eq_zero_iff (hy.lt ρ)]
    · rw [remainder_eq_wrap]
  | false =>
    refine (hs.gives_udivmod hx hy).mono fun r t _ _ ⟨⟨hq, hquot⟩, hr, hrem⟩ =>
      ⟨⟨hq, hquot.congr fun ρ => ?_⟩, hr, hrem.congr fun ρ => ?_⟩
    · rw [decode_unsigned (hx.lt ρ), decode_unsigned (hy.lt ρ), quotient_natCast (hx.lt ρ)]
    · rw [decode_unsigned (hx.lt ρ), decode_unsigned (hy.lt ρ), remainder_natCast (hx.lt ρ)]

/-- Every operator on terms of one type. -/
theorem Valid.gives_applyAligned (hs : s.Valid) (hx : s.Spells w a.bits X)
    (hy : s.Spells w b.bits Y) (hw : 1 ≤ w) (ha : a.signed = signed) (hb : b.signed = signed)
    (op : Operator) :
    s.Gives (BitVector.applyAligned op a b signed) fun r t =>
      t.Means r fun ρ => aligned op w signed (X ρ) (Y ρ) := by
  -- equality does not depend on the sign, as decoding is injective
  have hinj : ∀ ρ, decode (X ρ) w signed = decode (Y ρ) w signed ↔ X ρ = Y ρ := fun ρ =>
    decode_inj (hx.lt ρ) (hy.lt ρ) hw signed
  have hflags : (a.signed && b.signed) = signed := by rw [ha, hb, Bool.and_self]
  cases op with
  | eq =>
    refine Gives.ofBit ((hs.gives_eq hx hy).mono fun e t _ _ he => he.congr fun ρ => ?_)
    rw [decide_eq_decide, hinj]
  | ne =>
    refine ((hs.gives_eq hx hy).mono fun e t ht _ he => ?_).map
    refine (he.neg ht.reduced).means.congr fun ρ => congrArg flag ?_
    rw [← decide_not, decide_eq_decide]
    exact not_congr (hinj ρ).symm
  | lt => exact Gives.ofBit (hs.gives_less hx hy hw signed)
  | le => exact Gives.ofBit (hs.gives_lessEq hx hy hw signed)
  | gt => exact Gives.ofBit (hs.gives_less hy hx hw signed)
  | ge => exact Gives.ofBit (hs.gives_lessEq hy hx hw signed)
  | add =>
    rw [← hflags]
    exact (hs.gives_add hx hy).means hw
  | sub =>
    rw [← hflags]
    refine ((hs.gives_sub hx hy).means hw).mono fun r t _ _ hr => hr.congr fun ρ => ?_
    unfold aligned
    rw [wrap_sub (hy.lt ρ)]
  | mul =>
    rw [← hflags]
    exact (hs.gives_mul hx hy).means hw
  | div =>
    exact (((hs.gives_divmod hx hy hw signed).mono fun r t _ _ hr => hr.1).map).means hw
  | mod =>
    exact (((hs.gives_divmod hx hy hw signed).mono fun r t _ _ hr => hr.2).map).means hw
  | and =>
    rw [← hflags]
    exact (hs.gives_and hx hy).means hw
  | or =>
    rw [← hflags]
    exact (hs.gives_or hx hy).means hw
  | xor =>
    rw [← hflags]
    exact (hs.gives_xor hx hy).means hw
  | shiftLeft =>
    rw [← ha]
    exact (hs.gives_shl hx hy).means hw
  | shiftRight =>
    rw [← ha]
    exact (hs.gives_lshr hx hy).means hw

/-! ## Operators on any terms -/

/-- A term extended to a larger width. -/
theorem Means.resize (h : s.Means a P) (hs : s.Reduced) (hw : a.width ≤ w) :
    s.Spells w (a.resizeBits w) fun ρ => (P ρ).extend w := by
  refine (h.spells.resize hs h.width_pos hw).congr fun ρ => ?_
  unfold Quantity.extend Quantity.toInt
  rw [(h.type_eq ρ).1, (h.type_eq ρ).2]

/-- **Every operator on terms means that operator on quantities.** -/
theorem Valid.gives_apply (hs : s.Valid) (ha : s.Means a P) (hb : s.Means b Q) (op : Operator) :
    s.Gives (BitVector.apply op a b) fun r t => t.Means r fun ρ => apply op (P ρ) (Q ρ) := by
  -- all operators but the shifts extend both operands first
  have haligned := hs.gives_applyAligned (a := ⟨a.resizeBits (max a.width b.width), _⟩)
    (b := ⟨b.resizeBits (max a.width b.width), _⟩) (ha.resize hs.reduced (Nat.le_max_left _ _))
    (hb.resize hs.reduced (Nat.le_max_right _ _))
    (Nat.le_trans ha.width_pos (Nat.le_max_left _ _)) rfl (Eq.refl (a.signed && b.signed)) op
  have htype : ∀ ρ, aligned op (max (P ρ).width (Q ρ).width) ((P ρ).signed && (Q ρ).signed)
      ((P ρ).extend (max (P ρ).width (Q ρ).width)) ((Q ρ).extend (max (P ρ).width (Q ρ).width)) =
      aligned op (max a.width b.width) (a.signed && b.signed)
        ((P ρ).extend (max a.width b.width)) ((Q ρ).extend (max a.width b.width)) := fun ρ => by
    rw [(ha.type_eq ρ).1, (ha.type_eq ρ).2, (hb.type_eq ρ).1, (hb.type_eq ρ).2]
  cases op with
  | shiftLeft =>
    refine ((hs.gives_shl ha.spells hb.spells).means ha.width_pos).mono
      fun r t _ _ hr => hr.congr fun ρ => ?_
    unfold Quantity.apply
    rw [(ha.type_eq ρ).1, (ha.type_eq ρ).2]
  | shiftRight =>
    refine ((hs.gives_lshr ha.spells hb.spells).means ha.width_pos).mono
      fun r t _ _ hr => hr.congr fun ρ => ?_
    unfold Quantity.apply
    rw [(ha.type_eq ρ).1, (ha.type_eq ρ).2]
  | _ => exact haligned.mono fun r t _ _ hr => hr.congr fun ρ => (htype ρ).symm

end Stimulus.Diagram.Store

import Stimulus.Proofs.Expr.Meaning

/-!
# Comparisons of quantities

A comparison asks for a relation of two integers (`Operator.relates`). Where both quantities have
one signedness these are the integers that they stand for, whatever the widths; where only one of
them is signed, both are taken modulo two to the larger width (`Quantity.against`). So a negative
quantity compares with an unsigned one as a large number.

The comparison of the extended raw values decides that relation (`Quantity.apply_comparison`). Of
two integers exactly one of less, equal and greater holds (`Operator.existsUnique_relates`), and the
other comparisons are the complements of these (`Operator.relates_opposite?`).
-/

set_option autoImplicit false

namespace Stimulus

open TwosComplement

/-! ## Relations of integers -/

namespace Operator

/-- The relation that a comparison asks for. -/
def relates : Operator → Int → Int → Bool
  | .eq, i, j => decide (i = j)
  | .ne, i, j => decide (i ≠ j)
  | .lt, i, j => decide (i < j)
  | .le, i, j => decide (i ≤ j)
  | .gt, i, j => decide (i > j)
  | .ge, i, j => decide (i ≥ j)
  | _, _, _ => false

/-- The comparison whose complement a comparison is. -/
def opposite? : Operator → Option Operator
  | .ne => some .eq
  | .le => some .gt
  | .ge => some .lt
  | _ => none

variable {op op' : Operator}

/-- Exactly one of three comparisons holds. -/
theorem existsUnique_relates (i j : Int) :
    ∃! op, op ∈ [lt, eq, gt] ∧ op.relates i j = true := by
  simp only [ExistsUnique, List.mem_cons, List.not_mem_nil, or_false]
  rcases Int.lt_trichotomy i j with hlt | heq | hgt
  · refine ⟨lt, ⟨Or.inl rfl, decide_eq_true hlt⟩, ?_⟩
    rintro op ⟨rfl | rfl | rfl, h⟩
    · rfl
    · exact absurd (of_decide_eq_true h) (Int.ne_of_lt hlt)
    · exact absurd (of_decide_eq_true h) (Int.lt_asymm hlt)
  · refine ⟨eq, ⟨Or.inr (Or.inl rfl), decide_eq_true heq⟩, ?_⟩
    rintro op ⟨rfl | rfl | rfl, h⟩
    · exact absurd heq (Int.ne_of_lt (of_decide_eq_true h))
    · rfl
    · exact absurd heq (Int.ne_of_gt (of_decide_eq_true h))
  · refine ⟨gt, ⟨Or.inr (Or.inr rfl), decide_eq_true hgt⟩, ?_⟩
    rintro op ⟨rfl | rfl | rfl, h⟩
    · exact absurd (of_decide_eq_true h) (Int.lt_asymm hgt)
    · exact absurd (of_decide_eq_true h) (Int.ne_of_gt hgt)
    · rfl

theorem relates_opposite? (h : op.opposite? = some op') (i j : Int) :
    op.relates i j = !op'.relates i j := by
  unfold opposite? at h
  split at h
  · cases h
    exact decide_not
  · cases h
    rw [relates, relates, ← decide_not, decide_eq_decide, gt_iff_lt, Int.not_lt]
  · cases h
    rw [relates, relates, ← decide_not, decide_eq_decide, ge_iff_le, Int.not_lt]
  · cases h

theorem isComparison_of_opposite? (h : op.opposite? = some op') :
    op.isComparison = true ∧ op'.isComparison = true := by
  unfold opposite? at h
  split at h <;> cases h <;> exact ⟨rfl, rfl⟩

end Operator

/-! ## Integers of comparisons -/

namespace Quantity

/-- The integer that stands for `p` in a comparison with `q`. -/
def against (p q : Quantity) : Int :=
  if p.signed = q.signed then p.toInt else p.toInt % (2 ^ max p.width q.width : Nat)

variable {p q : Quantity} {w : Nat} {op : Operator}

theorem against_of_signed_eq (h : p.signed = q.signed) : p.against q = p.toInt := if_pos h

theorem against_of_signed_ne (h : p.signed ≠ q.signed) :
    p.against q = p.toInt % (2 ^ max p.width q.width : Nat) := if_neg h

/-- An integer keeps its value when it is extended. -/
theorem InRange.decode_extend (hp : p.InRange) (hw : p.width ≤ w) :
    decode (p.extend w) w p.signed = p.toInt := by
  have hlt := hp.raw_lt
  have hle : 2 ^ p.width ≤ 2 ^ w := Nat.pow_le_pow_right Nat.two_pos hw
  unfold extend
  cases hsigned : p.signed with
  | false =>
    unfold toInt
    rw [hsigned, decode_unsigned hlt, wrap_natCast, Nat.mod_eq_of_lt (by omega),
      decode_unsigned (by omega)]
  | true =>
    obtain ⟨n, hn⟩ : ∃ n, p.width = n + 1 := ⟨p.width - 1, by have := hp.width_pos; omega⟩
    obtain ⟨m, rfl⟩ : ∃ m, w = m + 1 := ⟨w - 1, by omega⟩
    -- the range of the narrow type lies in that of the wide one
    have hbounds : -(2 ^ n : Nat) ≤ p.toInt ∧ p.toInt < (2 ^ n : Nat) := by
      unfold toInt
      rw [hn] at hlt ⊢
      rw [hsigned]
      exact decode_bounds hlt
    have hnm : 2 ^ n ≤ 2 ^ m := Nat.pow_le_pow_right Nat.two_pos (by omega)
    exact decode_wrap (by omega) (by omega)

/-- Quantities of one width are equal if their raw values are. -/
theorem InRange.apply_eq (hp : p.InRange) (hq : q.InRange) (hw : p.width = q.width) :
    apply .eq p q = flag (decide (p.raw = q.raw)) := by
  have hp' : p.extend p.width = p.raw := wrap_decode hp.raw_lt hp.width_pos p.signed
  have hq' : q.extend p.width = q.raw := hw ▸ wrap_decode hq.raw_lt hq.width_pos q.signed
  have hinj := decode_inj hp.raw_lt (hw ▸ hq.raw_lt) hp.width_pos (p.signed && q.signed)
  show flag (decide (decode (p.extend (max p.width q.width)) (max p.width q.width) _ =
    decode (q.extend (max p.width q.width)) (max p.width q.width) _)) = _
  rw [← hw, Nat.max_self, hp', hq', decide_eq_decide.2 hinj]

/-- Read without a sign, an extended integer is taken modulo two to the width. -/
theorem decode_extend_unsigned (p : Quantity) (w : Nat) :
    decode (p.extend w) w false = p.toInt % (2 ^ w : Nat) := by
  unfold extend
  rw [decode_unsigned (wrap_lt _ _), natCast_wrap]

/-- What a comparison reads of one of its operands. -/
theorem InRange.decode_against (hp : p.InRange) (hw : w = max p.width q.width) {signed : Bool}
    (hsigned : signed = (p.signed && q.signed)) :
    decode (p.extend w) w signed = p.against q := by
  subst hw hsigned
  unfold against
  split
  · rename_i hsame
    rw [← hsame, Bool.and_self]
    exact hp.decode_extend (Nat.le_max_left _ _)
  · rename_i hmixed
    -- one of two different flags is not set
    have hflag : (p.signed && q.signed) = false := by
      revert hmixed
      cases p.signed <;> cases q.signed <;> simp
    rw [hflag]
    exact decode_extend_unsigned p _

/-- **A comparison decides the relation of the two integers.** -/
theorem apply_comparison (hop : op.isComparison = true) (hp : p.InRange) (hq : q.InRange) :
    apply op p q = flag (op.relates (p.against q) (q.against p)) := by
  have hi : decode (p.extend (max p.width q.width)) (max p.width q.width) (p.signed && q.signed) =
      p.against q := hp.decode_against rfl rfl
  have hj : decode (q.extend (max p.width q.width)) (max p.width q.width) (p.signed && q.signed) =
      q.against p := hq.decode_against (Nat.max_comm _ _) (Bool.and_comm _ _)
  cases op with
  | eq | ne | lt | le | gt | ge =>
    simp only [apply, aligned, hi, hj]
    rfl
  | _ => cases hop

end Quantity

end Stimulus

import Stimulus.Proofs.Diagram.Canonicity
import Stimulus.Proofs.Expr.Shape
import Stimulus.Proofs.Lowering.Meaning
import Stimulus.Proofs.Lowering.Readings

/-!
# Constant terms

A term is recognised as constant exactly if the value that it means is the same for
all raw values of the fields (`Lowering.Means.toConstant?_eq_some`): equal functions
are equal edges (`Store.Means.inj`), so a constant function is one of the two constant
edges, however it was built. With this the bounds and the indexes of terms are those of the
expressions (`Lowering.Means.bound_eq`).
-/

set_option autoImplicit false

namespace Stimulus

open Diagram Store TwosComplement

/-- The width and the flag of a term. -/
def BitVector.shape (a : BitVector) : Shape := ⟨a.width, a.signed⟩

/-- Digits that spell the same number are the same edges. -/
theorem Diagram.Store.Reduced.spells_inj {s : Store} (hs : s.Reduced) : ∀ {w : Nat}
    {xs ys : List Edge} {X : Assignment → Nat}, s.Spells w xs X → s.Spells w ys X → xs = ys := by
  intro w
  induction w with
  | zero =>
    intro xs ys X hx hy
    rw [hx.eq_nil.1, hy.eq_nil.1]
  | succ w ih =>
    intro xs ys X hx hy
    obtain ⟨e, xs, rfl, he, hxs⟩ := hx.eq_cons
    obtain ⟨f, ys, rfl, hf, hys⟩ := hy.eq_cons
    rw [hs.canonical he hf, ih hxs hys]

/-- **Terms of the same meaning are equal.** -/
theorem Diagram.Store.Means.inj {s : Store} {a b : BitVector} {Q : Assignment → Quantity}
    (ha : s.Means a Q) (hb : s.Means b Q) (hs : s.Reduced) : a = b := by
  obtain ⟨haw, has⟩ := ha.type_eq fun _ => false
  obtain ⟨hbw, hbs⟩ := hb.type_eq fun _ => false
  have hwidth : b.width = a.width := hbw.symm.trans haw
  have hbits := hs.spells_inj ha.spells (hwidth ▸ hb.spells)
  cases a
  cases b
  rw [BitVector.mk.injEq]
  exact ⟨hbits, has.symm.trans hbs⟩

/-- **Digits that spell one number are constant edges.** -/
theorem Diagram.Store.constantValue?_of_spells {s : Store} (hs : s.Reduced) : ∀ {w : Nat}
    {bits : List Edge} {n : Nat}, s.Spells w bits (fun _ => n) →
    BitVector.constantValue? bits = some n := by
  intro w
  induction w with
  | zero =>
    intro bits n h
    obtain ⟨rfl, hn⟩ := h.eq_nil
    rw [show n = 0 from congrFun hn fun _ => false]
    rfl
  | succ w ih =>
    intro bits n h
    obtain ⟨e, rest, rfl, he, hrest⟩ := h.eq_cons
    simp only [BitVector.constantValue?, ih hrest]
    -- the lowest digit has the function of a constant edge, so it is this edge
    rcases Nat.mod_two_eq_zero_or_one n with hn | hn
    · obtain rfl : e = .zero := hs.canonical (he.congr fun _ => by simp [hn]) (denotes_zero hs)
      simp [Edge.zero, Edge.one]
      omega
    · obtain rfl : e = .one := hs.canonical (he.congr fun _ => by simp [hn]) (denotes_one hs)
      simp
      omega

/-- A signed number with its top digit set is negative. -/
theorem TwosComplement.decode_neg_iff_testBit {n w : Nat} {signed : Bool} (hn : n < 2 ^ w)
    (hw : 1 ≤ w) : decode n w signed < 0 ↔ signed = true ∧ n.testBit (w - 1) = true := by
  obtain ⟨k, rfl⟩ : ∃ k, w = k + 1 := ⟨w - 1, by omega⟩
  cases signed with
  | false => simp [decode_unsigned hn]
  | true =>
    rw [decode_neg_iff hn, Nat.add_sub_cancel]
    constructor
    · exact fun h => ⟨rfl, Nat.testBit_of_two_pow_le_and_two_pow_add_one_gt h hn⟩
    · rintro ⟨-, h⟩
      by_contra hlt
      simp [Nat.testBit_lt_two_pow (Nat.lt_of_not_le hlt)] at h

namespace Lowering

variable {ws : Workspace} {l : Lowering} {t : BitVector} {e : Expr} {n : Nat}
  {value : (Field → Quantity) → Quantity} {raw : Field → Nat}

/-- Raw values that the fields can have are read under some assignment. -/
theorem Valid.exists_reads_of_fits (hl : l.Valid ws) (hraw : ws.Fits raw) : ∃ ρ, l.Reads ρ raw :=
  hl.exists_reads fun f _ => hraw f

/-- Every assignment reads raw values that the fields can have. -/
theorem Valid.fits_reading (hl : l.Valid ws) (ρ : Assignment) : ws.Fits (reading ws l ρ) :=
  fun f => hl.reading_lt ρ f

theorem Means.shape_eq (h : l.Means ws t value) (hl : l.Valid ws) (hraw : ws.Fits raw) :
    (value (ws.quantity raw)).shape = t.shape := by
  obtain ⟨Q, hQ, hvalue⟩ := h
  obtain ⟨ρ, hρ⟩ := hl.exists_reads_of_fits hraw
  rw [← hvalue ρ raw hρ]
  exact Shape.mk.injEq _ _ _ _ ▸ hQ.type_eq ρ

theorem Means.raw_lt (h : l.Means ws t value) (hl : l.Valid ws) (hraw : ws.Fits raw) :
    (value (ws.quantity raw)).raw < 2 ^ t.width := by
  obtain ⟨Q, hQ, hvalue⟩ := h
  obtain ⟨ρ, hρ⟩ := hl.exists_reads_of_fits hraw
  rw [← hvalue ρ raw hρ]
  exact hQ.spells.lt ρ

/-- A term of a constant expression spells its value. -/
theorem Means.spells_of_always (h : l.Means ws t fun fields => e.meaning fields) (hl : l.Valid ws)
    (hn : e.Always ws n) : l.solver.store.Spells t.width t.bits fun _ => n := by
  obtain ⟨Q, hQ, hvalue⟩ := h
  refine hQ.spells.congr fun ρ => ?_
  rw [hvalue ρ _ (hl.reads_reading ρ)]
  exact hn _ (hl.fits_reading ρ)

/-- **A term is recognised as constant exactly if the expression is.** -/
theorem Means.toConstant?_eq_some (h : l.Means ws t fun fields => e.meaning fields)
    (hl : l.Valid ws) (hw : t.width ≤ maxWidth) : t.toConstant? = some n ↔ e.Always ws n := by
  unfold BitVector.toConstant?
  rw [Option.filter_eq_some_iff]
  constructor
  · rintro ⟨hvalue, -⟩ raw hraw
    obtain ⟨Q, hQ, heq⟩ := h
    obtain ⟨ρ, hρ⟩ := hl.exists_reads_of_fits hraw
    -- the bits spell one number only
    have hraw : (Q ρ).raw = n :=
      congrFun (hQ.spells.unique (spells_of_constantValue? hl.store.reduced hvalue)) ρ
    rwa [heq ρ raw hρ] at hraw
  · intro hn
    have hspells := h.spells_of_always hl hn
    refine ⟨constantValue?_of_spells hl.store.reduced hspells, ?_⟩
    -- terms are not wider than the widest field
    rw [decide_eq_true_eq, Nat.one_shiftLeft]
    exact Nat.lt_of_lt_of_le (hspells.lt fun _ => false) (Nat.pow_le_pow_right Nat.two_pos hw)

theorem Means.toConstant?_eq (h : l.Means ws t fun fields => e.meaning fields) (hl : l.Valid ws)
    (hw : t.width ≤ maxWidth) : t.toConstant? = e.constant? ws :=
  Option.ext fun _ => (h.toConstant?_eq_some hl hw).trans Expr.constant?_eq_some.symm

/-- **The bound of a term is that of its expression.** -/
theorem Means.bound_eq (h : l.Means ws t fun fields => e.meaning fields) (hl : l.Valid ws)
    (hw : t.shape.InRange) : Lowering.bound ws e t = e.bound ws t.shape := by
  unfold Lowering.bound Expr.bound
  rw [h.toConstant?_eq hl hw.2]
  cases hn : e.constant? ws with
  | none => rfl
  | some n =>
    have hlt : n < 2 ^ t.width :=
      (h.spells_of_always hl (Expr.constant?_eq_some.1 hn)).lt fun _ => false
    have hneg : t.signed = true ∧ t.width < maxWidth ∧ n.testBit (t.width - 1) = true ↔
        t.shape.width < maxWidth ∧ decode n t.shape.width t.shape.signed < 0 := by
      rw [and_left_comm]
      exact and_congr_right' (decode_neg_iff_testBit hlt hw.1).symm
    simp only [hneg]

end Lowering

end Stimulus

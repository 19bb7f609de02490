import Stimulus.Proofs.Lowering.Recall
import Stimulus.Proofs.Lowering.Selection

/-!
# Single bits as slices

A bit with a constant index and the slice from this index to itself are checked by
different rules: the bit only by the raw value of the index, the slice also by its
sign. They give the same term where both lower, and they part exactly at negative
indexes of narrow types whose raw values lie within the base
(`Lowering.Reached.bit_and_slice`).
-/

set_option autoImplicit false

namespace Stimulus.Lowering

open Diagram Store TwosComplement

variable {ws : Workspace} {l l' l₁ l₂ : Lowering} {a c t : BitVector} {base index e : Expr}
  {n : Nat} {err : Error}

/-! ## No new nodes -/

/-- An expression that was lowered lowers again, to the same term. -/
theorem Sound.runs_again (h : Sound ws l) (hr : Runs ws l e (.ok t) l') :
    ∃ l'', Runs ws l' e (.ok t) l'' := by
  obtain ⟨h', -, hrecalls⟩ := repeats_lower e l h t l' hr
  obtain ⟨store, hr', -⟩ := hrecalls l' h'.valid (GrowsTo.refl ws l')
  exact ⟨_, hr'⟩

/-- Selecting by a constant index needs no new node. -/
theorem Sound.run_selectBit_constant {α : (Field → Quantity) → Quantity} (h : Sound ws l)
    (ha : l.Means ws a α) (hc : l.Means ws c fun fields => e.meaning fields)
    (hw : c.width ≤ maxWidth) (hn : c.toConstant? = some n) :
    ∃ l', (selectBit a c).run.run l = .ok (bitTerm a n, l') := by
  have hends : ∃ r l', (selectBit a c).run.run l = .ok (r, l') := by
    unfold selectBit
    rw [hn]
    dsimp only
    split
    · exact ⟨_, l, rfl⟩
    · rename_i hwidth
      have hs := h.valid.store
      have hspells := hc.spells_of_always h.valid ((hc.toConstant?_eq_some h.valid hw).1 hn)
      have hlt : n < 2 ^ c.width := hspells.lt fun _ => false
      have hbits : c.bits = BitVector.constantBits n c.width :=
        hs.reduced.spells_inj hspells ((spells_constantBits hs.reduced n c.width).congr fun _ =>
          Nat.mod_eq_of_lt hlt)
      obtain ⟨Q, hQ, -⟩ := ha
      obtain ⟨f, hf⟩ := hs.recalls_select hQ.spells.has hbits hlt (Nat.lt_of_not_le hwidth)
      have hterm := hf.bind (k := fun f => pure (BitVector.ofBit f)) (Store.recalls_pure _ _)
      obtain ⟨store, hselect, -⟩ := hterm.run hs
      exact ⟨_, _, run_solving (Solver.build_ok hselect)⟩
  obtain ⟨r, l', hr⟩ := hends
  exact ⟨l', by rw [hr, h.valid.of_run_selectBit_constant ha hc hw hn hr]⟩

/-! ## Bits and slices -/

theorem bitTerm_eq_ok :
    bitTerm a n = .ok t ↔ ∃ f, a.bits[n]? = some f ∧ t = .ofBit f := by
  unfold bitTerm
  cases a.bits[n]? <;> simp [eq_comm]

theorem exists_bitTerm : (∃ t, bitTerm a n = .ok t) ↔ n < a.width := by
  simp only [bitTerm_eq_ok]
  constructor
  · rintro ⟨t, f, hf, -⟩
    exact (List.getElem?_eq_some_iff.1 hf).1
  · intro hlt
    exact ⟨_, _, List.getElem?_eq_getElem hlt, rfl⟩

/-- One bit of a base, as a slice. -/
theorem sliceTerm_self (a : BitVector) (n : Nat) :
    sliceTerm a n n = .ok t ↔ bitTerm a n = .ok t := by
  rw [bitTerm_eq_ok]
  unfold sliceTerm
  by_cases hlt : n < a.width
  · have hbits : (a.bits.drop n).take 1 = [a.bits.get ⟨n, hlt⟩] := by
      rw [List.drop_eq_getElem_cons hlt, List.take_succ_cons, List.take_zero]
      rfl
    have hget : a.bits[n]? = some (a.bits.get ⟨n, hlt⟩) := List.getElem?_eq_getElem hlt
    rw [if_neg (by omega), Nat.sub_self, hbits, hget]
    constructor
    · rintro ⟨⟩
      exact ⟨_, rfl, rfl⟩
    · rintro ⟨f, hf, rfl⟩
      cases hf
      rfl
  · have hnone : a.bits[n]? = none := List.getElem?_eq_none (Nat.le_of_not_lt hlt)
    rw [if_pos (by omega)]
    simp [hnone]

/-- A constant bound is refused if it is negative, of a type narrower than the widest field. -/
theorem bound_of_constant (hn : c.toConstant? = some n) (hlt : n < 2 ^ c.width)
    (hw : 1 ≤ c.width) :
    bound ws e c = if decode n c.width c.signed < 0 ∧ c.width < maxWidth then
      .error (.widthMismatch (.negative (e.text ws.label))) else .ok n := by
  have hneg : c.signed = true ∧ c.width < maxWidth ∧ n.testBit (c.width - 1) = true ↔
      decode n c.width c.signed < 0 ∧ c.width < maxWidth := by
    rw [decode_neg_iff_testBit hlt hw, and_assoc, and_comm (a := c.width < maxWidth)]
  unfold bound
  rw [hn]
  simp only [hneg]

theorem sliceTerm_eq_error {high low : Nat} (h : sliceTerm a high low = .error err) :
    ∃ cause, err = .widthMismatch cause := by
  unfold sliceTerm at h
  split at h
  · exact ⟨_, (Except.error.inj h).symm⟩
  · cases h

/-- A number that does not read as visibly negative lies within a base exactly if its integer
does. -/
theorem lt_iff_decode_lt {w width : Nat} {signed : Bool} (hlt : n < 2 ^ w) (hw : 1 ≤ w)
    (hmax : width ≤ maxWidth) (h : ¬ (decode n w signed < 0 ∧ w < maxWidth)) :
    n < width ↔ 0 ≤ decode n w signed ∧ decode n w signed < width := by
  constructor
  · intro hwidth
    have hpos := decode_nonneg_of_lt hlt hw (Nat.lt_of_lt_of_le hwidth hmax)
      fun hnarrow => Int.not_lt.1 fun hneg => h ⟨hneg, hnarrow⟩
    rw [decode_of_nonneg hlt hw hpos]
    omega
  · rintro ⟨hpos, hwidth⟩
    rw [decode_of_nonneg hlt hw hpos] at hwidth
    omega

/-- A slice from a constant index to itself is refused by the sign of the index, or as the slice of
the base is. -/
theorem Sound.exists_run_slice_self (h : Sound ws l₁) (hbase : Runs ws l base (.ok a) l₁)
    (hindex : Runs ws l₁ index (.ok c) l₂) (hn : c.toConstant? = some n) (hlt : n < 2 ^ c.width)
    (hw : 1 ≤ c.width) :
    ∃ l', Runs ws l (.slice base index index)
      (if decode n c.width c.signed < 0 ∧ c.width < maxWidth then
        .error (.widthMismatch (.negative (index.text ws.label))) else sliceTerm a n n) l' := by
  obtain ⟨l₃, hagain⟩ := h.runs_again hindex
  obtain ⟨l', hslice⟩ := run_slice hbase hindex hagain
  refine ⟨l', ?_⟩
  rw [bound_of_constant hn hlt hw] at hslice
  split
  · rename_i hneg
    rwa [if_pos hneg] at hslice
  · rename_i hneg
    rwa [if_neg hneg] at hslice

/-- **A constant index as a bit and as a slice.** The bit lowers exactly if the raw value of the
index lies within the base, and is then this bit of the base. The slice lowers exactly if the
integer of the index does, and is then the same term. Both are refused as mismatches of widths. So
they part at indexes that are negative, of fewer bits than the widest field, with a raw value within
the base. -/
theorem Reached.bit_and_slice (h : Reached ws l) (hbase : Runs ws l base (.ok a) l₁)
    (hindex : Runs ws l₁ index (.ok c) l₂) (hn : c.toConstant? = some n) :
    ∃ r r' l' l'', Runs ws l (.bit base index) r l' ∧ Runs ws l (.slice base index index) r' l'' ∧
      ((∃ t, r = .ok t) ↔ n < a.width) ∧
      ((∃ t, r' = .ok t) ↔
        0 ≤ decode n c.width c.signed ∧ decode n c.width c.signed < a.width) ∧
      (∀ t, r = .ok t → ∃ f, a.bits[n]? = some f ∧ t = .ofBit f) ∧
      (∀ t, r' = .ok t ↔
        r = .ok t ∧ ¬ (decode n c.width c.signed < 0 ∧ c.width < maxWidth)) ∧
      (∀ err, r = .error err → ∃ cause, err = .widthMismatch cause) ∧
      ∀ err, r' = .error err → ∃ cause, err = .widthMismatch cause := by
  obtain ⟨h₁, -, ha, hsa⟩ := h.valid.of_runs hbase
  obtain ⟨h₂, g₂, hc, hsc⟩ := h₁.of_runs hindex
  obtain ⟨hsound₁, -⟩ := repeats_lower base l h.sound a l₁ hbase
  obtain ⟨hsound₂, -⟩ := repeats_lower index l₁ hsound₁ c l₂ hindex
  have hw := Expr.shape_inRange hsc
  have hmax : a.width ≤ maxWidth := (Expr.shape_inRange hsa).2
  have hlt : n < 2 ^ c.width :=
    (hc.spells_of_always h₂ ((hc.toConstant?_eq_some h₂ hw.2).1 hn)).lt fun _ => false
  obtain ⟨l', hbit⟩ := hsound₂.run_selectBit_constant (ha.grow h₁ g₂) hc hw.2 hn
  obtain ⟨l'', hslice⟩ := hsound₁.exists_run_slice_self hbase hindex hn hlt hw.1
  refine ⟨bitTerm a n, _, l', l'', (run_bit hbase hindex).trans hbit, hslice, exists_bitTerm, ?_,
    fun t => bitTerm_eq_ok.1, fun t => ?_, fun err herr => ⟨_, (bitTerm_eq_error.1 herr).2⟩,
    fun err herr => ?_⟩
  · split
    · rename_i hneg
      exact ⟨nofun, fun hpos => absurd hneg.1 (Int.not_lt.2 hpos.1)⟩
    · rename_i hneg
      simp only [sliceTerm_self, exists_bitTerm]
      exact lt_iff_decode_lt hlt hw.1 hmax hneg
  · split
    · rename_i hneg
      exact ⟨nofun, fun ht => absurd hneg ht.2⟩
    · rename_i hneg
      rw [sliceTerm_self]
      exact ⟨fun ht => ⟨ht, hneg⟩, And.left⟩
  · split at herr
    · exact ⟨_, (Except.error.inj herr).symm⟩
    · exact sliceTerm_eq_error herr

/-- An index of one bit, which is its sign. -/
def minusOne : Expr := .literal ⟨1, 1, true, Nat.one_pos, Slot.blank.width_le, Nat.one_lt_two⟩

/-- The upper bit of a field is selected by minus one, and as a slice it is refused. -/
theorem minusOne_bit_and_slice :
    (∃ t l', Runs twoBits (start (.ofSeed 0 .interleaved)) (.bit (.field ⟨0⟩) minusOne)
      (.ok t) l') ∧
    ∃ err l', Runs twoBits (start (.ofSeed 0 .interleaved))
      (.slice (.field ⟨0⟩) minusOne minusOne) (.error err) l' := by
  have hruns : ∃ a c l₁ l₂, Runs twoBits (start (.ofSeed 0 .interleaved)) (.field ⟨0⟩) (.ok a) l₁ ∧
      Runs twoBits l₁ minusOne (.ok c) l₂ ∧ a.width = 2 ∧ c.toConstant? = some 1 ∧
        c.width = 1 ∧ c.signed = true :=
    ⟨_, _, _, _, rfl, rfl, rfl, rfl, rfl, rfl⟩
  obtain ⟨a, c, l₁, l₂, hbase, hindex, hwidth, hn, hc, hsigned⟩ := hruns
  obtain ⟨r, r', l', l'', hbit, hslice, hok, hok', -⟩ := Reached.new.bit_and_slice hbase hindex hn
  obtain ⟨t, rfl⟩ := hok.2 (by omega)
  refine ⟨⟨t, l', hbit⟩, ?_⟩
  rw [hc, hsigned] at hok'
  cases r' with
  | error err => exact ⟨err, l'', hslice⟩
  | ok t' => exact absurd (hok'.1 ⟨t', rfl⟩).1 (by decide)

end Stimulus.Lowering

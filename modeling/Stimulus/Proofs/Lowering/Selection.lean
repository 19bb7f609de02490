import Stimulus.Proofs.Lowering.Verdict

/-!
# Selections of bits

A range of bits lowers exactly if both bounds are constant and their integers lie in
order within the base, and a single bit exactly if its index is not a constant whose
raw value lies beyond the base (`Lowering.Reached.lower_verdict`).
-/

set_option autoImplicit false

namespace Stimulus

open Diagram Store TwosComplement

namespace TwosComplement

variable {n w : Nat} {signed : Bool}

theorem decode_of_nonneg (hn : n < 2 ^ w) (hw : 1 ≤ w) (h : 0 ≤ decode n w signed) :
    decode n w signed = n := by
  obtain ⟨k, rfl⟩ : ∃ k, w = k + 1 := ⟨w - 1, by omega⟩
  cases signed with
  | false => exact decode_unsigned hn
  | true =>
    have hlt := mt (decode_neg_iff hn).2 (Int.not_lt.2 h)
    rw [decode_signed hn, if_neg hlt]

/-- Negative numbers of the widest type are beyond every base. -/
theorem decode_nonneg_of_lt (hn : n < 2 ^ w) (hw : 1 ≤ w) (hlt : n < maxWidth)
    (h : w < maxWidth → 0 ≤ decode n w signed) : 0 ≤ decode n w signed := by
  by_cases hmax : w < maxWidth
  · exact h hmax
  · rw [← Int.not_lt, decode_neg_iff_testBit hn hw]
    rintro ⟨-, hbit⟩
    -- the top digit alone is more than the widest field
    have hpow : 2 ^ 63 ≤ 2 ^ (w - 1) :=
      Nat.pow_le_pow_right Nat.two_pos (by unfold maxWidth at hmax; omega)
    rw [Nat.testBit_lt_two_pow (by unfold maxWidth at hlt; omega)] at hbit
    cases hbit

end TwosComplement

namespace Lowering

variable {ws : Workspace} {l l' l₁ l₂ l₃ : Lowering} {a b c t : BitVector} {e : Expr} {n m : Nat}
  {base high low index : Expr} {i j : Int}

/-- Lowering the expression from `l` ends with this result and leads to `l'`. -/
def Runs (ws : Workspace) (l : Lowering) (e : Expr) (r : Except Error BitVector) (l' : Lowering) :
    Prop :=
  (lower ws e).run.run l = .ok (r, l')

/-- What a successful run says. -/
theorem Valid.of_runs (hl : l.Valid ws) (h : Runs ws l e (.ok t) l') :
    l'.Valid ws ∧ l.GrowsTo ws l' ∧ (l'.Means ws t fun fields => e.meaning fields) ∧
      e.shape ws = .ok t.shape := by
  obtain ⟨hl', hg, -, hmeans⟩ := (leads_lower e l hl).of_run h
  obtain ⟨shape, hshape⟩ := (judged_lower e l hl).exists_of_run h
  exact ⟨hl', hg, hmeans, by rw [hshape, hmeans.shape_of hl' hshape]⟩

/-- The expression has a shape, and its fields all have terms. -/
structure Ready (ws : Workspace) (l : Lowering) (e : Expr) : Prop where
  shape : ∃ shape, e.shape ws = .ok shape
  fields : ∀ f ∈ e.mentions, f ∈ l.fields

/-- What was lowered is ready to be lowered again. -/
theorem Valid.ready_of_runs (hl : l.Valid ws) (h : Runs ws l e (.ok t) l') : Ready ws l' e := by
  obtain ⟨-, -, hfields, -⟩ := (leads_lower e l hl).of_run h
  refine ⟨⟨_, (hl.of_runs h).2.2.2⟩, fun f hf => ?_⟩
  rw [hfields, Field.mem_collect]
  exact Or.inr hf

/-- An expression with a shape lowers, unless the storage is too small for it. -/
theorem Sound.runs_or_exceeds (h : Sound ws l) {shape : Shape} (hshape : e.shape ws = .ok shape) :
    (∃ t l', Runs ws l e (.ok t) l' ∧ l'.fields = Field.collect l.fields e.mentions) ∨
      Exceeds l (lower ws e).run := by
  have hleads := leads_lower e l h.valid
  refine (hleads.run_or_exceeds h.bounded).imp_left fun ⟨r, l', hr⟩ => ?_
  cases r with
  | error err =>
    have herr := (judged_lower e l h.valid).of_run_error hr
    rw [hshape] at herr
    cases herr
  | ok t =>
    obtain ⟨-, -, hfields, -⟩ := hleads.of_run hr
    exact ⟨t, l', hr, hfields⟩

/-- An expression that is ready lowers without a new field, unless the storage is too small for
it. -/
theorem Sound.runs_of_ready (h : Sound ws l) (hready : Ready ws l e) :
    (∃ t l', Runs ws l e (.ok t) l' ∧ l'.fields = l.fields) ∨ Exceeds l (lower ws e).run := by
  obtain ⟨shape, hshape⟩ := hready.shape
  refine (h.runs_or_exceeds hshape).imp_left fun ⟨t, l', hr, hfields⟩ => ⟨t, l', hr, ?_⟩
  exact hfields.trans (Field.collect_of_subset hready.fields)

/-! ## Bounds as integers -/

theorem Means.alwaysInt_iff (h : l.Means ws t fun fields => e.meaning fields) (hl : l.Valid ws)
    (hw : 1 ≤ t.width) :
    e.AlwaysInt ws i ↔ ∃ n, e.Always ws n ∧ n < 2 ^ t.width ∧ decode n t.width t.signed = i := by
  have htype : ∀ raw, ws.Fits raw → (e.meaning (ws.quantity raw)).toInt =
      decode (e.meaning (ws.quantity raw)).raw t.width t.signed := fun raw hraw => by
    have hshape := Shape.mk.inj (h.shape_eq hl hraw)
    rw [Quantity.toInt, hshape.1, hshape.2]
  constructor
  · intro hi
    refine ⟨_, fun raw hraw => ?_, h.raw_lt hl ws.fits_zero, (htype _ ws.fits_zero).symm.trans
      (hi _ ws.fits_zero)⟩
    -- one integer has one raw value
    refine (decode_inj (h.raw_lt hl hraw) (h.raw_lt hl ws.fits_zero) hw t.signed).1 ?_
    rw [← htype _ hraw, hi _ hraw, ← htype _ ws.fits_zero, hi _ ws.fits_zero]
  · rintro ⟨n, hn, -, rfl⟩ raw hraw
    rw [htype _ hraw, hn _ hraw]

/-- A bound is accepted if it is constant and not visibly negative. -/
theorem Means.bound_eq_ok (h : l.Means ws t fun fields => e.meaning fields) (hl : l.Valid ws)
    (hw : t.shape.InRange) : bound ws e t = .ok n ↔
      e.Always ws n ∧ (t.width < maxWidth → 0 ≤ decode n t.width t.signed) := by
  rw [h.bound_eq hl hw, Expr.bound, ← Expr.constant?_eq_some]
  cases e.constant? ws with
  | none => simp
  | some m =>
    rw [Option.some.injEq]
    dsimp only
    split
    · rename_i hneg
      refine ⟨nofun, ?_⟩
      rintro ⟨rfl, hpos⟩
      exact absurd (hpos hneg.1) (Int.not_le.2 hneg.2)
    · rename_i hneg
      rw [Except.ok.injEq]
      refine ⟨?_, And.left⟩
      rintro rfl
      exact ⟨rfl, fun hlt => Int.not_lt.1 fun h => hneg ⟨hlt, h⟩⟩

/-! ## Runs of selections -/

/-- The selected bits of a base, where they lie within it. -/
def sliceTerm (base : BitVector) (high low : Nat) : Except Error BitVector :=
  if high < low ∨ base.width ≤ high then .error (.widthMismatch (.slice high low base.width))
  else .ok ⟨(base.bits.drop low).take (high - low + 1), false⟩

theorem run_selectSlice (base : BitVector) (high low : Nat) (l : Lowering) :
    (selectSlice base high low).run.run l = .ok (sliceTerm base high low, l) := by
  unfold selectSlice sliceTerm
  split <;> rfl

theorem run_bit (hbase : Runs ws l base (.ok a) l₁) (hindex : Runs ws l₁ index (.ok b) l₂) :
    (lower ws (.bit base index)).run.run l = (selectBit a b).run.run l₂ :=
  (run_bind hbase).trans (run_bind hindex)

/-- A slice fails at its first bad bound or at the end. -/
theorem run_slice (hbase : Runs ws l base (.ok a) l₁) (hhigh : Runs ws l₁ high (.ok b) l₂)
    (hlow : Runs ws l₂ low (.ok c) l₃) :
    ∃ l', (lower ws (.slice base high low)).run.run l = .ok (do
      let i ← bound ws high b
      let j ← bound ws low c
      sliceTerm a i j, l') := by
  have hrun : (lower ws (.slice base high low)).run.run l = (do
      let i ← (bound ws high b : Lower Nat)
      let c ← lower ws low
      let j ← (bound ws low c : Lower Nat)
      selectSlice a i j : Lower BitVector).run.run l₂ := (run_bind hbase).trans (run_bind hhigh)
  rw [hrun]
  cases bound ws high b with
  | error e => exact ⟨l₂, rfl⟩
  | ok i =>
    refine ⟨l₃, (run_bind (x := (Except.ok i : Except Error Nat)) rfl).trans
      ((run_bind hlow).trans ?_)⟩
    cases bound ws low c with
    | error e => rfl
    | ok j => exact run_selectSlice a i j l₃

/-! ## The verdict on lowering -/

theorem sliceTerm_eq_ok : (∃ t, sliceTerm a n m = .ok t) ↔ m ≤ n ∧ n < a.width := by
  unfold sliceTerm
  split
  · refine ⟨nofun, fun h => ?_⟩
    omega
  · exact ⟨fun _ => by omega, fun _ => ⟨_, rfl⟩⟩

/-- A range of bits is accepted if both bounds are, and lie in order within the base. -/
theorem slice_lowers_iff (hbase : Runs ws l base (.ok a) l₁) (hhigh : Runs ws l₁ high (.ok b) l₂)
    (hlow : Runs ws l₂ low (.ok c) l₃) : (∃ t l', Runs ws l (.slice base high low) (.ok t) l') ↔
      ∃ n m, bound ws high b = .ok n ∧ bound ws low c = .ok m ∧ m ≤ n ∧ n < a.width := by
  obtain ⟨l', hrun⟩ := run_slice hbase hhigh hlow
  simp only [Runs, hrun, Except.ok.injEq, Prod.mk.injEq]
  constructor
  · rintro ⟨t, -, ht, -⟩
    obtain ⟨n, hn, ht⟩ := exists_of_bind_eq_ok ht
    obtain ⟨m, hm, ht⟩ := exists_of_bind_eq_ok ht
    exact ⟨n, m, hn, hm, sliceTerm_eq_ok.1 ⟨t, ht⟩⟩
  · rintro ⟨n, m, hn, hm, hrange⟩
    obtain ⟨t, ht⟩ := sliceTerm_eq_ok.2 hrange
    exact ⟨t, l', by rw [hn, hm]; exact ht, rfl⟩

theorem Means.bound_iff (h : l.Means ws t fun fields => e.meaning fields) (hl : l.Valid ws)
    (hw : t.shape.InRange) (hn : n < maxWidth) : bound ws e t = .ok n ↔ e.AlwaysInt ws n := by
  rw [h.bound_eq_ok hl hw, h.alwaysInt_iff hl hw.1]
  constructor
  · rintro ⟨halways, hpos⟩
    have hlt := (h.spells_of_always hl halways).lt fun _ => false
    exact ⟨n, halways, hlt, decode_of_nonneg hlt hw.1 (decode_nonneg_of_lt hlt hw.1 hn hpos)⟩
  · rintro ⟨m, halways, hlt, hm⟩
    have hpos : 0 ≤ decode m t.width t.signed := hm ▸ Int.natCast_nonneg n
    obtain rfl : m = n := Int.ofNat.inj ((decode_of_nonneg hlt hw.1 hpos).symm.trans hm)
    exact ⟨halways, fun _ => hpos⟩

/-- The selected bit of a base, for a constant index within it. -/
def bitTerm (base : BitVector) (index : Nat) : Except Error BitVector :=
  match base.bits[index]? with
  | some f => .ok (.ofBit f)
  | none => .error (.widthMismatch (.bit index base.width))

theorem bitTerm_eq_error {err : Error} :
    bitTerm a n = .error err ↔ a.width ≤ n ∧ err = .widthMismatch (.bit n a.width) := by
  unfold bitTerm
  cases hbit : a.bits[n]? with
  | none =>
    have hle : a.width ≤ n := List.getElem?_eq_none_iff.1 hbit
    simp [hle, eq_comm]
  | some f =>
    have hlt : n < a.width := (List.getElem?_eq_some_iff.1 hbit).1
    simp [Nat.not_le.2 hlt]

/-- Selecting by an index that is not constant has no error. -/
theorem Valid.of_run_selectBit {α β : (Field → Quantity) → Quantity} (hl : l.Valid ws)
    (ha : l.Means ws a α) (hb : l.Means ws b β) (hnone : b.toConstant? = none)
    {r : Except Error BitVector} (hr : (selectBit a b).run.run l = .ok (r, l')) :
    ∃ t, r = .ok t := by
  unfold selectBit at hr
  rw [hnone] at hr
  obtain ⟨t, ht, -⟩ := (hl.succeeds_selectBit ha hb).of_run hr
  exact ⟨t, ht⟩

/-- The term of a selected bit is the bit of the base itself, as equal functions are equal
edges. -/
theorem Means.eq_ofBit {α : (Field → Quantity) → Quantity} {f : Edge} (hl : l.Valid ws)
    (ht : l.Means ws t fun fields => (α fields).bit (e.meaning fields)) (ha : l.Means ws a α)
    (hn : e.Always ws n) (hbit : a.bits[n]? = some f) : t = .ofBit f := by
  obtain ⟨P, hP, hα⟩ := ha
  obtain ⟨Q, hQ, hvalue⟩ := ht
  refine (hQ.congr fun ρ => ?_).inj (hP.spells.get? hbit).means hl.store.reduced
  have hread := hl.reads_reading ρ
  simp only [hvalue ρ _ hread, hα ρ _ hread, Quantity.bit, hn _ (hl.fits_reading ρ)]

/-- **Selecting by a constant index gives the very bit of the base.** -/
theorem Valid.of_run_selectBit_constant {α : (Field → Quantity) → Quantity} (hl : l.Valid ws)
    (ha : l.Means ws a α) (hb : l.Means ws b fun fields => e.meaning fields)
    (hw : b.width ≤ maxWidth) (hn : b.toConstant? = some n) {r : Except Error BitVector}
    (hr : (selectBit a b).run.run l = .ok (r, l')) : r = bitTerm a n := by
  unfold selectBit at hr
  unfold bitTerm
  rw [hn] at hr
  dsimp only at hr
  cases hbit : a.bits[n]? with
  | none =>
    have hle : a.width ≤ n := List.getElem?_eq_none_iff.1 hbit
    rw [if_pos hle] at hr
    cases hr
    rfl
  | some f =>
    have hlt : ¬ a.width ≤ n := Nat.not_le.2 (List.getElem?_eq_some_iff.1 hbit).1
    rw [if_neg hlt] at hr
    obtain ⟨t, rfl, hl', hg, -, ht⟩ := (hl.succeeds_selectBit ha hb).of_run hr
    have halways := (hb.toConstant?_eq_some hl hw).1 hn
    rw [Means.eq_ofBit hl' ht (ha.grow hl hg) halways hbit]

/-- A range of bits whose parts lower is accepted exactly if both bounds stand for integers, in
order and within the base. -/
theorem Valid.slice_lowers_iff_alwaysInt (hl : l.Valid ws) (hbase : Runs ws l base (.ok a) l₁)
    (hhigh : Runs ws l₁ high (.ok b) l₂) (hlow : Runs ws l₂ low (.ok c) l₃) :
    (∃ t l', Runs ws l (.slice base high low) (.ok t) l') ↔
      ∃ i j : Int, high.AlwaysInt ws i ∧ low.AlwaysInt ws j ∧ 0 ≤ j ∧ j ≤ i ∧ i < a.width := by
  obtain ⟨h₁, -, -, hsa⟩ := hl.of_runs hbase
  obtain ⟨h₂, -, hb, hsb⟩ := h₁.of_runs hhigh
  obtain ⟨h₃, -, hc, hsc⟩ := h₂.of_runs hlow
  have hwidth : a.width ≤ maxWidth := (Expr.shape_inRange hsa).2
  rw [slice_lowers_iff hbase hhigh hlow]
  constructor
  · rintro ⟨n, m, hn, hm, hle, hlt⟩
    have hn := (hb.bound_iff h₂ (Expr.shape_inRange hsb) (by omega)).1 hn
    have hm := (hc.bound_iff h₃ (Expr.shape_inRange hsc) (by omega)).1 hm
    exact ⟨n, m, hn, hm, by omega, by omega, by omega⟩
  · rintro ⟨i, j, hi, hj, hpos, hle, hlt⟩
    obtain ⟨n, rfl⟩ := Int.eq_ofNat_of_zero_le (Int.le_trans hpos hle)
    obtain ⟨m, rfl⟩ := Int.eq_ofNat_of_zero_le hpos
    exact ⟨n, m, (hb.bound_iff h₂ (Expr.shape_inRange hsb) (by omega)).2 hi,
      (hc.bound_iff h₃ (Expr.shape_inRange hsc) (by omega)).2 hj, by omega, by omega⟩

/-- A single bit whose parts lower is refused exactly if its index has a raw value beyond the
base. -/
theorem Valid.bit_refused_iff (hl : l.Valid ws) (hbase : Runs ws l base (.ok a) l₁)
    (hindex : Runs ws l₁ index (.ok b) l₂) {r : Except Error BitVector}
    (hr : Runs ws l (.bit base index) r l') (err : Error) : r = .error err ↔
      ∃ n, index.Always ws n ∧ a.width ≤ n ∧ err = .widthMismatch (.bit n a.width) := by
  obtain ⟨h₁, -, ha, -⟩ := hl.of_runs hbase
  obtain ⟨h₂, g₂, hb, hsb⟩ := h₁.of_runs hindex
  have hw := (Expr.shape_inRange hsb).2
  unfold Runs at hr
  rw [run_bit hbase hindex] at hr
  cases hn : b.toConstant? with
  | none =>
    obtain ⟨t, rfl⟩ := h₂.of_run_selectBit (ha.grow h₁ g₂) hb hn hr
    refine ⟨nofun, ?_⟩
    rintro ⟨n, halways, -⟩
    rw [(hb.toConstant?_eq_some h₂ hw).2 halways] at hn
    cases hn
  | some n =>
    have halways := (hb.toConstant?_eq_some h₂ hw).1 hn
    rw [h₂.of_run_selectBit_constant (ha.grow h₁ g₂) hb hw hn hr, bitTerm_eq_error]
    exact ⟨fun herr => ⟨n, halways, herr⟩, fun ⟨m, hm, herr⟩ => halways.unique hm ▸ herr⟩

/-- **Lowering ends as the shape of the expression says.** It meets no fault but a storage that is
too small for it, and terms are not wider than the widest field. A range of bits whose parts lower
is accepted exactly if both bounds stand for integers, in order and within the base; a single bit
whose parts lower is refused exactly if its index has a raw value beyond the base. -/
theorem Reached.lower_verdict (h : Reached ws l) :
    (∀ e, ((∃ r l', Runs ws l e r l') ∨ Exceeds l (Lowering.lower ws e).run) ∧
      ∀ r l', Runs ws l e r l' → r.map BitVector.shape = e.shape ws ∧
        ∀ t, r = .ok t → 1 ≤ t.width ∧ t.width ≤ maxWidth) ∧
    (∀ base high low a b c l₁ l₂ l₃, Runs ws l base (.ok a) l₁ → Runs ws l₁ high (.ok b) l₂ →
      Runs ws l₂ low (.ok c) l₃ → ((∃ t l', Runs ws l (.slice base high low) (.ok t) l') ↔
        ∃ i j : Int, high.AlwaysInt ws i ∧ low.AlwaysInt ws j ∧ 0 ≤ j ∧ j ≤ i ∧ i < a.width)) ∧
    (∀ base index a b l₁ l₂, Runs ws l base (.ok a) l₁ → Runs ws l₁ index (.ok b) l₂ →
      ∀ r l', Runs ws l (.bit base index) r l' → ∀ e, r = .error e ↔
        ∃ n, index.Always ws n ∧ a.width ≤ n ∧ e = .widthMismatch (.bit n a.width)) := by
  have hl := h.valid
  refine ⟨fun e => ⟨(leads_lower e l hl).run_or_exceeds h.sound.bounded, fun r l' hr => ?_⟩,
    fun _ _ _ _ _ _ _ _ _ => hl.slice_lowers_iff_alwaysInt,
    fun _ _ _ _ _ _ hbase hindex _ _ => hl.bit_refused_iff hbase hindex⟩
  cases r with
  | error err => exact ⟨((judged_lower e l hl).of_run_error hr).symm, nofun⟩
  | ok t =>
    obtain ⟨-, -, -, hshape⟩ := hl.of_runs hr
    refine ⟨hshape.symm, ?_⟩
    rintro _ ⟨⟩
    exact Expr.shape_inRange hshape

/-- The field of `twoBits` against itself, which is always zero. -/
def cleared : Expr := .binary .xor (.field ⟨0⟩) (.field ⟨0⟩)

/-- The upper bound of a range of bits. -/
def topBit : Expr := .literal ⟨1, 7, true, by decide, by decide, by decide⟩

theorem cleared_alwaysInt : cleared.AlwaysInt twoBits 0 := by
  intro raw _
  have hmeaning : cleared.meaning (twoBits.quantity raw) = ⟨2, false, 0⟩ := by
    show Quantity.mk 2 false (_ ^^^ _) = _
    rw [Nat.xor_self]
  rw [hmeaning]
  rfl

theorem cleared_lower_verdict : ∃ t l',
    Runs twoBits (start (.ofSeed 0 .interleaved)) (.slice (.field ⟨0⟩) topBit cleared)
      (.ok t) l' := by
  have hruns : ∃ a b c l₁ l₂ l₃,
      Runs twoBits (start (.ofSeed 0 .interleaved)) (.field ⟨0⟩) (.ok a) l₁ ∧
      Runs twoBits l₁ topBit (.ok b) l₂ ∧ Runs twoBits l₂ cleared (.ok c) l₃ ∧ a.width = 2 :=
    ⟨_, _, _, _, _, _, rfl, rfl, rfl, rfl⟩
  obtain ⟨a, b, c, l₁, l₂, l₃, hbase, hhigh, hlow, hwidth⟩ := hruns
  obtain ⟨-, hslice, -⟩ := Reached.new.lower_verdict
  refine (hslice _ _ _ a b c l₁ l₂ l₃ hbase hhigh hlow).2
    ⟨1, 0, fun _ _ => rfl, cleared_alwaysInt, ?_⟩
  rw [hwidth]
  decide

end Lowering

end Stimulus

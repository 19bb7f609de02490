import Stimulus.Proofs.Connectives
import Stimulus.Proofs.Runs.Operators

/-!
# Sums, products and shifts over runs

On every store that a run reaches, the arithmetic of vectors is that of numbers modulo two to the
width, as long as there are indexes for the nodes that it takes. Sums, differences, negatives and
products are exact, whatever the bits of the operands have in common
(`Store.Reached.arithmetic_exact`). Shifts multiply and divide by two to the amount, for amounts of
any width (`Store.Reached.shifts_exact`).

The numbers are what the vectors read as (`BitVector.valueOf`), and `Store.Delivers` says what a
computation makes of them.
-/

set_option autoImplicit false

namespace Stimulus.Diagram.Store

open TwosComplement

variable {s t : Store} {w : Nat} {a b amount : BitVector} {X : Assignment → Nat} {signed : Bool}

/-! ## What a vector is read as -/

/-- The vector reads as the number `A ρ` under the assignment `ρ`. -/
def ReadsAs (s : Store) (a : BitVector) (A : Assignment → Nat) : Prop :=
  ∀ ρ, BitVector.valueOf s ρ a.bits = .ok (A ρ)

/-- The computation ends with a vector of this width and flag, on a store that a run reaches and
that keeps the edges of `s`, and the vector reads there as the number `value`; or it outgrows the
storage. -/
def Delivers (s : Store) (x : Build BitVector) (width : Nat) (signed : Bool)
    (value : Assignment → Nat) : Prop :=
  (∃ r t, x s = .ok (r, t) ∧ t.Reached ∧ s.Keeps t ∧ t.Carries r ∧ r.width = width ∧
    r.signed = signed ∧ t.ReadsAs r value) ∨ Outgrows s x

/-- What a call that gives one vector delivers, from the number that the vector spells. -/
theorem Reached.delivers (h : s.Reached) {c : Call} {x : Build BitVector} (hc : s.Allows c)
    (hrun : c.run = Call.bits x) (hw : 1 ≤ w)
    (hx : s.Gives x fun r t => r.signed = signed ∧ t.Spells w r.bits X) :
    s.Delivers x w signed X := by
  refine hx.run_or_outgrows.imp_left ?_
  rintro ⟨r, t, hr, -, -, hst, hsigned, hspells⟩
  have hwidth : r.width = w := hspells.length
  exact ⟨r, t, hr, h.of_call hc hrun hr, h.keeps_of_growsTo hst, ⟨by omega, hspells.has⟩, hwidth,
    hsigned, hspells.valueOf⟩

/-! ## Arithmetic -/

/-- **Sums, differences, negatives and products are exact modulo two to the width.** Two vectors of
one width may share any of their bits. Results have the width of the operands, and their flag is
set if it is set for all operands. -/
theorem Reached.arithmetic_exact (h : s.Reached) (ha : s.Carries a) (hb : s.Carries b)
    (hw : a.width = b.width) :
    ∃ A B, s.ReadsAs a A ∧ s.ReadsAs b B ∧
      s.Delivers (a.add b) a.width (a.signed && b.signed) (fun ρ => (A ρ + B ρ) % 2 ^ a.width) ∧
      s.Delivers (a.sub b) a.width (a.signed && b.signed)
        (fun ρ => wrap ((A ρ : Int) - B ρ) a.width) ∧
      s.Delivers a.neg a.width a.signed (fun ρ => wrap (-(A ρ : Int)) a.width) ∧
      s.Delivers (a.mul b) a.width (a.signed && b.signed) (fun ρ => A ρ * B ρ % 2 ^ a.width) := by
  have hs := h.valid
  obtain ⟨n, X, Y, hwidth, hX, hY⟩ := ha.spells_both hb hw hs.reduced
  have hpos := Nat.succ_pos n
  have hboth : s.Carries a ∧ s.Carries b ∧ a.width = b.width := ⟨ha, hb, hw⟩
  rw [hwidth]
  refine ⟨X, Y, hX.valueOf, hY.valueOf, ?_, ?_, ?_, ?_⟩
  · exact h.delivers (c := .add a b) hboth rfl hpos (hs.gives_add hX hY)
  · refine h.delivers (c := .sub a b) hboth rfl hpos ((hs.gives_sub hX hY).mono
      fun r t _ _ hr => ⟨hr.1, hr.2.congr fun ρ => ?_⟩)
    rw [wrap_sub (hY.lt ρ)]
  · refine h.delivers (c := .neg a) ha rfl hpos ((hs.gives_neg hX).mono
      fun r t _ _ hr => ⟨hr.1, hr.2.congr fun ρ => ?_⟩)
    rw [wrap_neg (Nat.le_of_lt (hX.lt ρ))]
  · exact h.delivers (c := .mul a b) hboth rfl hpos (hs.gives_mul hX hY)

/-- The number `2 + v` in two signed bits, for a literal `v`. -/
def twoOrThree : BitVector := ⟨[.ofIndex 2, .one], true⟩

theorem carries_twoOrThree : firstLiteral.Carries twoOrThree :=
  ⟨by decide, List.forall_mem_cons.2 ⟨⟨by decide, by decide⟩,
    List.forall_mem_singleton.2 ⟨by decide, by decide⟩⟩⟩

/-- The square of three is one in two bits, and the negative of three is one as well. -/
theorem firstLiteral_arithmetic_exact :
    (∃ r t, twoOrThree.mul twoOrThree firstLiteral = .ok (r, t) ∧ r.signed = true ∧
      BitVector.valueOf t (fun _ => true) r.bits = .ok 1 ∧
      BitVector.valueOf t (fun _ => false) r.bits = .ok 0) ∧
    ∃ r t, twoOrThree.neg firstLiteral = .ok (r, t) ∧
      BitVector.valueOf t (fun _ => true) r.bits = .ok 1 ∧
      BitVector.valueOf t (fun _ => false) r.bits = .ok 2 := by
  obtain ⟨A, B, hA, hB, -, -, hneg, hmul⟩ :=
    reached_firstLiteral.arithmetic_exact carries_twoOrThree carries_twoOrThree rfl
  -- both operands are the same vector
  obtain ⟨htrue, hfalse⟩ : 3 = A (fun _ => true) ∧ 2 = A fun _ => false :=
    ⟨Except.ok.inj (hA fun _ => true), Except.ok.inj (hA fun _ => false)⟩
  have hsame : ∀ ρ, B ρ = A ρ := fun ρ => Except.ok.inj ((hB ρ).symm.trans (hA ρ))
  obtain ⟨r, t, hr, -, -, -, -, hsigned, hvalue⟩ :=
    hmul.resolve_right (not_outgrows_of_isOk (by decide +kernel))
  obtain ⟨r', t', hr', -, -, -, -, -, hvalue'⟩ :=
    hneg.resolve_right (not_outgrows_of_isOk (by decide +kernel))
  refine ⟨⟨r, t, hr, hsigned, ?_, ?_⟩, r', t', hr', ?_, ?_⟩
  · simp only [hvalue _, hsame, ← htrue]
    rfl
  · simp only [hvalue _, hsame, ← hfalse]
    rfl
  · simp only [hvalue' _, ← htrue]
    rfl
  · simp only [hvalue' _, ← hfalse]
    rfl

/-! ## Shifts -/

/-- **Shifts multiply and divide by two to the amount.** The amount may have any width and any flag
and is read without a sign. A shift by at least the width leaves nothing. Results have the width and
the flag of the vector that is shifted. -/
theorem Reached.shifts_exact (h : s.Reached) (ha : s.Carries a) (hamount : s.Carries amount) :
    ∃ A N, s.ReadsAs a A ∧ s.ReadsAs amount N ∧
      s.Delivers (BitVector.shl a amount) a.width a.signed
        (fun ρ => A ρ * 2 ^ N ρ % 2 ^ a.width) ∧
      s.Delivers (BitVector.lshr a amount) a.width a.signed (fun ρ => A ρ / 2 ^ N ρ) ∧
      ∀ ρ, a.width ≤ N ρ → A ρ * 2 ^ N ρ % 2 ^ a.width = 0 ∧ A ρ / 2 ^ N ρ = 0 := by
  have hs := h.valid
  obtain ⟨n, X, hwidth, hX⟩ := ha.spells hs.reduced
  obtain ⟨m, Y, -, hY⟩ := hamount.spells hs.reduced
  have hpos := Nat.succ_pos n
  rw [hwidth]
  refine ⟨X, Y, hX.valueOf, hY.valueOf, ?_, ?_, fun ρ hfar => ?_⟩
  · exact h.delivers (c := .shl a amount) ⟨ha, hamount⟩ rfl hpos (hs.gives_shl hX hY)
  · exact h.delivers (c := .lshr a amount) ⟨ha, hamount⟩ rfl hpos (hs.gives_lshr hX hY)
  · -- both directions move every digit out
    exact ⟨(moves_up (n + 1)).far hfar (hX.lt ρ), (moves_down (n + 1)).far hfar (hX.lt ρ)⟩

/-- The number `2 + v` in three bits, for a literal `v`. -/
def threeBits : BitVector := ⟨[.ofIndex 2, .one, .zero], false⟩

/-- Three times `v`, for a literal `v`. -/
def noneOrThree : BitVector := ⟨[.ofIndex 2, .ofIndex 2], true⟩

/-- Shifts by one and by two places are each within three bits, and together they are not. -/
theorem firstLiteral_shifts_exact :
    (∃ r t, BitVector.shl threeBits noneOrThree firstLiteral = .ok (r, t) ∧ r.width = 3 ∧
      BitVector.valueOf t (fun _ => true) r.bits = .ok 0 ∧
      BitVector.valueOf t (fun _ => false) r.bits = .ok 2) ∧
    ∃ r t, BitVector.lshr threeBits noneOrThree firstLiteral = .ok (r, t) ∧ r.width = 3 ∧
      BitVector.valueOf t (fun _ => true) r.bits = .ok 0 ∧
      BitVector.valueOf t (fun _ => false) r.bits = .ok 2 := by
  have ha : firstLiteral.Carries threeBits :=
    ⟨by decide, List.forall_mem_cons.2 ⟨⟨by decide, by decide⟩,
      List.forall_mem_cons.2 ⟨⟨by decide, by decide⟩,
        List.forall_mem_singleton.2 ⟨by decide, by decide⟩⟩⟩⟩
  have hamount : firstLiteral.Carries noneOrThree :=
    ⟨by decide, List.forall_mem_cons.2 ⟨⟨by decide, by decide⟩,
      List.forall_mem_singleton.2 ⟨by decide, by decide⟩⟩⟩
  obtain ⟨A, N, hA, hN, hup, hdown, hfar⟩ := reached_firstLiteral.shifts_exact ha hamount
  -- two stays in place, and three is moved by the whole width
  have hthree : 3 = N fun _ => true := Except.ok.inj (hN fun _ => true)
  have hzero : 0 = N fun _ => false := Except.ok.inj (hN fun _ => false)
  have htwo : 2 = A fun _ => false := Except.ok.inj (hA fun _ => false)
  obtain ⟨hup', hdown'⟩ := hfar (fun _ => true) (Nat.le_of_eq hthree)
  obtain ⟨r, t, hr, -, -, -, hwidth, -, hvalue⟩ :=
    hup.resolve_right (not_outgrows_of_isOk (by decide +kernel))
  obtain ⟨r', t', hr', -, -, -, hwidth', -, hvalue'⟩ :=
    hdown.resolve_right (not_outgrows_of_isOk (by decide +kernel))
  refine ⟨⟨r, t, hr, hwidth, ?_, ?_⟩, r', t', hr', hwidth', ?_, ?_⟩
  · simp only [hvalue _, hup']
  · simp only [hvalue _, ← hzero, ← htwo]
    rfl
  · simp only [hvalue' _, hdown']
  · simp only [hvalue' _, ← hzero, ← htwo]
    rfl

end Stimulus.Diagram.Store

import Mathlib.Tactic.Ring
import Stimulus.Proofs.BitVector.Bitwise

/-!
# Shifting spelled numbers

Each digit of the amount moves the digits by a power of two of places, or
overflows where nothing would be left. Both shifts add up their moves and end in
zero when they move too far (`Store.Moves`), so one digit of the amount either moves
the number (`Store.Shifted.of_moved`) or overflows (`Store.Shifted.of_overflow`), and the
network of choices goes on with the other digits (`Store.gives_shiftBits`). The shifts
multiply and divide by two to the amount (`Store.Valid.gives_shl`,
`Store.Valid.gives_lshr`).
-/

set_option autoImplicit false

namespace Stimulus.Diagram.Store

variable {s : Store} {w n : Nat} {a b : BitVector} {X Y : Assignment → Nat}
  {move : Nat → List Edge → List Edge} {M : Nat → Nat → Nat}

/-- The moves of `w` digits act on the numbers below `2 ^ w` as `M`. -/
structure Moves (w : Nat) (move : Nat → List Edge → List Edge) (M : Nat → Nat → Nat) : Prop where
  spells : ∀ {s : Store} {step : Nat} {bits : List Edge} {X : Assignment → Nat}, s.Reduced →
    step < w → s.Spells w bits X → s.Spells w (move step bits) fun ρ => M step (X ρ)
  zero : ∀ {x}, x < 2 ^ w → M 0 x = x
  add : ∀ i j x, M j (M i x) = M (i + j) x
  far : ∀ {i x}, w ≤ i → x < 2 ^ w → M i x = 0

/-- What a shift by `d` places makes of the number `x` and the overflow `κ`: a new overflow only
where nothing would be left, and without one the number has moved. -/
structure Shifted (w : Nat) (M : Nat → Nat → Nat) (d x : Nat) (κ : Bool) (z : Nat) (ω : Bool) :
    Prop where
  overflow : ω = true → κ = true ∨ w ≤ d
  moved : ω = false → κ = false ∧ z = M d x

section Shifted

variable {k m x z : Nat} {κ ω : Bool}

/-- The digits of `m` from the second one on, at the next position. -/
theorem half_mul_two_pow_succ (m k : Nat) : m / 2 * 2 ^ (k + 1) = m / 2 * 2 * 2 ^ k := by ring

theorem half_mul_two_pow_le (m k : Nat) : m / 2 * 2 ^ (k + 1) ≤ m * 2 ^ k := by
  rw [half_mul_two_pow_succ]
  exact Nat.mul_le_mul_right _ (Nat.div_mul_le_self m 2)

/-- The lowest digit moves the number, and the other digits move it further. -/
theorem Shifted.of_moved (hM : Moves w move M)
    (h : Shifted w M (m / 2 * 2 ^ (k + 1)) (if decide (m % 2 = 1) then M (2 ^ k) x else x) κ z ω) :
    Shifted w M (m * 2 ^ k) x κ z ω where
  overflow hω := (h.overflow hω).imp id fun hle => Nat.le_trans hle (half_mul_two_pow_le m k)
  moved hω := by
    obtain ⟨hκ, hz⟩ := h.moved hω
    refine ⟨hκ, ?_⟩
    rw [hz, half_mul_two_pow_succ]
    rcases Nat.mod_two_eq_zero_or_one m with h0 | h1
    · rw [h0, if_neg (by decide), show m / 2 * 2 = m by omega]
    · rw [h1, if_pos (by decide), hM.add]
      conv_rhs => rw [show m = 1 + m / 2 * 2 by omega]
      rw [Nat.add_mul, Nat.one_mul]

/-- The lowest digit overflows, since it is worth at least the width. -/
theorem Shifted.of_overflow (hfar : w ≤ 2 ^ k)
    (h : Shifted w M (m / 2 * 2 ^ (k + 1)) x (κ || decide (m % 2 = 1)) z ω) :
    Shifted w M (m * 2 ^ k) x κ z ω where
  overflow hω := by
    rcases h.overflow hω with hor | hle
    · refine (Bool.or_eq_true_iff.1 hor).imp id fun hodd => Nat.le_trans hfar ?_
      rw [decide_eq_true_eq] at hodd
      exact Nat.le_mul_of_pos_left _ (by omega)
    · exact .inr (Nat.le_trans hle (half_mul_two_pow_le m k))
  moved hω := by
    obtain ⟨hor, hz⟩ := h.moved hω
    obtain ⟨hκ, heven⟩ := Bool.or_eq_false_iff.1 hor
    rw [decide_eq_false_iff_not] at heven
    refine ⟨hκ, ?_⟩
    rw [hz, half_mul_two_pow_succ, show m / 2 * 2 = m by omega]

end Shifted

/-- The digits of the amount from position `k` on shift by `N * 2 ^ k` places. -/
theorem gives_shiftBits (hM : Moves w move M) : ∀ (n k : Nat) (amounts bits : List Edge)
    (overflow : Edge) (N X : Assignment → Nat) (κ : Assignment → Bool) (s : Store), s.Valid →
    s.Spells n amounts N → s.Spells w bits X → s.Denotes overflow κ →
      s.Gives (BitVector.shiftBits move k amounts bits overflow) fun r t =>
        ∃ Z ω, t.Spells w r.1 Z ∧ t.Denotes r.2 ω ∧
          ∀ ρ, Shifted w M (N ρ * 2 ^ k) (X ρ) (κ ρ) (Z ρ) (ω ρ) := by
  intro n
  induction n with
  | zero =>
    intro k amounts bits overflow N X κ s hs ha hx ho
    obtain ⟨rfl, rfl⟩ := ha.eq_nil
    refine hs.gives_pure ⟨X, κ, hx, ho, fun ρ => ⟨Or.inl, fun h => ⟨h, ?_⟩⟩⟩
    rw [Nat.zero_mul, hM.zero (hx.lt ρ)]
  | succ n ih =>
    intro k amounts bits overflow N X κ s hs ha hx ho
    obtain ⟨amount, amounts, rfl, ha₀, has⟩ := ha.eq_cons
    unfold BitVector.shiftBits
    rw [Nat.one_shiftLeft, hx.length]
    by_cases hreach : 2 ^ k < w
    · rw [if_pos hreach]
      have hmoved := hM.spells hs.reduced hreach hx
      refine (gives_choices hs ha₀ hmoved hx).bind fun zs t ht hst hz => ?_
      refine (ih (k + 1) amounts zs overflow _ _ κ t ht (has.grow hs.reduced hst) hz
        (ho.grow hs.reduced hst)).mono fun r u _ _ ⟨Z, ω, hZ, hω, hr⟩ => ?_
      exact ⟨Z, ω, hZ, hω, fun ρ => (hr ρ).of_moved hM⟩
    · rw [if_neg hreach]
      refine (hs.gives_disj ho ha₀).bind fun overflow' t ht hst ho' => ?_
      refine (ih (k + 1) amounts bits overflow' _ _ _ t ht (has.grow hs.reduced hst)
        (hx.grow hs.reduced hst) ho').mono fun r u _ _ ⟨Z, ω, hZ, hω, hr⟩ => ?_
      exact ⟨Z, ω, hZ, hω, fun ρ => (hr ρ).of_overflow (Nat.le_of_not_lt hreach)⟩

theorem Valid.gives_shift (hs : s.Valid) (hM : Moves w move M) (hx : s.Spells w a.bits X)
    (hy : s.Spells n b.bits Y) :
    s.Gives (BitVector.shift move a b) fun r t => r.signed = a.signed ∧
      t.Spells w r.bits fun ρ => M (Y ρ) (X ρ) := by
  unfold BitVector.shift
  refine (gives_shiftBits hM n 0 _ _ _ _ _ _ s hs hy hx (denotes_zero hs.reduced)).bind
    fun r s₁ v₁ g₁ hr => ?_
  obtain ⟨Z, ω, hZ, hω, hr⟩ := hr
  refine (v₁.gives_complement hω).bind fun inside s₂ v₂ g₂ ⟨_, hinside⟩ => ?_
  refine ((gives_mapM_conj w _ _ s₂ v₂ (fun t e ψ ht hst he =>
    ht.gives_conj (hinside.grow v₂.reduced hst) he) (hZ.grow v₁.reduced g₂)).mono
      fun zs t _ _ hz => ?_).map
  refine ⟨rfl, hz.congr fun ρ => ?_⟩
  cases hover : ω ρ with
  | false =>
    rw [((hr ρ).moved hover).2, Nat.pow_zero, Nat.mul_one]
    rfl
  | true =>
    -- an overflow means that the amount is at least the width
    rcases (hr ρ).overflow hover with hκ | hle
    · cases hκ
    · rw [Nat.pow_zero, Nat.mul_one] at hle
      rw [hM.far hle (hx.lt ρ)]
      rfl

/-! ## The two directions -/

theorem moves_up (w : Nat) : Moves w BitVector.moveUp fun i x => x * 2 ^ i % 2 ^ w where
  spells := by
    intro s step bits X hs hstep hx
    unfold BitVector.moveUp
    have hcut := (spells_zeros hs step).append (hx.take (Nat.sub_le w step))
    rw [show step + (w - step) = w by omega] at hcut
    rw [hx.length]
    refine hcut.congr fun ρ => ?_
    conv_rhs => rw [show w = step + (w - step) by omega]
    rw [Nat.zero_add, Nat.mul_comm (X ρ), Nat.pow_add, Nat.mul_mod_mul_left]
  zero := by
    intro x hx
    rw [Nat.pow_zero, Nat.mul_one, Nat.mod_eq_of_lt hx]
  add := by
    intro i j x
    rw [Nat.mod_mul_mod, Nat.mul_assoc, ← Nat.pow_add]
  far := by
    intro i x hi _
    obtain ⟨k, rfl⟩ := Nat.exists_eq_add_of_le hi
    rw [Nat.pow_add, Nat.mul_left_comm, Nat.mul_mod_right]

theorem moves_down (w : Nat) : Moves w BitVector.moveDown fun i x => x / 2 ^ i where
  spells := by
    intro s step bits X hs hstep hx
    unfold BitVector.moveDown
    have hcut := (hx.drop (Nat.le_of_lt hstep)).append (spells_zeros hs step)
    rw [Nat.sub_add_cancel (Nat.le_of_lt hstep)] at hcut
    exact hcut.congr fun ρ => by rw [Nat.mul_zero, Nat.add_zero]
  zero := fun _ => by rw [Nat.pow_zero, Nat.div_one]
  add := by
    intro i j x
    rw [Nat.div_div_eq_div_mul, ← Nat.pow_add]
  far := by
    intro i x hi hx
    exact Nat.div_eq_of_lt (Nat.lt_of_lt_of_le hx (Nat.pow_le_pow_right Nat.two_pos hi))

theorem Valid.gives_shl (hs : s.Valid) (hx : s.Spells w a.bits X) (hy : s.Spells n b.bits Y) :
    s.Gives (BitVector.shl a b) fun r t => r.signed = a.signed ∧
      t.Spells w r.bits fun ρ => X ρ * 2 ^ Y ρ % 2 ^ w :=
  hs.gives_shift (M := fun i x => x * 2 ^ i % 2 ^ w) (moves_up w) hx hy

theorem Valid.gives_lshr (hs : s.Valid) (hx : s.Spells w a.bits X) (hy : s.Spells n b.bits Y) :
    s.Gives (BitVector.lshr a b) fun r t => r.signed = a.signed ∧
      t.Spells w r.bits fun ρ => X ρ / 2 ^ Y ρ :=
  hs.gives_shift (M := fun i x => x / 2 ^ i) (moves_down w) hx hy

end Stimulus.Diagram.Store

import Mathlib.Tactic.Ring
import Stimulus.BitVector.Apply
import Stimulus.Proofs.TwosComplement
import Stimulus.Proofs.BitVector.Spelling

/-!
# Bitwise operations on spelled numbers

The bitwise operations act on the spelled numbers (`Store.Valid.gives_and` and its
kin), choosing between two vectors chooses between the numbers
(`Store.gives_choices`), and a vector of variables spells the number with the
values of the variables as its digits. Extending a vector by its own flag keeps
the integer that it stands for (`Store.Spells.resize`).
-/

set_option autoImplicit false

namespace Stimulus.Diagram.Store

open TwosComplement

variable {s : Store} {w : Nat} {a b : BitVector} {X Y : Assignment → Nat} {c : Edge}
  {κ : Assignment → Bool}

/-! ## Choice -/

/-- A choice between two numbers, digit by digit. -/
theorem gives_choices {xs ys : List Edge} (hs : s.Valid) (hc : s.Denotes c κ)
    (hx : s.Spells w xs X) (hy : s.Spells w ys Y) :
    s.Gives (BitVector.zipWithM (Diagram.choose c) xs ys) fun zs t =>
      t.Spells w zs fun ρ => if κ ρ then X ρ else Y ρ := by
  refine gives_zipWithM (o := fun ρ x y => if κ ρ then x else y)
    (O := fun ρ x y => if κ ρ then x else y) (fun ρ => ite_self 0) (fun ρ x y => ?_)
    (fun ρ x y => ?_) w xs ys X Y s hs (fun t e f φ ψ ht hst he hf => ?_) hx hy
  · cases κ ρ <;> rfl
  · cases κ ρ <;> rfl
  · exact ht.gives_choose (hc.grow hs.reduced hst) he hf

theorem Valid.gives_bitChoose (hs : s.Valid) (hc : s.Denotes c κ) (hx : s.Spells w a.bits X)
    (hy : s.Spells w b.bits Y) :
    s.Gives (BitVector.choose c a b) fun r t => r.signed = a.signed ∧
      t.Spells w r.bits fun ρ => if κ ρ then X ρ else Y ρ := by
  unfold BitVector.choose
  refine Gives.lift_bind (hx.checkWidths hy) ?_
  exact ((gives_choices hs hc hx hy).mono fun zs t _ _ hz => ⟨rfl, hz⟩).map

/-! ## Bitwise operations -/

/-- An operation on bits that acts on numbers as `O`, as an operation on vectors. -/
theorem Valid.gives_bitwise {g : Edge → Edge → Build Edge} {o : Bool → Bool → Bool}
    {O : Nat → Nat → Nat} (hs : s.Valid) (h0 : O 0 0 = 0)
    (hmod : ∀ x y, decide (O x y % 2 = 1) = o (decide (x % 2 = 1)) (decide (y % 2 = 1)))
    (hdiv : ∀ x y, O x y / 2 = O (x / 2) (y / 2))
    (hg : ∀ {t : Store} {e f : Edge} {φ ψ : Assignment → Bool}, t.Valid → t.Denotes e φ →
      t.Denotes f ψ → t.Gives (g e f) fun r u => u.Denotes r fun ρ => o (φ ρ) (ψ ρ))
    (hx : s.Spells w a.bits X) (hy : s.Spells w b.bits Y) :
    s.Gives (BitVector.bitwise g a b) fun r t => r.signed = (a.signed && b.signed) ∧
      t.Spells w r.bits fun ρ => O (X ρ) (Y ρ) := by
  unfold BitVector.bitwise
  refine Gives.lift_bind (hx.checkWidths hy) ?_
  refine ((gives_zipWithM (o := fun _ => o) (O := fun _ => O) (fun _ => h0) (fun _ => hmod)
    (fun _ => hdiv) w _ _ X Y s hs (fun t e f φ ψ ht _ he hf => hg ht he hf) hx hy).mono
      fun zs t _ _ hz => ⟨rfl, hz⟩).map

/-- The lowest digit as a digit at a position. -/
theorem decide_odd (x : Nat) : decide (x % 2 = 1) = x.testBit 0 := (Nat.testBit_zero x).symm

theorem Valid.gives_and (hs : s.Valid) (hx : s.Spells w a.bits X) (hy : s.Spells w b.bits Y) :
    s.Gives (a.and b) fun r t => r.signed = (a.signed && b.signed) ∧
      t.Spells w r.bits fun ρ => X ρ &&& Y ρ := by
  refine hs.gives_bitwise (Nat.and_zero 0) (fun x y => ?_) (fun x y => Nat.and_div_two)
    (fun ht he hf => ht.gives_conj he hf) hx hy
  rw [decide_odd, decide_odd, decide_odd, Nat.testBit_and]

theorem Valid.gives_or (hs : s.Valid) (hx : s.Spells w a.bits X) (hy : s.Spells w b.bits Y) :
    s.Gives (a.or b) fun r t => r.signed = (a.signed && b.signed) ∧
      t.Spells w r.bits fun ρ => X ρ ||| Y ρ := by
  refine hs.gives_bitwise (Nat.or_zero 0) (fun x y => ?_) (fun x y => Nat.or_div_two)
    (fun ht he hf => ht.gives_disj he hf) hx hy
  rw [decide_odd, decide_odd, decide_odd, Nat.testBit_or]

theorem Valid.gives_xor (hs : s.Valid) (hx : s.Spells w a.bits X) (hy : s.Spells w b.bits Y) :
    s.Gives (a.xor b) fun r t => r.signed = (a.signed && b.signed) ∧
      t.Spells w r.bits fun ρ => X ρ ^^^ Y ρ := by
  refine hs.gives_bitwise (Nat.xor_zero 0) (fun x y => ?_) (fun x y => Nat.xor_div_two)
    (fun ht he hf => ht.gives_differ he hf) hx hy
  rw [decide_odd, decide_odd, decide_odd, Nat.testBit_xor]

/-! ## Truth values -/

/-- A number has some digit exactly if it is not zero. -/
theorem Spells.any {bits : List Edge} (h : s.Spells w bits X) :
    ∃ φs, List.Forall₂ s.Denotes bits φs ∧ ∀ ρ, (φs.any fun φ => φ ρ) = decide (X ρ ≠ 0) := by
  induction w generalizing bits X with
  | zero =>
    obtain ⟨rfl, rfl⟩ := h.eq_nil
    exact ⟨[], List.Forall₂.nil, fun _ => rfl⟩
  | succ w ih =>
    obtain ⟨e, rest, rfl, he, hr⟩ := h.eq_cons
    obtain ⟨φs, hφs, hany⟩ := ih hr
    refine ⟨_ :: φs, List.Forall₂.cons he hφs, fun ρ => ?_⟩
    rw [List.any_cons, hany ρ, ← Bool.decide_or, decide_eq_decide]
    omega

theorem Valid.gives_anyBit (hs : s.Valid) (hx : s.Spells w a.bits X) :
    s.Gives a.anyBit fun e t => t.Denotes e fun ρ => decide (X ρ ≠ 0) := by
  obtain ⟨φs, hφs, hany⟩ := hx.any
  exact (hs.gives_disjAll hφs).mono fun e t _ _ he => he.congr hany

/-- A vector counts as true where it is not zero. -/
theorem Valid.gives_truth (hs : s.Valid) (hx : s.Spells w a.bits X) :
    s.Gives a.truth fun e t => t.Denotes e fun ρ => decide (X ρ ≠ 0) := by
  have hlen := hx.length
  unfold BitVector.truth
  split
  · rename_i f hf
    rw [hf] at hx hlen
    -- a single bit is its own truth value
    obtain rfl : w = 1 := hlen.symm
    refine hs.gives_pure (hx.denotes.congr fun ρ => ?_)
    have hlt := hx.lt ρ
    rw [decide_eq_decide]
    omega
  · exact hs.gives_anyBit hx

/-! ## Variables -/

/-- The number with the values of some variables as its digits. -/
def valueAt (ρ : Assignment) : List Nat → Nat
  | [] => 0
  | v :: vars => (ρ v).toNat + 2 * valueAt ρ vars

theorem valueAt_cons (ρ : Assignment) (v : Nat) (vars : List Nat) :
    valueAt ρ (v :: vars) = (ρ v).toNat + 2 * valueAt ρ vars := rfl

/-- Literals spell the values of their variables. -/
theorem gives_literals : ∀ (vars : List Nat) (s : Store), s.Valid →
    (∀ v ∈ vars, 0 < v ∧ v ≤ lastVariable) → s.Gives (vars.mapM literal) fun bits t =>
      t.Spells vars.length bits fun ρ => valueAt ρ vars := by
  intro vars
  induction vars with
  | nil => exact fun s hs _ => hs.gives_pure (spells_nil s)
  | cons v vars ih =>
    intro s hs hvars
    obtain ⟨hv, hv'⟩ := hvars v List.mem_cons_self
    rw [List.mapM_cons]
    refine (hs.gives_literal hv hv').bind fun e t ht _ he => ?_
    refine ((ih t ht fun u hu => hvars u (List.mem_cons_of_mem v hu)).mono
      fun bits u _ htu hb => ?_).map
    exact (he.grow ht.reduced htu).spells_cons hb

theorem ofBits_of_length {bits : List Edge} (signed : Bool) (hlen : bits.length = w) (hw : 1 ≤ w) :
    BitVector.ofBits bits signed = .ok ⟨bits, signed⟩ := by
  cases bits with
  | nil => exact absurd hlen (by simp; omega)
  | cons e rest => rfl

/-- A vector of consecutive variables. -/
theorem Valid.gives_variable {first width : Nat} {signed : Bool} (hs : s.Valid) (hf : 0 < first)
    (hw : 1 ≤ width) (hlast : first + width ≤ lastVariable) :
    s.Gives (BitVector.variable first width signed) fun r t => r.signed = signed ∧
      t.Spells width r.bits fun ρ => valueAt ρ (List.range' first width) := by
  have hvars : ∀ v ∈ List.range' first width, 0 < v ∧ v ≤ lastVariable := by
    intro v hv
    rw [List.mem_range'_1] at hv
    omega
  unfold BitVector.variable
  rw [if_neg (Nat.not_lt.2 hlast)]
  refine (gives_literals _ s hs hvars).bind fun bits t ht _ hb => ?_
  rw [List.length_range'] at hb
  exact ht.gives_lift (ofBits_of_length signed hb.length hw) ⟨rfl, hb⟩

/-! ## Extension -/

theorem length_resizeBits (a : BitVector) (w : Nat) : (a.resizeBits w).length = w := by
  have hwidth : a.bits.length = a.width := rfl
  unfold BitVector.resizeBits
  rw [List.length_append, List.length_take, List.length_replicate]
  omega

/-- Extending a vector by its own flag keeps its integer. -/
theorem Spells.resize {v : Nat} (hs : s.Reduced) (hx : s.Spells v a.bits X) (hv : 1 ≤ v)
    (hvw : v ≤ w) :
    s.Spells w (a.resizeBits w) fun ρ => wrap (decode (X ρ) v a.signed) w := by
  obtain ⟨n, rfl⟩ : ∃ n, v = n + 1 := ⟨v - 1, by omega⟩
  have hwidth : a.width = n + 1 := hx.length
  have hpow : 2 ^ w = 2 ^ (n + 1) * 2 ^ (w - (n + 1)) := by
    rw [← Nat.pow_add]
    congr 1
    omega
  have hpos := Nat.two_pow_pos (w - (n + 1))
  have hle : 2 ^ (n + 1) ≤ 2 ^ w := Nat.pow_le_pow_right Nat.two_pos hvw
  unfold BitVector.resizeBits
  rw [hwidth, List.take_of_length_le (by rw [hx.length]; exact hvw)]
  cases hsigned : a.signed with
  | false =>
    -- zeros add nothing to a number that is not negative
    have hfill := hx.append (spells_zeros hs (w - (n + 1)))
    rw [Nat.add_sub_cancel' hvw] at hfill
    refine hfill.congr fun ρ => ?_
    have hlt := hx.lt ρ
    rw [decode_unsigned hlt, wrap_natCast, Nat.mod_eq_of_lt (by omega), Nat.mul_zero, Nat.add_zero]
  | true =>
    -- copies of the sign bit add the multiple of the old range that the wider one has more
    have hfill := hx.append (hx.msb.spells_replicate (w - (n + 1)))
    rw [Nat.add_sub_cancel' hvw] at hfill
    refine hfill.congr fun ρ => ?_
    have hlt := hx.lt ρ
    rw [decode_signed hlt]
    by_cases hneg : 2 ^ n ≤ X ρ
    · rw [decide_eq_true hneg, if_pos rfl, if_pos hneg, Nat.mul_sub, ← hpow, Nat.mul_one,
        ← wrap_add_pow, show (X ρ : Int) - (2 ^ (n + 1) : Nat) + (2 ^ w : Nat) =
          ((X ρ + (2 ^ w - 2 ^ (n + 1)) : Nat) : Int) by omega, wrap_natCast]
      exact (Nat.mod_eq_of_lt (by omega)).symm
    · rw [decide_eq_false hneg, if_neg Bool.false_ne_true, if_neg hneg, wrap_natCast, Nat.mul_zero,
        Nat.add_zero]
      exact (Nat.mod_eq_of_lt (by omega)).symm

end Stimulus.Diagram.Store

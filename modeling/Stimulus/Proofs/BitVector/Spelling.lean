import Mathlib.Tactic.Ring
import Stimulus.Proofs.Diagram.Choice
import Stimulus.Solver.Solution

/-!
# Numbers spelled by bits

`s.Spells w bits X` says that the `w` edges `bits`, least significant first, are
the binary digits of a number that depends on the assignment: `X ρ` under `ρ`.
The number is below `2 ^ w` (`Spells.lt`), determined by the bits
(`Spells.unique`), kept when the store grows (`Spells.grow`), and it is what the
bits read as (`Spells.valueOf`). Every vector of edges of a store spells some
number (`Reduced.spells`).

Cutting, joining and repeating bits do to the number what they should do, and an
operation that is applied bit by bit acts on the numbers (`gives_zipWithM`).
-/

set_option autoImplicit false

namespace Stimulus.Diagram.Store

/-- The edges are the `w` binary digits of a number, least significant first. -/
def Spells (s : Store) : Nat → List Edge → (Assignment → Nat) → Prop
  | 0, [], X => ∀ ρ, X ρ = 0
  | w + 1, e :: bits, X =>
    s.Denotes e (fun ρ => decide (X ρ % 2 = 1)) ∧ s.Spells w bits fun ρ => X ρ / 2
  | _, _, _ => False

variable {s t : Store} {w n : Nat} {bits xs ys : List Edge} {e f : Edge}
  {X Y : Assignment → Nat} {φ ψ : Assignment → Bool}

theorem Spells.eq_nil (h : s.Spells 0 bits X) : bits = [] ∧ X = fun _ => 0 := by
  cases bits with
  | nil => exact ⟨rfl, funext h⟩
  | cons e bits => exact h.elim

theorem Spells.eq_cons (h : s.Spells (w + 1) bits X) : ∃ e rest, bits = e :: rest ∧
    s.Denotes e (fun ρ => decide (X ρ % 2 = 1)) ∧ s.Spells w rest fun ρ => X ρ / 2 := by
  cases bits with
  | nil => exact h.elim
  | cons e rest => exact ⟨e, rest, rfl, h.1, h.2⟩

theorem spells_nil (s : Store) : s.Spells 0 [] fun _ => 0 := fun _ => rfl

theorem Spells.length (h : s.Spells w bits X) : bits.length = w := by
  induction w generalizing bits X with
  | zero => rw [h.eq_nil.1, List.length_nil]
  | succ w ih =>
    obtain ⟨e, rest, rfl, -, hr⟩ := h.eq_cons
    rw [List.length_cons, ih hr]

theorem Spells.congr (h : s.Spells w bits X) (hXY : ∀ ρ, X ρ = Y ρ) : s.Spells w bits Y :=
  (funext hXY : X = Y) ▸ h

theorem Spells.grow (h : s.Spells w bits X) (hs : s.Reduced) (hst : s.GrowsTo t) :
    t.Spells w bits X := by
  induction w generalizing bits X with
  | zero =>
    obtain ⟨rfl, rfl⟩ := h.eq_nil
    exact spells_nil t
  | succ w ih =>
    obtain ⟨e, rest, rfl, he, hr⟩ := h.eq_cons
    exact ⟨he.grow hs hst, ih hr⟩

theorem Spells.lt (h : s.Spells w bits X) (ρ : Assignment) : X ρ < 2 ^ w := by
  induction w generalizing bits X with
  | zero =>
    obtain ⟨-, rfl⟩ := h.eq_nil
    exact Nat.one_pos
  | succ w ih =>
    obtain ⟨e, rest, rfl, -, hr⟩ := h.eq_cons
    have hlt := ih hr
    rw [Nat.pow_succ]
    omega

theorem Spells.has (h : s.Spells w bits X) : ∀ e ∈ bits, s.Has e := by
  induction w generalizing bits X with
  | zero =>
    obtain ⟨rfl, -⟩ := h.eq_nil
    intro e he
    cases he
  | succ w ih =>
    obtain ⟨f, rest, rfl, hf, hr⟩ := h.eq_cons
    intro e he
    rcases List.mem_cons.1 he with rfl | he
    · exact hf.has
    · exact ih hr e he

/-- A digit before the digits of a number. -/
theorem Denotes.spells_cons (he : s.Denotes e φ) (h : s.Spells w bits X) :
    s.Spells (w + 1) (e :: bits) fun ρ => (φ ρ).toNat + 2 * X ρ := by
  refine ⟨he.congr fun ρ => ?_, h.congr fun ρ => ?_⟩
  · rw [Nat.add_mul_mod_self_left]
    cases φ ρ <;> rfl
  · have := Bool.toNat_le (φ ρ)
    dsimp only
    omega

/-- The digits of a number one by one. -/
theorem spells_succ (he : s.Denotes e φ) (h : s.Spells w bits Y)
    (hφ : ∀ ρ, φ ρ = decide (X ρ % 2 = 1)) (hY : ∀ ρ, Y ρ = X ρ / 2) :
    s.Spells (w + 1) (e :: bits) X :=
  ⟨he.congr hφ, h.congr hY⟩

theorem Denotes.spells (he : s.Denotes e φ) : s.Spells 1 [e] fun ρ => (φ ρ).toNat :=
  spells_succ he (fun _ => rfl : s.Spells 0 [] fun _ => 0)
    (fun ρ => by cases φ ρ <;> rfl) fun ρ => by cases φ ρ <;> rfl

theorem Spells.denotes (h : s.Spells 1 [e] X) : s.Denotes e fun ρ => decide (X ρ = 1) :=
  h.1.congr fun ρ => by
    have hlt := h.lt ρ
    rw [Nat.mod_eq_of_lt (by omega)]

/-- Every list of edges of a store spells some number. -/
theorem Reduced.spells (hs : s.Reduced) :
    ∀ bits : List Edge, (∀ e ∈ bits, s.Has e) → ∃ X, s.Spells bits.length bits X
  | [], _ => ⟨fun _ => 0, fun _ => rfl⟩
  | e :: bits, h => by
    obtain ⟨φ, hφ⟩ := hs.denotes (h e List.mem_cons_self)
    obtain ⟨X, hX⟩ := hs.spells bits fun f hf => h f (List.mem_cons_of_mem e hf)
    exact ⟨_, hφ.spells_cons hX⟩

theorem Spells.unique (h : s.Spells w bits X) (h' : s.Spells w bits Y) : X = Y := by
  induction w generalizing bits X Y with
  | zero => rw [h.eq_nil.2, h'.eq_nil.2]
  | succ w ih =>
    obtain ⟨e, rest, rfl, he, hr⟩ := h.eq_cons
    funext ρ
    have hbit := congrFun (he.unique h'.1) ρ
    have hrest := congrFun (ih hr h'.2) ρ
    rw [decide_eq_decide] at hbit
    omega

/-- The digits read as the number. -/
theorem Spells.valueOf (h : s.Spells w bits X) (ρ : Assignment) :
    BitVector.valueOf s ρ bits = .ok (X ρ) := by
  induction w generalizing bits X with
  | zero =>
    obtain ⟨rfl, rfl⟩ := h.eq_nil
    rfl
  | succ w ih =>
    obtain ⟨e, rest, rfl, he, hr⟩ := h.eq_cons
    unfold BitVector.valueOf
    rw [he.evaluate ρ]
    show (BitVector.valueOf s ρ rest >>= fun value => _) = _
    rw [ih hr]
    refine congrArg Except.ok ?_
    show (decide (X ρ % 2 = 1)).toNat + 2 * (X ρ / 2) = X ρ
    -- the last digit and twice the others make the number
    rcases Nat.mod_two_eq_zero_or_one (X ρ) with h0 | h1
    · rw [h0]
      show 0 + _ = _
      omega
    · rw [h1]
      show 1 + _ = _
      omega

/-! ## Cutting and joining -/

theorem Spells.append (hx : s.Spells w xs X) (hy : s.Spells n ys Y) :
    s.Spells (w + n) (xs ++ ys) fun ρ => X ρ + 2 ^ w * Y ρ := by
  induction w generalizing xs X with
  | zero =>
    obtain ⟨rfl, rfl⟩ := hx.eq_nil
    rw [Nat.zero_add]
    exact hy.congr fun ρ => by ring
  | succ w ih =>
    obtain ⟨e, rest, rfl, he, hr⟩ := hx.eq_cons
    rw [Nat.add_right_comm]
    have hpow : ∀ ρ, 2 ^ (w + 1) * Y ρ = 2 * (2 ^ w * Y ρ) := fun ρ => by ring
    refine spells_succ he (ih hr) (fun ρ => ?_) fun ρ => ?_
    · rw [hpow, Nat.add_mul_mod_self_left]
    · rw [hpow]
      omega

theorem Spells.take (h : s.Spells w bits X) (hn : n ≤ w) :
    s.Spells n (bits.take n) fun ρ => X ρ % 2 ^ n := by
  induction n generalizing w bits X with
  | zero => exact fun ρ => Nat.mod_one _
  | succ n ih =>
    obtain ⟨w, rfl⟩ : ∃ k, w = k + 1 := ⟨w - 1, by omega⟩
    obtain ⟨e, rest, rfl, he, hr⟩ := h.eq_cons
    have hpow : 2 ^ (n + 1) = 2 * 2 ^ n := Nat.pow_succ'
    refine spells_succ he (ih hr (by omega)) (fun ρ => ?_) fun ρ => ?_
    · rw [hpow, Nat.mod_mul_right_mod]
    · rw [hpow, Nat.mod_mul_right_div_self]

theorem Spells.drop (h : s.Spells w bits X) (hn : n ≤ w) :
    s.Spells (w - n) (bits.drop n) fun ρ => X ρ / 2 ^ n := by
  induction n generalizing w bits X with
  | zero => exact h.congr fun ρ => (Nat.div_one _).symm
  | succ n ih =>
    obtain ⟨w, rfl⟩ : ∃ k, w = k + 1 := ⟨w - 1, by omega⟩
    obtain ⟨e, rest, rfl, he, hr⟩ := h.eq_cons
    rw [Nat.add_sub_add_right]
    refine (ih hr (by omega)).congr fun ρ => ?_
    rw [Nat.div_div_eq_div_mul, Nat.pow_succ, Nat.mul_comm]

/-- The parts of joined bits spell the low and the high digits. -/
theorem Spells.of_append (h : s.Spells w (xs ++ ys) X) :
    s.Spells xs.length xs (fun ρ => X ρ % 2 ^ xs.length) ∧
      s.Spells ys.length ys fun ρ => X ρ / 2 ^ xs.length := by
  have hlen := h.length
  rw [List.length_append] at hlen
  have htake := h.take (n := xs.length) (by omega)
  have hdrop := h.drop (n := xs.length) (by omega)
  rw [List.take_left] at htake
  rw [List.drop_left, show w - xs.length = ys.length by omega] at hdrop
  exact ⟨htake, hdrop⟩

/-- The digit at a position. -/
theorem Spells.get? (h : s.Spells w bits X) {i : Nat} (hi : bits[i]? = some e) :
    s.Denotes e fun ρ => (X ρ).testBit i := by
  have hlt : i < w := by
    rw [← h.length]
    exact (List.getElem?_eq_some_iff.1 hi).1
  induction i generalizing w bits X with
  | zero =>
    obtain ⟨w, rfl⟩ : ∃ k, w = k + 1 := ⟨w - 1, by omega⟩
    obtain ⟨f, rest, rfl, hf, -⟩ := h.eq_cons
    cases hi
    exact hf.congr fun ρ => (Nat.testBit_zero _).symm
  | succ i ih =>
    obtain ⟨w, rfl⟩ : ∃ k, w = k + 1 := ⟨w - 1, by omega⟩
    obtain ⟨f, rest, rfl, -, hr⟩ := h.eq_cons
    refine (ih hr hi (by omega)).congr fun ρ => ?_
    rw [Nat.testBit_succ]

theorem spells_zeros (hs : s.Reduced) (n : Nat) :
    s.Spells n (List.replicate n .zero) fun _ => 0 := by
  induction n with
  | zero => exact fun _ => rfl
  | succ n ih => exact spells_succ (denotes_zero hs) ih (fun _ => rfl) fun _ => rfl

/-- One digit everywhere. -/
theorem Denotes.spells_replicate (he : s.Denotes e φ) (n : Nat) :
    s.Spells n (List.replicate n e) fun ρ => if φ ρ then 2 ^ n - 1 else 0 := by
  induction n with
  | zero => exact fun ρ => by simp
  | succ n ih =>
    have hpow : 2 ^ (n + 1) = 2 * 2 ^ n := Nat.pow_succ'
    have hpos : 0 < 2 ^ n := Nat.two_pow_pos n
    refine spells_succ he ih (fun ρ => ?_) fun ρ => ?_
    · cases φ ρ with
      | false => rfl
      | true => exact (decide_eq_true (by rw [if_pos rfl, hpow]; omega)).symm
    · cases φ ρ with
      | false => exact (Nat.zero_div 2).symm
      | true =>
        rw [if_pos rfl, if_pos rfl, hpow]
        omega

/-- The digits of a constant. -/
theorem spells_constantBits (hs : s.Reduced) (value n : Nat) :
    s.Spells n (BitVector.constantBits value n) fun _ => value % 2 ^ n := by
  induction n generalizing value with
  | zero => exact fun _ => Nat.mod_one _
  | succ n ih =>
    -- the digits of a constant by its last one
    have hcons : BitVector.constantBits value (n + 1) =
        Edge.ofBool (value.testBit 0) :: BitVector.constantBits (value / 2) n := by
      simp only [BitVector.constantBits, List.range_succ_eq_map, List.map_cons, List.map_map]
      refine congrArg _ (List.map_congr_left fun i _ => ?_)
      show Edge.ofBool (value.testBit (i + 1)) = _
      rw [Nat.testBit_succ]
    have hpow : 2 ^ (n + 1) = 2 * 2 ^ n := Nat.pow_succ'
    rw [hcons]
    refine spells_succ (denotes_ofBool hs _) (ih _) (fun _ => ?_) fun _ => ?_
    · rw [Nat.testBit_zero, hpow, Nat.mod_mul_right_mod]
    · rw [hpow, Nat.mod_mul_right_div_self]

/-- The top digit. -/
theorem Spells.msb (h : s.Spells (w + 1) bits X) :
    s.Denotes (bits.getLastD .zero) fun ρ => decide (2 ^ w ≤ X ρ) := by
  have hlen := h.length
  have hw : w < bits.length := by omega
  have hget : bits[w]? = some (bits.getLastD .zero) := by
    rw [List.getLastD_eq_getLast?, List.getLast?_eq_getElem?, hlen, Nat.add_sub_cancel,
      List.getElem?_eq_getElem hw, Option.getD_some]
  refine (h.get? hget).congr fun ρ => ?_
  have hlt := h.lt ρ
  rw [Bool.eq_iff_iff, decide_eq_true_eq]
  rw [Nat.pow_succ] at hlt
  constructor
  · exact Nat.ge_two_pow_of_testBit
  · intro hge
    -- the top digit is the quotient by the power, which is below two
    rw [Nat.testBit_eq_decide_div_mod_eq, decide_eq_true_eq]
    have hdiv : X ρ / 2 ^ w = 1 := Nat.div_eq_of_lt_le (by omega) (by omega)
    rw [hdiv]

theorem Spells.checkWidths {a b : BitVector} (hx : s.Spells w a.bits X)
    (hy : s.Spells w b.bits Y) : BitVector.checkWidths a b = .ok () :=
  if_pos (hx.length.trans hy.length.symm)

/-! ## Bit by bit -/

/-- An operation on bits that is applied pair by pair acts on numbers as `O`, where `O` does the
operation on the lowest digits and goes on with the others. -/
theorem gives_zipWithM {g : Edge → Edge → Build Edge} {o : Assignment → Bool → Bool → Bool}
    {O : Assignment → Nat → Nat → Nat} (h0 : ∀ ρ, O ρ 0 0 = 0)
    (hmod : ∀ ρ x y, decide (O ρ x y % 2 = 1) = o ρ (decide (x % 2 = 1)) (decide (y % 2 = 1)))
    (hdiv : ∀ ρ x y, O ρ x y / 2 = O ρ (x / 2) (y / 2)) :
    ∀ (w : Nat) (xs ys : List Edge) (X Y : Assignment → Nat) (s : Store), s.Valid →
      (∀ (t : Store) (e f : Edge) (φ ψ : Assignment → Bool), t.Valid → s.GrowsTo t →
        t.Denotes e φ → t.Denotes f ψ →
          t.Gives (g e f) fun r u => u.Denotes r fun ρ => o ρ (φ ρ) (ψ ρ)) →
      s.Spells w xs X → s.Spells w ys Y →
        s.Gives (BitVector.zipWithM g xs ys) fun zs t =>
          t.Spells w zs fun ρ => O ρ (X ρ) (Y ρ) := by
  intro w
  induction w with
  | zero =>
    intro xs ys X Y s hs _ hx hy
    obtain ⟨rfl, rfl⟩ := hx.eq_nil
    obtain ⟨rfl, rfl⟩ := hy.eq_nil
    exact hs.gives_pure h0
  | succ w ih =>
    intro xs ys X Y s hs hg hx hy
    obtain ⟨e, xs, rfl, he, hxs⟩ := hx.eq_cons
    obtain ⟨f, ys, rfl, hf, hys⟩ := hy.eq_cons
    unfold BitVector.zipWithM
    refine (hg s e f _ _ hs (GrowsTo.refl s) he hf).bind fun r t ht hst hr => ?_
    -- the operation is right on all stores that come later as well
    have hrest := ih xs ys _ _ t ht (fun u e f φ ψ hu htu => hg u e f φ ψ hu (hst.trans htu))
      (hxs.grow hs.reduced hst) (hys.grow hs.reduced hst)
    refine (hrest.mono fun zs u hu htu hz => ?_).map
    exact spells_succ (hr.grow ht.reduced htu) hz (fun ρ => (hmod ρ _ _).symm)
      fun ρ => (hdiv ρ _ _).symm

/-- Complementing edges of the store makes no node. -/
theorem mapM_complement : ∀ {es : List Edge}, (∀ e ∈ es, s.Has e) →
    es.mapM Diagram.complement s = .ok (es.map fun e => -e, s) := by
  intro es
  induction es with
  | nil => exact fun _ => rfl
  | cons e es ih =>
    intro hes
    have he : Diagram.complement e s = .ok (-e, s) :=
      ask_eq_ok.2 ⟨complement_of_lt (hes e List.mem_cons_self).2, rfl⟩
    rw [List.mapM_cons, bind_of_ok he,
      bind_of_ok (ih fun f hf => hes f (List.mem_cons_of_mem e hf))]
    rfl

/-- Complementing every bit leaves what is missing to all ones. -/
theorem Spells.complement (hs : s.Reduced) : ∀ {w : Nat} {xs : List Edge} {X : Assignment → Nat},
    s.Spells w xs X → s.Spells w (xs.map fun e => -e) fun ρ => 2 ^ w - 1 - X ρ := by
  intro w
  induction w with
  | zero =>
    intro xs X hx
    obtain ⟨rfl, rfl⟩ := hx.eq_nil
    exact spells_nil s
  | succ w ih =>
    intro xs X hx
    obtain ⟨e, xs, rfl, he, hxs⟩ := hx.eq_cons
    have hpow : 2 ^ (w + 1) = 2 * 2 ^ w := Nat.pow_succ'
    have hlt := hx.lt
    refine spells_succ (he.neg hs) (ih hxs) (fun ρ => ?_) fun ρ => ?_
    · have := hlt ρ
      rw [← decide_not, decide_eq_decide]
      omega
    · have := hlt ρ
      omega

theorem Valid.gives_mapM_complement {w : Nat} {xs : List Edge} {X : Assignment → Nat}
    (hs : s.Valid) (hx : s.Spells w xs X) :
    s.Gives (xs.mapM Diagram.complement) fun zs t => t.Spells w zs fun ρ => 2 ^ w - 1 - X ρ :=
  ⟨_, s, .within (mapM_complement hx.has)
    (mapM_complement (s := s.unbounded) fun e he => s.growsTo_unbounded.has (hx.has e he)) rfl, hs,
    GrowsTo.refl s, hx.complement hs.reduced⟩

/-- Every digit where a condition holds. -/
theorem gives_mapM_conj {g : Edge → Build Edge} {φ : Assignment → Bool} : ∀ (w : Nat)
    (xs : List Edge) (X : Assignment → Nat) (s : Store), s.Valid →
      (∀ (t : Store) (e : Edge) (ψ : Assignment → Bool), t.Valid → s.GrowsTo t → t.Denotes e ψ →
        t.Gives (g e) fun r u => u.Denotes r fun ρ => φ ρ && ψ ρ) →
      s.Spells w xs X → s.Gives (xs.mapM g) fun zs t =>
        t.Spells w zs fun ρ => if φ ρ then X ρ else 0 := by
  intro w
  induction w with
  | zero =>
    intro xs X s hs _ hx
    obtain ⟨rfl, rfl⟩ := hx.eq_nil
    exact hs.gives_pure ((spells_nil s).congr fun ρ => by rw [ite_self])
  | succ w ih =>
    intro xs X s hs hg hx
    obtain ⟨e, xs, rfl, he, hxs⟩ := hx.eq_cons
    rw [List.mapM_cons]
    refine (hg s e _ hs (GrowsTo.refl s) he).bind fun r t ht hst hr => ?_
    have hrest := ih xs _ t ht (fun u e ψ hu htu => hg u e ψ hu (hst.trans htu))
      (hxs.grow hs.reduced hst)
    refine (hrest.mono fun zs u hu htu hz => ?_).map
    refine spells_succ (hr.grow ht.reduced htu) hz (fun ρ => ?_) fun ρ => ?_
    · cases φ ρ <;> simp
    · cases φ ρ <;> simp

end Stimulus.Diagram.Store

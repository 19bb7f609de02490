import Stimulus.Proofs.Runs.Arithmetic

/-!
# Selection over runs

On every store that a run reaches, the selection of a bit by an index is an exact multiplexer
(`Store.Reached.select_exact`). The index is read without a sign and may have any width: positions
that it cannot spell are never compared with it, so none of them is taken for the smaller position
that its low digits would spell.
-/

set_option autoImplicit false

namespace Stimulus.Diagram.Store

variable {s : Store} {a index : BitVector} {w i : Nat} {X : Assignment → Nat} {ρ : Assignment}

/-- The bit that the number of the index chooses is a digit of the number of the vector. -/
theorem Spells.testBit_iff (h : s.Spells w a.bits X) : (X ρ).testBit i = true ↔
    ∃ hi : i < a.bits.length, s.evaluate (a.bits.get ⟨i, hi⟩) ρ = .ok true := by
  have hdigit (hi : i < a.bits.length) :
      s.evaluate (a.bits.get ⟨i, hi⟩) ρ = .ok ((X ρ).testBit i) :=
    (h.get? (List.getElem?_eq_getElem hi)).evaluate ρ
  constructor
  · intro hbit
    -- a number that is below a power of two has no digit from there on
    have hi : i < w := by
      by_contra hfar
      have hlt : X ρ < 2 ^ i :=
        Nat.lt_of_lt_of_le (h.lt ρ) (Nat.pow_le_pow_right Nat.two_pos (Nat.not_lt.1 hfar))
      rw [Nat.testBit_lt_two_pow hlt] at hbit
      cases hbit
    have hi' : i < a.bits.length := h.length.symm ▸ hi
    exact ⟨hi', (hdigit hi').trans (congrArg _ hbit)⟩
  · rintro ⟨hi, heval⟩
    exact Except.ok.inj ((hdigit hi).symm.trans heval)

/-- **Selection is an exact multiplexer.** A base and an index of any widths and flags have a
selected bit. It is true under exactly the assignments under which the number of the index lies
below the width of the base and the bit of the base at this position is true. A selection without a
result has outgrown the storage. -/
theorem Reached.select_exact (h : s.Reached) (ha : s.Carries a) (hindex : s.Carries index) :
    (∃ e t, BitVector.select a index s = .ok (e, t) ∧ t.Reached ∧ s.Keeps t ∧ t.Has e ∧
      ∀ ρ, ∃ I b, BitVector.valueOf s ρ index.bits = .ok I ∧ t.evaluate e ρ = .ok b ∧
        (b = true ↔
          ∃ hI : I < a.bits.length, s.evaluate (a.bits.get ⟨I, hI⟩) ρ = .ok true)) ∨
    Outgrows s (BitVector.select a index) := by
  have hs := h.valid
  obtain ⟨_, X, -, hX⟩ := ha.spells hs.reduced
  obtain ⟨_, Y, -, hY⟩ := hindex.spells hs.reduced
  refine (hs.gives_select hX hY).run_or_outgrows.imp_left ?_
  rintro ⟨e, t, hr, -, -, hst, he⟩
  exact ⟨e, t, hr, h.of_call (c := .select a index) ⟨ha, hindex⟩ rfl hr, h.keeps_of_growsTo hst,
    he.has, fun ρ => ⟨Y ρ, _, hY.valueOf ρ, he.evaluate ρ, hX.testBit_iff⟩⟩

/-- Three bits, of which the middle one is the complement of a literal. -/
def middle : BitVector := ⟨[.one, -.ofIndex 2, .zero], false⟩

/-- The literal as an index of one bit selects the first bit where it is false and its own
complement where it is true. Below an upper bit that is set, it selects the last bit or none. -/
theorem firstLiteral_select_exact :
    (∃ e t, BitVector.select middle ⟨[.ofIndex 2], true⟩ firstLiteral = .ok (e, t) ∧
      t.evaluate e (fun _ => false) = .ok true ∧ t.evaluate e (fun _ => true) = .ok false) ∧
    ∃ e t, BitVector.select middle twoOrThree firstLiteral = .ok (e, t) ∧
      t.evaluate e (fun _ => false) = .ok false ∧ t.evaluate e (fun _ => true) = .ok false := by
  have hliteral : firstLiteral.Has (.ofIndex 2) := ⟨by decide, by decide⟩
  have hone : firstLiteral.Has .one := ⟨by decide, by decide⟩
  have hmiddle : firstLiteral.Carries middle :=
    ⟨by decide, List.forall_mem_cons.2 ⟨hone, List.forall_mem_cons.2 ⟨hliteral.neg,
      List.forall_mem_singleton.2 hone.neg⟩⟩⟩
  have hnarrow : firstLiteral.Carries ⟨[.ofIndex 2], true⟩ :=
    ⟨by decide, List.forall_mem_singleton.2 hliteral⟩
  refine ⟨?_, ?_⟩
  · obtain ⟨e, t, hr, -, -, -, hbit⟩ :=
      (reached_firstLiteral.select_exact hmiddle hnarrow).resolve_right
        (not_outgrows_of_isOk (by decide +kernel))
    refine ⟨e, t, hr, ?_, ?_⟩
    · obtain ⟨I, b, hI, heval, hb⟩ := hbit fun _ => false
      obtain rfl : 0 = I := Except.ok.inj hI
      rw [heval, hb.2 ⟨by decide, rfl⟩]
    · obtain ⟨I, b, hI, heval, hb⟩ := hbit fun _ => true
      obtain rfl : 1 = I := Except.ok.inj hI
      cases b with
      | false => exact heval
      | true =>
        obtain ⟨_, hset⟩ := hb.1 rfl
        cases hset
  · obtain ⟨e, t, hr, -, -, -, hbit⟩ :=
      (reached_firstLiteral.select_exact hmiddle carries_twoOrThree).resolve_right
        (not_outgrows_of_isOk (by decide +kernel))
    refine ⟨e, t, hr, ?_, ?_⟩
    · obtain ⟨I, b, hI, heval, hb⟩ := hbit fun _ => false
      obtain rfl : 2 = I := Except.ok.inj hI
      cases b with
      | false => exact heval
      | true =>
        obtain ⟨_, hset⟩ := hb.1 rfl
        cases hset
    · obtain ⟨I, b, hI, heval, hb⟩ := hbit fun _ => true
      obtain rfl : 3 = I := Except.ok.inj hI
      cases b with
      | false => exact heval
      | true =>
        obtain ⟨hlt, -⟩ := hb.1 rfl
        exact absurd hlt (Nat.lt_irrefl 3)

end Stimulus.Diagram.Store

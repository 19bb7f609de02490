import Stimulus.Proofs.BitVector.Apply
import Stimulus.Proofs.Runs

/-!
# Operators over runs

An operator on two vectors extends them and makes one call. So on a store that a run reaches it
leads to such a store again (`Store.Reached.of_apply`).
-/

set_option autoImplicit false

namespace Stimulus.Diagram.Store

variable {s t : Store} {w : Nat} {a b r : BitVector} {op : Operator} {signed : Bool}

/-- A vector that is extended stays within the store, with any flag. -/
theorem Carries.resize (ha : s.Carries a) (hs : s.Reduced) (hw : a.width ≤ w) (signed : Bool) :
    s.Carries ⟨a.resizeBits w, signed⟩ := by
  obtain ⟨n, X, hn, hX⟩ := ha.spells hs
  refine ⟨?_, (hX.resize hs (Nat.succ_pos n) (hn ▸ hw)).has⟩
  have hlen : (⟨a.resizeBits w, signed⟩ : BitVector).width = w := length_resizeBits a w
  have := ha.1
  omega

section Calls

variable {α β : Type} {c : Call} {x : Build α} {g : α → List Edge} {k : α → β} {y : α} {z : β}

/-- A legal call, seen without the list of its edges, leads to a store that a run reaches. -/
theorem Reached.of_call (h : s.Reached) (hc : s.Allows c) (hrun : c.run = x >>= fun r => pure (g r))
    (hr : x s = .ok (y, t)) : t.Reached :=
  h.call hc (hrun ▸ bind_of_ok hr)

/-- The same where the result is rearranged. -/
theorem Reached.of_call_map (h : s.Reached) (hc : s.Allows c)
    (hrun : c.run = x >>= fun r => pure (g r))
    (hr : (x >>= fun r => pure (k r)) s = .ok (z, t)) : t.Reached := by
  obtain ⟨r, u, hx, hlast⟩ := exists_of_bind hr
  cases hlast
  exact h.of_call hc hrun hx

end Calls

/-- Operators on vectors of one width make one call. -/
theorem Reached.of_applyAligned (h : s.Reached) (ha : s.Carries a) (hb : s.Carries b)
    (hw : a.width = b.width) (hr : BitVector.applyAligned op a b signed s = .ok (r, t)) :
    t.Reached := by
  have hab : s.Carries a ∧ s.Carries b ∧ a.width = b.width := ⟨ha, hb, hw⟩
  have hba : s.Carries b ∧ s.Carries a ∧ b.width = a.width := ⟨hb, ha, hw.symm⟩
  cases op with
  | eq | ne => exact h.of_call_map (c := .eq a b) hab rfl hr
  | lt =>
    cases signed with
    | true => exact h.of_call_map (c := .slt a b) hab rfl hr
    | false => exact h.of_call_map (c := .ult a b) hab rfl hr
  | le =>
    cases signed with
    | true => exact h.of_call_map (c := .sle a b) hab rfl hr
    | false => exact h.of_call_map (c := .ule a b) hab rfl hr
  | gt =>
    cases signed with
    | true => exact h.of_call_map (c := .slt b a) hba rfl hr
    | false => exact h.of_call_map (c := .ult b a) hba rfl hr
  | ge =>
    cases signed with
    | true => exact h.of_call_map (c := .sle b a) hba rfl hr
    | false => exact h.of_call_map (c := .ule b a) hba rfl hr
  | div | mod =>
    cases signed with
    | true => exact h.of_call_map (c := .sdivmod a b) hab rfl hr
    | false => exact h.of_call_map (c := .udivmod a b) hab rfl hr
  | add => exact h.of_call (c := .add a b) hab rfl hr
  | sub => exact h.of_call (c := .sub a b) hab rfl hr
  | mul => exact h.of_call (c := .mul a b) hab rfl hr
  | and => exact h.of_call (c := .bitAnd a b) hab rfl hr
  | or => exact h.of_call (c := .bitOr a b) hab rfl hr
  | xor => exact h.of_call (c := .bitXor a b) hab rfl hr
  | shiftLeft => exact h.of_call (c := .shl a b) ⟨ha, hb⟩ rfl hr
  | shiftRight => exact h.of_call (c := .lshr a b) ⟨ha, hb⟩ rfl hr

/-- **An operator on two vectors leads from a store that a run reaches to such a store.** -/
theorem Reached.of_apply (h : s.Reached) (ha : s.Carries a) (hb : s.Carries b)
    (hr : BitVector.apply op a b s = .ok (r, t)) : t.Reached := by
  have hs := h.valid.reduced
  -- all operators but the shifts extend both vectors first
  have haligned : ∀ signed, BitVector.applyAligned op ⟨a.resizeBits (max a.width b.width), signed⟩
      ⟨b.resizeBits (max a.width b.width), signed⟩ signed s = .ok (r, t) → t.Reached :=
    fun signed => h.of_applyAligned (ha.resize hs (Nat.le_max_left _ _) signed)
      (hb.resize hs (Nat.le_max_right _ _) signed)
      ((length_resizeBits a _).trans (length_resizeBits b _).symm)
  cases op with
  | shiftLeft => exact h.of_call (c := .shl a b) ⟨ha, hb⟩ rfl hr
  | shiftRight => exact h.of_call (c := .lshr a b) ⟨ha, hb⟩ rfl hr
  | _ => exact haligned _ hr

end Stimulus.Diagram.Store

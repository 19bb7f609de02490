import Mathlib.Data.List.Nodup
import Mathlib.Data.List.Perm.Subperm
import Stimulus.Proofs.BitVector.Bitwise

/-!
# Variables as bits

Variables without repetition take any values (`Store.exists_valueAt`), and a vector over
variables has these as its bits (`Store.Spells.denotes_vars`). Each variable that is the
function of an edge has a node of its own, so a store has more nodes than it names
variables (`Store.length_add_two_le_size`).
-/

set_option autoImplicit false

namespace Stimulus

open Diagram Store

/-! ## Related lists -/

theorem exists_of_forall₂ {α β : Type} {R : α → β → Prop} {xs : List α} {ys : List β} {x : α}
    (h : List.Forall₂ R xs ys) (hx : x ∈ xs) : ∃ y ∈ ys, R x y := by
  induction h with
  | nil => cases hx
  | cons hxy _ ih =>
    rcases List.mem_cons.1 hx with rfl | hx
    · exact ⟨_, List.mem_cons_self, hxy⟩
    · obtain ⟨y, hy, hR⟩ := ih hx
      exact ⟨y, List.mem_cons_of_mem _ hy, hR⟩

/-- Related elements with one image each. -/
theorem map_eq_of_forall₂ {α β γ : Type} {R : α → β → Prop} {xs : List α} {ys : List β} {u : α → γ}
    {v : β → γ} (h : List.Forall₂ R xs ys) (huv : ∀ x y, R x y → u x = v y) :
    xs.map u = ys.map v := by
  rw [← List.forall₂_eq_eq_eq, List.forall₂_map_left_iff, List.forall₂_map_right_iff]
  exact h.imp huv

theorem exists_forall₂ {α β : Type} {R : α → β → Prop} {ys : List β} (h : ∀ y ∈ ys, ∃ x, R x y) :
    ∃ xs, List.Forall₂ R xs ys := by
  induction ys with
  | nil => exact ⟨[], List.Forall₂.nil⟩
  | cons y ys ih =>
    obtain ⟨x, hx⟩ := h y List.mem_cons_self
    obtain ⟨xs, hxs⟩ := ih fun z hz => h z (List.mem_cons_of_mem y hz)
    exact ⟨x :: xs, List.Forall₂.cons hx hxs⟩

theorem getElem?_of_forall₂ {α β : Type} {R : α → β → Prop} {xs : List α} {ys : List β} {i : Nat}
    {x : α} (h : List.Forall₂ R xs ys) (hi : xs[i]? = some x) : ∃ y, ys[i]? = some y ∧ R x y := by
  induction h generalizing i with
  | nil => cases hi
  | cons hxy _ ih =>
    cases i with
    | zero =>
      cases hi
      exact ⟨_, rfl, hxy⟩
    | succ i => exact ih hi

/-! ## Assignments with given values -/

namespace Diagram

/-- The assignment in which some variables have the digits of a number as their values. -/
def Assignment.write (ρ : Assignment) : List Nat → Nat → Assignment
  | [], _ => ρ
  | v :: vars, x => (Assignment.write ρ vars (x / 2)).set v (decide (x % 2 = 1))

theorem Assignment.write_of_not_mem (ρ : Assignment) {vars : List Nat} {v : Nat} (hv : v ∉ vars)
    (x : Nat) : ρ.write vars x v = ρ v := by
  induction vars generalizing x with
  | nil => rfl
  | cons u vars ih =>
    rw [List.mem_cons, not_or] at hv
    rw [Assignment.write, Assignment.set_of_ne _ _ hv.1, ih hv.2]

/-- The number that variables spell depends on them only. -/
theorem Store.valueAt_congr {ρ σ : Assignment} {vars : List Nat} (h : ∀ v ∈ vars, ρ v = σ v) :
    valueAt ρ vars = valueAt σ vars := by
  induction vars with
  | nil => rfl
  | cons v vars ih =>
    rw [valueAt_cons, valueAt_cons, h v List.mem_cons_self,
      ih fun u hu => h u (List.mem_cons_of_mem v hu)]

/-- Written digits are read back. -/
theorem Assignment.valueAt_write (ρ : Assignment) {vars : List Nat} (hvars : vars.Nodup) {x : Nat}
    (hx : x < 2 ^ vars.length) : valueAt (ρ.write vars x) vars = x := by
  induction vars generalizing x with
  | nil => exact (Nat.lt_one_iff.1 hx).symm
  | cons v vars ih =>
    rw [List.nodup_cons] at hvars
    rw [List.length_cons, Nat.pow_succ] at hx
    -- the value of `v` is written last and does not disturb the others
    have hrest : valueAt (ρ.write (v :: vars) x) vars = x / 2 := by
      rw [← ih hvars.2 (x := x / 2) (by omega)]
      refine valueAt_congr fun u hu => Assignment.set_of_ne _ _ ?_
      rintro rfl
      exact hvars.1 hu
    show (ρ.write (v :: vars) x v).toNat + 2 * _ = x
    rw [hrest, Assignment.write, Assignment.set_self]
    rcases Nat.mod_two_eq_zero_or_one x with h | h
    · rw [h]
      show 0 + _ = _
      omega
    · rw [h]
      show 1 + _ = _
      omega

/-- Variables without repetition take any values. -/
theorem Store.exists_valueAt {xs : List Nat} {vars : List (List Nat)}
    (h : List.Forall₂ (fun x vs => x < 2 ^ vs.length) xs vars) (hvars : vars.flatten.Nodup) :
    ∃ ρ, List.Forall₂ (fun x vs => valueAt ρ vs = x) xs vars := by
  induction h with
  | nil => exact ⟨fun _ => false, List.Forall₂.nil⟩
  | @cons x vs xs vars hx _ ih =>
    rw [List.flatten_cons, List.nodup_append] at hvars
    obtain ⟨hvs, hrest, hapart⟩ := hvars
    obtain ⟨ρ, hρ⟩ := ih hrest
    refine ⟨ρ.write vs x, List.Forall₂.cons (ρ.valueAt_write hvs hx) ?_⟩
    -- the other variables keep their values
    have hkeep : ∀ us ∈ vars, valueAt (ρ.write vs x) us = valueAt ρ us := fun us hus =>
      valueAt_congr fun v hv => ρ.write_of_not_mem (fun hv' =>
        hapart v hv' v (List.mem_flatten.2 ⟨us, hus, hv⟩) rfl) _
    rw [List.forall₂_iff_zip] at hρ ⊢
    refine ⟨hρ.1, fun {y us} hy => ?_⟩
    rw [hkeep us (List.of_mem_zip hy).2]
    exact hρ.2 hy

end Diagram

/-! ## Variables and their nodes -/

namespace Diagram.Store

variable {s : Store} {ρ σ : Assignment} {w u v : Nat} {bits : List Edge} {vars : List Nat}
  {e f : Edge}

theorem valueAt_cons_mod (ρ : Assignment) (v : Nat) (vars : List Nat) :
    decide (valueAt ρ (v :: vars) % 2 = 1) = ρ v := by
  rw [valueAt_cons, Nat.add_mul_mod_self_left]
  cases ρ v <;> rfl

theorem valueAt_cons_div (ρ : Assignment) (v : Nat) (vars : List Nat) :
    valueAt ρ (v :: vars) / 2 = valueAt ρ vars := by
  have hlt := Bool.toNat_lt (ρ v)
  rw [valueAt_cons]
  omega

/-- Variables that spell the same number have the same values. -/
theorem eq_of_valueAt_eq (h : valueAt ρ vars = valueAt σ vars) : ∀ v ∈ vars, ρ v = σ v := by
  induction vars with
  | nil => exact fun v hv => absurd hv List.not_mem_nil
  | cons u vars ih =>
    intro v hv
    rcases List.mem_cons.1 hv with rfl | hv
    · rw [← valueAt_cons_mod ρ v vars, h, valueAt_cons_mod]
    · refine ih ?_ v hv
      rw [← valueAt_cons_div ρ u vars, h, valueAt_cons_div]

/-- The bits of a term over variables are these variables. -/
theorem Spells.denotes_vars (h : s.Spells w bits fun ρ => valueAt ρ vars)
    (hlen : vars.length = w) : List.Forall₂ (fun e v => s.Denotes e fun ρ => ρ v) bits vars := by
  induction w generalizing bits vars with
  | zero =>
    rw [List.eq_nil_of_length_eq_zero hlen, h.eq_nil.1]
    exact List.Forall₂.nil
  | succ w ih =>
    cases vars with
    | nil => cases hlen
    | cons v vars =>
      obtain ⟨e, rest, rfl, he, hrest⟩ := h.eq_cons
      refine List.Forall₂.cons (he.congr fun ρ => valueAt_cons_mod ρ v vars) ?_
      exact ih (hrest.congr fun ρ => valueAt_cons_div ρ v vars) (Nat.succ.inj hlen)

/-- Edges of variables spell the number of these. -/
theorem spells_of_denotes (h : List.Forall₂ (fun e v => s.Denotes e fun ρ => ρ v) bits vars) :
    s.Spells vars.length bits fun ρ => valueAt ρ vars := by
  induction h with
  | nil => exact spells_nil s
  | cons he _ ih => exact he.spells_cons ih

/-- Different variables have different nodes. -/
theorem index_ne_of_var_ne (hs : s.Reduced) (he : s.Denotes e fun ρ => ρ v)
    (hf : s.Denotes f fun ρ => ρ u) (huv : v ≠ u) : e.index ≠ f.index := by
  intro hindex
  -- the assignment in which only `v` is true tells `v` from `u`, the false one from its complement
  rcases Edge.eq_or_eq_neg_of_index hindex with rfl | rfl
  · have h : decide (v = v) = decide (u = v) := congrFun (he.unique hf) fun x => decide (x = v)
    rw [decide_eq_true rfl, eq_comm, decide_eq_true_eq] at h
    exact huv h.symm
  · have h := congrFun (he.unique (hf.neg hs)) fun _ => false
    cases h

theorem nodup_index_of_vars (hs : s.Reduced) (h : List.Forall₂ (fun e v => s.Denotes e fun ρ => ρ v)
    bits vars) (hvars : vars.Nodup) : (bits.map Edge.index).Nodup := by
  induction h with
  | nil => exact List.nodup_nil
  | @cons e v es vs he hes ih =>
    rw [List.nodup_cons] at hvars
    rw [List.map_cons, List.nodup_cons]
    refine ⟨fun hmem => ?_, ih hvars.2⟩
    obtain ⟨f, hf, hindex⟩ := List.mem_map.1 hmem
    obtain ⟨u, hu, hfu⟩ := exists_of_forall₂ hes hf
    refine index_ne_of_var_ne hs he hfu ?_ hindex.symm
    rintro rfl
    exact hvars.1 hu

/-- The edge of a variable leads to a node after the terminal. -/
theorem two_le_index_of_var (hs : s.Reduced) (he : s.Denotes e fun ρ => ρ v) : 2 ≤ e.index := by
  refine he.has.two_le (Bool.eq_false_iff.2 fun ht => ?_)
  -- a variable is not constant
  rcases (Edge.isTerminal_iff e).1 ht with rfl | rfl
  · have h := congrFun (he.unique (denotes_zero hs)) fun _ => true
    cases h
  · have h := congrFun (he.unique (denotes_one hs)) fun _ => false
    cases h

/-- A store has a node for each of the variables, besides the unused index and the terminal. -/
theorem length_add_two_le_size (hs : s.Reduced)
    (h : List.Forall₂ (fun e v => s.Denotes e fun ρ => ρ v) bits vars) (hvars : vars.Nodup) :
    vars.length + 2 ≤ s.nodes.size := by
  have hsub : bits.map Edge.index ⊆ List.range' 2 (s.nodes.size - 2) := by
    intro i hi
    obtain ⟨e, he, rfl⟩ := List.mem_map.1 hi
    obtain ⟨v, -, hv⟩ := exists_of_forall₂ h he
    have hlow := two_le_index_of_var hs hv
    have hhigh := hv.has.2
    rw [List.mem_range'_1]
    omega
  have hle := (List.subperm_of_subset (nodup_index_of_vars hs h hvars) hsub).length_le
  have hsize := hs.two_le_size
  rw [List.length_map, List.length_range', h.length_eq] at hle
  omega

end Diagram.Store

end Stimulus

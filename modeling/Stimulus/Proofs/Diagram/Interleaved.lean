import Stimulus.Proofs.Diagram.Subfunctions

/-!
# Comparisons of interleaved digits

Two numbers are compared digit by digit, from the least significant pair of digits to the most
significant one, and every pair reads a variable of the one number and then one of the other
(`Alternate`). Equality (`same`) goes on as long as the digits agree. The order (`less`) keeps the
verdict so far where the digits agree and replaces it where they do not (`decided`); at the last
pair the digits of signed numbers count the other way.

A comparison has three subfunctions for every pair of digits, whatever the number of pairs
(`encard_subfunctions_same`, `encard_subfunctions_less`): before the pair there are two, one for
each verdict, or one where a difference settles the matter, and after the first of both digits
there are one or two. At the last pair the subfunctions after the first digit coincide up to
complement.
-/

set_option autoImplicit false

namespace Stimulus.Diagram

variable {ps : List (Nat × Nat)} {p q : Nat × Nat} {v : Nat} {signed sofar x y : Bool}
  {φ : Assignment → Bool} {ρ σ : Assignment}

/-- The variables of the pairs increase from `v` on, in each pair the first before the second. -/
def Alternate : Nat → List (Nat × Nat) → Prop
  | _, [] => True
  | v, p :: ps => v ≤ p.1 ∧ p.1 < p.2 ∧ Alternate (p.2 + 1) ps

/-- The digits of every pair are equal. -/
def same : List (Nat × Nat) → Assignment → Bool
  | [], _ => true
  | p :: ps, ρ => (ρ p.1 == ρ p.2) && same ps ρ

/-- The verdict of a pair with different digits, of which `y` is the second: the larger digit makes
the larger number, except that of the last pair of signed numbers. -/
def verdict (signed : Bool) (ps : List (Nat × Nat)) (y : Bool) : Bool := y ^^ (signed && ps.isEmpty)

/-- The first number is less than the second one, where less significant digits gave the verdict so
far. -/
def less (signed : Bool) : List (Nat × Nat) → Bool → Assignment → Bool
  | [], sofar, _ => sofar
  | p :: ps, sofar, ρ =>
    less signed ps (if ρ p.1 = ρ p.2 then sofar else verdict signed ps (ρ p.2)) ρ

/-- The first digit of the pair is fixed, and the second one is equal to it. -/
def matching (p : Nat × Nat) (ps : List (Nat × Nat)) (x : Bool) : Assignment → Bool :=
  fun ρ => (x == ρ p.2) && same ps ρ

/-- The second digit of the pair gives the verdict. -/
def decided (signed : Bool) (p : Nat × Nat) (ps : List (Nat × Nat)) : Assignment → Bool :=
  fun ρ => less signed ps (verdict signed ps (ρ p.2)) ρ

/-! ## Equations -/

@[simp] theorem same_cons (p : Nat × Nat) (ps : List (Nat × Nat)) (ρ : Assignment) :
    same (p :: ps) ρ = (ρ p.1 == ρ p.2 && same ps ρ) := rfl

@[simp] theorem less_cons (signed sofar : Bool) (p : Nat × Nat) (ps : List (Nat × Nat))
    (ρ : Assignment) : less signed (p :: ps) sofar ρ =
      less signed ps (if ρ p.1 = ρ p.2 then sofar else verdict signed ps (ρ p.2)) ρ := rfl

@[simp] theorem matching_apply (p : Nat × Nat) (ps : List (Nat × Nat)) (x : Bool)
    (ρ : Assignment) : matching p ps x ρ = (x == ρ p.2 && same ps ρ) := rfl

@[simp] theorem decided_apply (signed : Bool) (p : Nat × Nat) (ps : List (Nat × Nat))
    (ρ : Assignment) : decided signed p ps ρ = less signed ps (verdict signed ps (ρ p.2)) ρ := rfl

theorem verdict_true (signed : Bool) (ps : List (Nat × Nat)) :
    verdict signed ps true = !verdict signed ps false := by
  unfold verdict
  rw [Bool.true_xor, Bool.false_xor]

/-! ## Where comparisons start -/

theorem Alternate.tight (h : Alternate v (p :: ps)) : Alternate p.1 (p :: ps) :=
  ⟨Nat.le_refl _, h.2⟩

theorem Alternate.from_same (h : Alternate v ps) : From v (same ps) := by
  induction ps generalizing v with
  | nil => exact fun _ _ _ => rfl
  | cons p ps ih =>
    obtain ⟨hv, hp, hps⟩ := h
    intro ρ σ hρσ
    have hrest := ih hps ρ σ fun u hu => hρσ u (by omega)
    rw [same_cons, same_cons, hρσ p.1 hv, hρσ p.2 (by omega), hrest]

theorem Alternate.from_less (h : Alternate v ps) (signed sofar : Bool) :
    From v (less signed ps sofar) := by
  induction ps generalizing v sofar with
  | nil => exact fun _ _ _ => rfl
  | cons p ps ih =>
    obtain ⟨hv, hp, hps⟩ := h
    intro ρ σ hρσ
    rw [less_cons, less_cons, hρσ p.1 hv, hρσ p.2 (by omega)]
    exact ih hps _ ρ σ fun u hu => hρσ u (by omega)

theorem Alternate.from_matching (h : Alternate (p.2 + 1) ps) (x : Bool) :
    From p.2 (matching p ps x) := by
  intro ρ σ hρσ
  have hrest := h.from_same ρ σ fun u hu => hρσ u (by omega)
  rw [matching_apply, matching_apply, hρσ p.2 (Nat.le_refl _), hrest]

theorem Alternate.from_decided (h : Alternate (p.2 + 1) ps) (signed : Bool) :
    From p.2 (decided signed p ps) := by
  intro ρ σ hρσ
  rw [decided_apply, decided_apply, hρσ p.2 (Nat.le_refl _)]
  exact h.from_less signed _ ρ σ fun u hu => hρσ u (by omega)

/-! ## Sides -/

theorem Alternate.sideOf_same (h : Alternate v (p :: ps)) (x : Bool) :
    sideOf (same (p :: ps)) p.1 x = matching p ps x := by
  obtain ⟨-, hp, hps⟩ := h
  funext ρ
  have hrest : same ps (ρ.set p.1 x) = same ps ρ :=
    congrFun (hps.from_same.sideOf_eq_self (by omega)) ρ
  rw [sideOf, same_cons, ρ.set_self, ρ.set_of_ne x (Nat.ne_of_gt hp), hrest, matching_apply]

theorem Alternate.sideOf_matching (h : Alternate (p.2 + 1) ps) (x y : Bool) :
    sideOf (matching p ps x) p.2 y = if x = y then same ps else fun _ => false := by
  funext ρ
  have hrest : same ps (ρ.set p.2 y) = same ps ρ :=
    congrFun (h.from_same.sideOf_eq_self (Nat.lt_succ_self _)) ρ
  rw [sideOf, matching_apply, ρ.set_self, hrest]
  cases x <;> cases y <;> rfl

/-- Where the first digit could give the other verdict, the second one decides. -/
theorem Alternate.sideOf_less (h : Alternate v (p :: ps)) (signed sofar x : Bool) :
    sideOf (less signed (p :: ps) sofar) p.1 x =
      if verdict signed ps x = sofar then decided signed p ps else less signed ps sofar := by
  obtain ⟨-, hp, hps⟩ := h
  funext ρ
  have hrest : ∀ c, less signed ps c (ρ.set p.1 x) = less signed ps c ρ := fun c =>
    congrFun ((hps.from_less signed c).sideOf_eq_self (by omega)) ρ
  rw [sideOf, less_cons, hrest, ρ.set_self, ρ.set_of_ne x (Nat.ne_of_gt hp)]
  have htrue := verdict_true signed ps
  by_cases hx : verdict signed ps x = sofar
  · -- equal digits keep the verdict that the second one gives
    rw [if_pos hx, decided_apply]
    congr 1
    split
    · rename_i heq
      rw [← hx, heq]
    · rfl
  · rw [if_neg hx]
    congr 1
    cases x <;> cases ρ p.2 <;> cases sofar <;> cases hf : verdict signed ps false <;> simp_all

theorem Alternate.sideOf_decided (h : Alternate (p.2 + 1) ps) (signed y : Bool) :
    sideOf (decided signed p ps) p.2 y = less signed ps (verdict signed ps y) := by
  funext ρ
  rw [sideOf, decided_apply, ρ.set_self]
  exact congrFun ((h.from_less signed _).sideOf_eq_self (Nat.lt_succ_self _)) ρ

/-! ## What comparisons read -/

theorem same_const (ps : List (Nat × Nat)) (x : Bool) : same ps (fun _ => x) = true := by
  induction ps with
  | nil => rfl
  | cons p ps ih =>
    rw [same_cons, ih, beq_self_eq_true, Bool.and_self]

/-- Equal digits keep the verdict. -/
theorem less_of_same (h : same ps ρ = true) : less signed ps sofar ρ = sofar := by
  induction ps with
  | nil => rfl
  | cons p ps ih =>
    obtain ⟨hp, hps⟩ := Bool.and_eq_true_iff.1 h
    rw [less_cons, if_pos (eq_of_beq hp)]
    exact ih hps

/-- All digits are zero but those of one pair. -/
def probe (p : Nat × Nat) (x y : Bool) : Assignment :=
  (Assignment.set (fun _ => false) p.2 y).set p.1 x

theorem probe_fst (p : Nat × Nat) (x y : Bool) : probe p x y p.1 = x := Assignment.set_self ..

theorem probe_snd (hp : p.1 < p.2) (x y : Bool) : probe p x y p.2 = y := by
  unfold probe
  rw [Assignment.set_of_ne _ _ (Nat.ne_of_gt hp), Assignment.set_self]

/-- After the pair, a probe looks as if all digits were zero. -/
theorem probe_of_lt (hp : p.1 < p.2) (x y : Bool) {u : Nat} (hu : p.2 < u) :
    probe p x y u = false := by
  unfold probe
  rw [Assignment.set_of_ne _ _ (by omega), Assignment.set_of_ne _ _ (by omega)]

theorem probe_congr_fst (x x' y : Bool) {u : Nat} (hu : p.1 < u) : probe p x y u = probe p x' y u := by
  unfold probe
  rw [Assignment.set_of_ne _ _ (Nat.ne_of_gt hu), Assignment.set_of_ne _ _ (Nat.ne_of_gt hu)]

theorem probe_congr_snd (hp : p.1 < p.2) (y y' : Bool) {u : Nat} (hu : p.2 < u) :
    probe p false y u = probe p false y' u := by
  rw [probe_of_lt hp false y hu, probe_of_lt hp false y' hu]

theorem Alternate.same_probe (h : Alternate v (p :: ps)) (x y : Bool) :
    same ps (probe p x y) = true := by
  obtain ⟨-, hp, hps⟩ := h
  rw [hps.from_same _ (fun _ => false) fun u hu => probe_of_lt hp x y hu]
  exact same_const ps false

theorem Alternate.less_probe (h : Alternate v (p :: ps)) (signed sofar x y : Bool) :
    less signed (p :: ps) sofar (probe p x y) = if x = y then sofar else verdict signed ps y := by
  rw [less_cons, less_of_same (h.same_probe x y), probe_fst, probe_snd h.2.1]

theorem Alternate.not_from_same (h : Alternate v (p :: ps)) : ¬ From (p.1 + 1) (same (p :: ps)) := by
  intro hfrom
  have heval : ∀ x, same (p :: ps) (probe p x false) = (x == false) := fun x => by
    rw [same_cons, h.same_probe, probe_fst, probe_snd h.2.1, Bool.and_true]
  have heq := hfrom _ _ fun u hu => probe_congr_fst false true false hu
  rw [heval, heval] at heq
  cases heq

theorem Alternate.not_from_less (h : Alternate v (p :: ps)) (signed sofar : Bool) :
    ¬ From (p.1 + 1) (less signed (p :: ps) sofar) := by
  intro hfrom
  -- a second digit whose verdict is not the one so far
  obtain ⟨y, hy⟩ : ∃ y, verdict signed ps y ≠ sofar := by
    by_cases hfalse : verdict signed ps false = sofar
    · exact ⟨true, fun htrue => by
        rw [verdict_true, hfalse] at htrue
        exact Bool.not_ne_self sofar htrue⟩
    · exact ⟨false, hfalse⟩
  have heq := hfrom _ _ fun u hu => probe_congr_fst y (!y) y hu
  rw [h.less_probe, h.less_probe, if_pos rfl, if_neg (Bool.not_ne_self y)] at heq
  exact hy heq.symm

theorem Alternate.not_from_matching (h : Alternate v (p :: ps)) (x : Bool) :
    ¬ From (p.2 + 1) (matching p ps x) := by
  intro hfrom
  have heval : ∀ y, matching p ps x (probe p false y) = (x == y) := fun y => by
    rw [matching_apply, h.same_probe, probe_snd h.2.1, Bool.and_true]
  have heq := hfrom _ _ fun u hu => probe_congr_snd h.2.1 false true hu
  rw [heval, heval] at heq
  cases x <;> cases heq

theorem Alternate.not_from_decided (h : Alternate v (p :: ps)) (signed : Bool) :
    ¬ From (p.2 + 1) (decided signed p ps) := by
  intro hfrom
  have heval : ∀ y, decided signed p ps (probe p false y) = verdict signed ps y := fun y => by
    rw [decided_apply, less_of_same (h.same_probe false y), probe_snd h.2.1]
  have heq := hfrom _ _ fun u hu => probe_congr_snd h.2.1 false true hu
  rw [heval, heval, verdict_true] at heq
  exact Bool.not_ne_self _ heq.symm

/-! ## Subfunctions of equality -/

/-- After different digits the numbers differ, whatever comes. -/
theorem Alternate.const_mem_same (h : Alternate v ps) (hv : 0 < v) :
    (polarities fun _ => true) ∈ subfunctions (same ps) := by
  induction ps generalizing v with
  | nil => exact mem_subfunctions_self _
  | cons p ps ih =>
    obtain ⟨hvp, hp, hps⟩ := id h
    have hside := h.tight.from_same.sideOf_mem (Nat.lt_of_lt_of_le hv hvp) true
    rw [h.sideOf_same] at hside
    have hside' := (hps.from_matching true).sideOf_mem (Nat.zero_lt_of_lt hp) true
    rw [hps.sideOf_matching, if_pos rfl] at hside'
    exact subfunctions_subset (subfunctions_subset hside hside') (ih hps (Nat.succ_pos _))

theorem Alternate.subfunctions_matching (h : Alternate v (p :: ps)) (x : Bool) :
    subfunctions (matching p ps x) =
      insert (polarities (matching p ps x)) (subfunctions (same ps)) := by
  obtain ⟨-, hp, hps⟩ := h
  have hconst : subfunctions (fun _ => false) ⊆ subfunctions (same ps) := by
    rw [subfunctions_const, Set.singleton_subset_iff]
    exact hps.const_mem_same (Nat.succ_pos _)
  rw [subfunctions_eq_insert (hps.from_matching x) (Nat.zero_lt_of_lt hp), hps.sideOf_matching,
    hps.sideOf_matching]
  cases x
  · exact congrArg _ (Set.union_eq_left.2 hconst)
  · exact congrArg _ (Set.union_eq_right.2 hconst)

/-- After the first digit of the last pair there are two functions, which are complements. -/
theorem polarities_matching_last (p : Nat × Nat) :
    polarities (matching p [] false) = polarities (matching p [] true) := by
  refine polarities_eq_iff.2 (Or.inr (funext fun ρ => ?_))
  rw [matching_apply, matching_apply]
  cases ρ p.2 <;> rfl

/-- Before other pairs they are not, since both are false where the digits of these differ. -/
theorem Alternate.polarities_matching_ne (h : Alternate v (p :: q :: ps)) :
    polarities (matching p (q :: ps) false) ≠ polarities (matching p (q :: ps) true) := by
  obtain ⟨-, hp, hq, hqq, -⟩ := id h
  intro heq
  rcases polarities_eq_iff.1 heq with heq | heq
  · have hzero := congrFun heq fun _ => false
    rw [matching_apply, matching_apply, same_const] at hzero
    cases hzero
  · have hdiffer : same (q :: ps) (probe q true false) = false := by
      rw [same_cons, probe_fst, probe_snd hqq]
      rfl
    have hone := congrFun heq (probe q true false)
    rw [matching_apply, matching_apply, hdiffer, Bool.and_false, Bool.and_false] at hone
    cases hone

theorem Alternate.encard_subfunctions_same_cons (h : Alternate v (p :: ps)) (hv : 0 < v) :
    (subfunctions (same (p :: ps))).encard = (insert (polarities (matching p ps false))
      (insert (polarities (matching p ps true)) (subfunctions (same ps)))).encard + 1 := by
  rw [h.tight.from_same.encard_subfunctions (Nat.lt_of_lt_of_le hv h.1) h.not_from_same,
    h.sideOf_same, h.sideOf_same, h.subfunctions_matching, h.subfunctions_matching,
    Set.insert_union, Set.union_insert, Set.union_self]

/-- **Equality of interleaved digits** has three subfunctions for every pair. -/
theorem Alternate.encard_subfunctions_same (h : Alternate v (p :: ps)) (hv : 0 < v) :
    (subfunctions (same (p :: ps))).encard = (3 * (ps.length + 1) : Nat) := by
  have hmatching : ∀ x, polarities (matching p ps x) ∉ subfunctions (same ps) := fun x =>
    h.2.2.from_same.not_mem (h.not_from_matching x)
  rw [h.encard_subfunctions_same_cons hv]
  induction ps generalizing v p with
  | nil =>
    rw [polarities_matching_last, Set.insert_eq_of_mem (Set.mem_insert _ _),
      Set.encard_insert_of_notMem (hmatching true)]
    show (subfunctions fun _ => true).encard + 1 + 1 = _
    rw [subfunctions_const, Set.encard_singleton]
    rfl
  | cons q ps ih =>
    have hq : Alternate (p.2 + 1) (q :: ps) := h.2.2
    have hne : polarities (matching p (q :: ps) false) ∉
        insert (polarities (matching p (q :: ps) true)) (subfunctions (same (q :: ps))) := by
      rintro (heq | hmem)
      · exact h.polarities_matching_ne heq
      · exact hmatching false hmem
    rw [Set.encard_insert_of_notMem hne, Set.encard_insert_of_notMem (hmatching true),
      hq.encard_subfunctions_same_cons (Nat.succ_pos _),
      ih hq (Nat.succ_pos _) fun x => hq.2.2.from_same.not_mem (hq.not_from_matching x)]
    norm_cast

/-! ## Subfunctions of the order -/

/-- What is left to decide after some pairs, for both verdicts so far. -/
def remaining (signed : Bool) (ps : List (Nat × Nat)) : Set (Set (Assignment → Bool)) :=
  subfunctions (less signed ps false) ∪ subfunctions (less signed ps true)

theorem less_mem_remaining (signed : Bool) (ps : List (Nat × Nat)) (sofar : Bool) :
    subfunctions (less signed ps sofar) ⊆ remaining signed ps := by
  cases sofar
  · exact Set.subset_union_left
  · exact Set.subset_union_right

theorem Alternate.sides_decided (h : Alternate v (p :: ps)) (signed : Bool) :
    subfunctions (sideOf (decided signed p ps) p.2 false) ∪
      subfunctions (sideOf (decided signed p ps) p.2 true) = remaining signed ps := by
  rw [h.2.2.sideOf_decided, h.2.2.sideOf_decided, verdict_true]
  cases verdict signed ps false
  · rfl
  · exact Set.union_comm _ _

theorem Alternate.sides_less (h : Alternate v (p :: ps)) (signed sofar : Bool) :
    subfunctions (sideOf (less signed (p :: ps) sofar) p.1 false) ∪
      subfunctions (sideOf (less signed (p :: ps) sofar) p.1 true) =
        subfunctions (decided signed p ps) := by
  have hsub : subfunctions (less signed ps sofar) ⊆ subfunctions (decided signed p ps) := by
    rw [subfunctions_eq_insert (h.2.2.from_decided signed) (Nat.zero_lt_of_lt h.2.1),
      h.sides_decided]
    exact (less_mem_remaining signed ps sofar).trans (Set.subset_insert _ _)
  rw [h.sideOf_less, h.sideOf_less, verdict_true]
  -- the second digit decides on exactly one side
  by_cases hfalse : verdict signed ps false = sofar
  · rw [if_pos hfalse, if_neg fun htrue => Bool.not_ne_self _ (htrue.trans hfalse.symm)]
    exact Set.union_eq_left.2 hsub
  · rw [if_neg hfalse, if_pos (Bool.not_eq.2 hfalse)]
    exact Set.union_eq_right.2 hsub

theorem Alternate.encard_decided (h : Alternate v (p :: ps)) (signed : Bool) :
    (subfunctions (decided signed p ps)).encard = (remaining signed ps).encard + 1 := by
  rw [(h.2.2.from_decided signed).encard_subfunctions (Nat.zero_lt_of_lt h.2.1)
    (h.not_from_decided signed), h.sides_decided]

theorem Alternate.subfunctions_less (h : Alternate v (p :: ps)) (hv : 0 < v)
    (signed sofar : Bool) : subfunctions (less signed (p :: ps) sofar) =
      insert (polarities (less signed (p :: ps) sofar)) (subfunctions (decided signed p ps)) := by
  rw [subfunctions_eq_insert (h.tight.from_less signed sofar) (Nat.lt_of_lt_of_le hv h.1),
    h.sides_less]

theorem Alternate.less_not_mem (h : Alternate v (p :: ps)) (signed sofar : Bool) :
    polarities (less signed (p :: ps) sofar) ∉ subfunctions (decided signed p ps) :=
  ((h.2.2.from_decided signed).mono h.2.1).not_mem (h.not_from_less signed sofar)

/-- The verdict so far matters where all digits are the same, and does not where they differ. -/
theorem Alternate.polarities_less_ne (h : Alternate v (p :: ps)) (signed : Bool) :
    polarities (less signed (p :: ps) false) ≠ polarities (less signed (p :: ps) true) := by
  intro heq
  rcases polarities_eq_iff.1 heq with heq | heq
  · have hsame := congrFun heq (probe p false false)
    rw [h.less_probe, h.less_probe] at hsame
    cases hsame
  · have hdiffer := congrFun heq (probe p true false)
    rw [h.less_probe, h.less_probe] at hdiffer
    exact Bool.not_ne_self _ hdiffer.symm

/-- Every pair adds three functions: one for each verdict so far, and one for the second digit. -/
theorem Alternate.encard_remaining (h : Alternate v ps) (hv : 0 < v) (signed : Bool) :
    (remaining signed ps).encard = (3 * ps.length + 1 : Nat) := by
  induction ps generalizing v with
  | nil =>
    show (subfunctions (fun _ => false) ∪ subfunctions fun _ => true).encard = _
    rw [subfunctions_const, subfunctions_const, Set.union_self, Set.encard_singleton]
    rfl
  | cons p ps ih =>
    have hne : polarities (less signed (p :: ps) false) ∉
        insert (polarities (less signed (p :: ps) true)) (subfunctions (decided signed p ps)) := by
      rintro (heq | hmem)
      · exact h.polarities_less_ne signed heq
      · exact h.less_not_mem signed false hmem
    unfold remaining
    rw [h.subfunctions_less hv, h.subfunctions_less hv, Set.insert_union, Set.union_insert,
      Set.union_self, Set.encard_insert_of_notMem hne,
      Set.encard_insert_of_notMem (h.less_not_mem signed true), h.encard_decided,
      ih h.2.2 (Nat.succ_pos _)]
    norm_cast

/-- **The order of interleaved digits** has three subfunctions for every pair. -/
theorem Alternate.encard_subfunctions_less (h : Alternate v (p :: ps)) (hv : 0 < v)
    (signed sofar : Bool) :
    (subfunctions (less signed (p :: ps) sofar)).encard = (3 * (ps.length + 1) : Nat) := by
  rw [h.subfunctions_less hv, Set.encard_insert_of_notMem (h.less_not_mem signed sofar),
    h.encard_decided, h.2.2.encard_remaining (Nat.succ_pos _)]
  norm_cast

end Stimulus.Diagram

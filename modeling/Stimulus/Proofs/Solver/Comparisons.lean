import Stimulus.Proofs.Expr.Comparison
import Stimulus.Proofs.Runs.Arithmetic
import Stimulus.Proofs.Solver.Stores

/-!
# Comparisons of terms

A comparison of two terms of a solver decides a relation of two integers, whatever the widths and
the flags of the terms (`Solver.comparisons_exact`). Where both flags are the same, the integers
are those that the terms stand for; where only one term is signed, they are taken modulo two to the
larger width. Of two terms exactly one of less, equal and greater holds, and the other comparisons
are the very complements of these, edge by edge.

The solver may be in any state that its requests reach, as its store is then one that a run reaches
(`Solver.Run.reached`).
-/

set_option autoImplicit false

namespace Stimulus

open Diagram Store Quantity TwosComplement Operator

/-! ## Comparisons on a store -/

namespace Diagram.Store

variable {s : Store} {a b : BitVector} {P Q : Assignment → Quantity} {op : Operator}

/-- A comparison gives the edge of the relation of the two integers. -/
theorem Valid.gives_comparison (hs : s.Valid) (ha : s.Means a P) (hb : s.Means b Q)
    (hop : op.isComparison = true) : s.Gives (BitVector.apply op a b) fun r t =>
      ∃ f, r = .ofBit f ∧
        t.Denotes f fun ρ => op.relates ((P ρ).against (Q ρ)) ((Q ρ).against (P ρ)) :=
  (hs.gives_apply ha hb op).mono fun _ _ _ _ hr =>
    (hr.congr fun ρ => apply_comparison hop (ha.inRange ρ) (hb.inRange ρ)).exists_bit

end Diagram.Store

/-! ## Comparisons of a solver -/

namespace Solver

variable {s : Solver} {a b : BitVector} {P Q : Assignment → Quantity} {op op' : Operator}
  {φ : Assignment → Bool} {ρ : Assignment}

/-- The computation ends with an unsigned term of one bit, on a store that a run reaches and that
keeps the edges of the present one. The bit is true exactly where `φ` is. -/
def Decides (s : Solver) (x : Solving BitVector) (φ : Assignment → Bool) : Prop :=
  ∃ f store, x s = .ok (.ofBit f, { s with store := store }) ∧ store.Reached ∧
    s.store.Keeps store ∧ store.Has f ∧ ∀ ρ, store.evaluate f ρ = .ok (φ ρ)

/-- The comparison of two terms is true under an assignment. -/
def Holds (s : Solver) (op : Operator) (a b : BitVector) (ρ : Assignment) : Prop :=
  ∃ f s', apply op a b s = .ok (.ofBit f, s') ∧ s'.store.evaluate f ρ = .ok true

theorem Decides.holds_iff (h : s.Decides (apply op a b) φ) : s.Holds op a b ρ ↔ φ ρ = true := by
  obtain ⟨f, store, hr, -, -, -, hf⟩ := h
  constructor
  · rintro ⟨g, s', hr', hg⟩
    rw [hr] at hr'
    cases hr'
    exact Except.ok.inj ((hf ρ).symm.trans hg)
  · intro hφ
    exact ⟨f, _, hr, (hf ρ).trans (congrArg Except.ok hφ)⟩

theorem decides_comparison (hs : s.store.Reached) (ha : s.store.Means a P) (hb : s.store.Means b Q)
    (hop : op.isComparison = true) : (s.Decides (apply op a b) fun ρ =>
      op.relates ((P ρ).against (Q ρ)) ((Q ρ).against (P ρ))) ∨ Outgrows s (apply op a b) := by
  obtain ⟨r, store, hyields, -, hst, f, rfl, hf⟩ := hs.valid.gives_comparison ha hb hop
  refine (yields_build hyields).run_or_outgrows.imp_left fun hr => ?_
  exact ⟨f, store, hr.1, hs.of_apply ha.carries hb.carries (hyields.run_of_bounded hr.2),
    hs.keeps_of_growsTo hst, hf.has, hf.evaluate⟩

/-- Exactly one of three comparisons is true under an assignment. -/
theorem existsUnique_holds (hs : s.store.Reached) (ha : s.store.Means a P)
    (hb : s.store.Means b Q) (ρ : Assignment) :
    (∃! op, op ∈ [lt, eq, gt] ∧ s.Holds op a b ρ) ∨
      ∃ op ∈ [lt, eq, gt], Outgrows s (apply op a b) := by
  refine or_iff_not_imp_right.2 fun hfits => ?_
  refine (existsUnique_congr fun op => and_congr_right fun hmem => ?_).2
    (existsUnique_relates ((P ρ).against (Q ρ)) ((Q ρ).against (P ρ)))
  have hop : op.isComparison = true := by
    simp only [List.mem_cons, List.not_mem_nil, or_false] at hmem
    rcases hmem with rfl | rfl | rfl <;> rfl
  have hdecides := (decides_comparison hs ha hb hop).resolve_right fun hout =>
    hfits ⟨op, hmem, hout⟩
  exact hdecides.holds_iff

/-- A comparison is the complement of its opposite, by the way in which both are computed. -/
theorem exists_opposite (h : op.opposite? = some op') (a b : BitVector) :
    ∃ x : Build Edge, Composed x ∧ BitVector.apply op' a b = (do return .ofBit (← x)) ∧
      BitVector.apply op a b = do return .ofBit (-(← x)) := by
  have hlessEq : ∀ (signed : Bool) (a b : BitVector), BitVector.lessEq signed a b =
      do return -(← BitVector.less signed b a) := fun signed _ _ => by cases signed <;> rfl
  unfold opposite? at h
  split at h
  · cases h
    exact ⟨_, BitVector.composed_eq _ _, rfl, rfl⟩
  · cases h
    refine ⟨_, BitVector.composed_less _ _ _, rfl, ?_⟩
    unfold BitVector.apply BitVector.applyAligned
    simp only [hlessEq, bind_assoc, pure_bind]
  · cases h
    refine ⟨_, BitVector.composed_less _ _ _, rfl, ?_⟩
    unfold BitVector.apply BitVector.applyAligned
    simp only [hlessEq, bind_assoc, pure_bind]
  · cases h

/-- A comparison and its opposite are complements: after one of them the other one gives the same
edge in the other polarity. -/
theorem opposite_comparison (hs : s.store.Reached) (ha : s.store.Means a P)
    (hb : s.store.Means b Q) (h : op.opposite? = some op') :
    (∃ f s' s'', apply op' a b s = .ok (.ofBit f, s') ∧
      apply op a b s' = .ok (.ofBit (-f), s'') ∧
      Solver.not (.ofBit f) s' = .ok (.ofBit (-f), s')) ∨ Outgrows s (apply op' a b) := by
  obtain ⟨x, hx, hopposite, hself⟩ := exists_opposite h a b
  obtain ⟨-, hop'⟩ := op.isComparison_of_opposite? h
  rcases decides_comparison hs ha hb hop' with ⟨f, store, hr, -⟩ | hout
  · have hrun : BitVector.apply op' a b s.store = .ok (.ofBit f, store) := run_of_build hr
    rw [hopposite] at hrun
    obtain ⟨f', t, hx', hlast⟩ := exists_of_bind hrun
    cases hlast
    -- the parts of the comparison are stored by now
    have hrepeats := hx.repeats hs.valid hs.growsTo hx'
    obtain ⟨u, hagain, -⟩ := hrepeats.later store hrepeats.valid (GrowsTo.refl store)
    have hrun' : BitVector.apply op a b store = .ok (.ofBit (-f), u) := by
      rw [hself]
      exact bind_of_ok hagain
    exact Or.inl ⟨f, _, _, hr, Solver.build_ok (s := { s with store := store }) hrun', rfl⟩
  · exact Or.inr hout

/-- **Comparisons are exact across widths and signs.** Two terms of any types read as numbers that
stand for two integers: those of their own types where both terms are signed or both are not, and
otherwise these modulo two to the larger width. Every comparison gives an unsigned bit that is true
where its relation holds between the two integers. So exactly one of less, equal and greater is true
under each assignment, and the other comparisons are the complements of these. All this holds of
comparisons that do not outgrow the storage. -/
theorem comparisons_exact (hs : s.store.Reached) (ha : s.store.Carries a)
    (hb : s.store.Carries b) :
    ∃ (A B : Assignment → Nat) (I J : Assignment → Int),
      s.store.ReadsAs a A ∧ s.store.ReadsAs b B ∧
      (a.signed = b.signed → ∀ ρ,
        I ρ = decode (A ρ) a.width a.signed ∧ J ρ = decode (B ρ) b.width b.signed) ∧
      (a.signed ≠ b.signed → ∀ ρ,
        I ρ = decode (A ρ) a.width a.signed % (2 ^ max a.width b.width : Nat) ∧
        J ρ = decode (B ρ) b.width b.signed % (2 ^ max a.width b.width : Nat)) ∧
      (∀ op : Operator, op.isComparison = true →
        (s.Decides (apply op a b) fun ρ => op.relates (I ρ) (J ρ)) ∨ Outgrows s (apply op a b)) ∧
      (∀ ρ, (∃! op, op ∈ [Operator.lt, .eq, .gt] ∧ s.Holds op a b ρ) ∨
        ∃ op ∈ [Operator.lt, .eq, .gt], Outgrows s (apply op a b)) ∧
      ∀ op op' : Operator, op.opposite? = some op' →
        (∃ f s' s'', apply op' a b s = .ok (.ofBit f, s') ∧
          apply op a b s' = .ok (.ofBit (-f), s'') ∧
          Solver.not (.ofBit f) s' = .ok (.ofBit (-f), s')) ∨ Outgrows s (apply op' a b) := by
  have hreduced := hs.valid.reduced
  obtain ⟨n, A, hn, hA⟩ := ha.spells hreduced
  obtain ⟨m, B, hm, hB⟩ := hb.spells hreduced
  have hP := hA.means (Nat.succ_pos n)
  have hQ := hB.means (Nat.succ_pos m)
  rw [hn, hm]
  refine ⟨A, B, _, _, hA.valueOf, hB.valueOf, fun hsame ρ => ?_, fun hmixed ρ => ?_,
    fun op => decides_comparison hs hP hQ, existsUnique_holds hs hP hQ,
    fun op op' => opposite_comparison hs hP hQ⟩
  · exact ⟨against_of_signed_eq hsame, against_of_signed_eq hsame.symm⟩
  · refine ⟨against_of_signed_ne hmixed, ?_⟩
    rw [Nat.max_comm]
    exact against_of_signed_ne hmixed.symm

/-- A signed bit, which is zero or minus one. -/
def signBit : BitVector := ⟨[.ofIndex 2], true⟩

/-- The number five in three unsigned bits. -/
def five : BitVector := ⟨[.one, .zero, .one], false⟩

/-- Zero is less than five, and minus one is not, since it counts as seven in three bits. -/
theorem signBit_comparisons_exact :
    ∃ f s', apply .lt signBit five oneVariable = .ok (.ofBit f, s') ∧
      s'.store.evaluate f (fun _ => false) = .ok true ∧
      s'.store.evaluate f (fun _ => true) = .ok false := by
  have ha : oneVariable.store.Carries signBit :=
    ⟨by decide, List.forall_mem_singleton.2 ⟨by decide, by decide⟩⟩
  have hb : oneVariable.store.Carries five :=
    ⟨by decide, List.forall_mem_cons.2 ⟨⟨by decide, by decide⟩,
      List.forall_mem_cons.2 ⟨⟨by decide, by decide⟩,
        List.forall_mem_singleton.2 ⟨by decide, by decide⟩⟩⟩⟩
  obtain ⟨A, B, I, J, hA, hB, -, hmixed, hdecides, -⟩ :=
    comparisons_exact run_oneVariable.reached.1 ha hb
  have hzero : 0 = A fun _ => false := Except.ok.inj (hA fun _ => false)
  have hone : 1 = A fun _ => true := Except.ok.inj (hA fun _ => true)
  have hfive : ∀ ρ, 5 = B ρ := fun ρ => Except.ok.inj (hB ρ)
  have hI := fun ρ => (hmixed (by decide) ρ).1
  have hJ := fun ρ => (hmixed (by decide) ρ).2
  obtain ⟨f, store, hr, -, -, -, hf⟩ | hout := hdecides .lt rfl
  swap
  · exact absurd hout (not_outgrows_of_isOk (by decide +kernel))
  refine ⟨f, _, hr, ?_, ?_⟩
  · simp only [hf, hI, hJ, ← hzero, ← hfive]
    rfl
  · simp only [hf, hI, hJ, ← hone, ← hfive]
    rfl

end Solver

end Stimulus

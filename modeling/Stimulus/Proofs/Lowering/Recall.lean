import Stimulus.Proofs.BitVector.Recall
import Stimulus.Proofs.Lowering.Reached

/-!
# Lowering again

A lowering remembers what was lowered before. Once an expression has a term, every
later lowering gives it the very same term, without a new node, variable or field
(`Lowering.repeats_lower`): the parts of every operation are stored by then
(`Store.Recalls`), and fields keep their terms. So whether an expression that was
lowered lowers again is no question of storage.
-/

set_option autoImplicit false

namespace Stimulus.Lowering

open Diagram Store

variable {ws : Workspace} {l l' z : Lowering}

/-! ## Steps that are recalled -/

/-- On every later lowering the step has this result, without a new node, variable or field. -/
def Recalls {α : Type} (ws : Workspace) (l : Lowering) (x : Lower α) (a : α) : Prop :=
  ∀ z, z.Valid ws → l.GrowsTo ws z → ∃ store,
    x.run.run z = .ok (.ok a, ⟨{ z.solver with store := store }, z.table⟩) ∧ store.Valid ∧
      z.solver.store.SameNodes store

/-- Where the step succeeds, the lowering stays sound, and the step is recalled from then on. -/
def Repeats {α : Type} (ws : Workspace) (l : Lowering) (x : Lower α) : Prop :=
  ∀ a l', x.run.run l = .ok (.ok a, l') → Sound ws l' ∧ l.GrowsTo ws l' ∧ Recalls ws l' x a

section Repeats

variable {α β : Type} {x : Lower α} {k : α → Lower β} {a : α} {b : β}

theorem recalls_pure (ws : Workspace) (l : Lowering) (a : α) : Recalls ws l (pure a) a :=
  fun z hz _ => ⟨z.solver.store, rfl, hz.store, .refl _⟩

theorem Recalls.bind (hx : Recalls ws l x a) (hk : Recalls ws l (k a) b) :
    Recalls ws l (x >>= k) b := by
  intro z hz hlz
  obtain ⟨store, hr, hs, hsame⟩ := hx z hz hlz
  obtain ⟨hz₁, hg⟩ := hz.with_store hs hsame.growsTo
  obtain ⟨store', hr', hs', hsame'⟩ := hk _ hz₁ (hlz.trans hg)
  exact ⟨store', (run_bind hr).trans hr', hs', hsame.trans hsame'⟩

theorem Recalls.grow (hx : Recalls ws l x a) (hg : l.GrowsTo ws l') : Recalls ws l' x a :=
  fun z hz hlz => hx z hz (hg.trans hlz)

theorem Sound.repeats_pure (h : Sound ws l) (a : α) : Repeats ws l (pure a) := by
  intro b l' hr
  cases hr
  exact ⟨h, GrowsTo.refl ws l, recalls_pure ws l a⟩

theorem repeats_throw (e : Error) : Repeats ws l (throw e : Lower α) := fun _ _ hr => nomatch hr

theorem Sound.repeats_check (h : Sound ws l) (y : Except Error α) : Repeats ws l (liftM y) := by
  cases y with
  | error e => exact repeats_throw e
  | ok a => exact h.repeats_pure a

theorem Repeats.bind (hx : Repeats ws l x)
    (hk : ∀ a l', Sound ws l' → Repeats ws l' (k a)) : Repeats ws l (x >>= k) := by
  intro b l'' hr
  obtain ⟨a, l', hr₁, hr₂⟩ := exists_of_run_bind hr
  obtain ⟨h', hg, hfirst⟩ := hx a l' hr₁
  obtain ⟨h'', hg', hrest⟩ := hk a l' h' b l'' hr₂
  exact ⟨h'', hg.trans hg', (hfirst.grow hg').bind hrest⟩

/-- A computation on the store. -/
theorem Sound.repeats_build (h : Sound ws l) {y : Build α} (hy : Composed y) :
    Repeats ws l (solving (Solver.build y)) := by
  intro a l' hr
  obtain ⟨a', s, hr, heq, rfl⟩ := run_solving_eq_ok hr
  cases heq
  obtain ⟨store, hstore, rfl⟩ := Solver.exists_of_build hr
  have hrepeats := hy.repeats h.valid.store h.growsTo hstore
  obtain ⟨hl', hg⟩ := h.valid.with_store hrepeats.valid hrepeats.grows
  refine ⟨⟨hl', (hy.heeds.ends h.bounded hstore).2.1, h.growsTo.trans hrepeats.grows⟩, hg, ?_⟩
  intro z hz hlz
  obtain ⟨store, hr', hs, hsame⟩ := hrepeats.recalls _ hz.store hlz.store
  exact ⟨store, run_solving (Solver.build_ok hr'), hs, hsame⟩

theorem Sound.repeats_fieldTerm (h : Sound ws l) (f : Field) : Repeats ws l (fieldTerm ws f) := by
  intro t l' hr
  have hleads := h.valid.leads_fieldTerm f
  refine ⟨h.step (fun hl => hl.leads_fieldTerm f) hr, hleads.growsTo hr, fun z hz hlz => ?_⟩
  obtain ⟨more, hmore, -⟩ := hlz.terms
  -- the term is in the table by now
  have hmem : (f, t) ∈ z.terms.toList := by
    rw [hmore]
    exact List.mem_append_left _ (term?_eq_some (h.valid.term?_of_fieldTerm hr))
  exact ⟨z.solver.store, run_fieldTerm_of_mem hz.indexed hmem ws, hz.store, .refl _⟩

end Repeats

/-! ## Expressions that are lowered again -/

theorem Sound.repeats_or (h : Sound ws l) (a b : BitVector) :
    Repeats ws l (Lowering.or a b) :=
  h.repeats_build ((BitVector.composed_truth a).bind fun f => (BitVector.composed_truth b).bind
    fun g => (composed_disj f g).map _)

theorem Sound.repeats_and (h : Sound ws l) (a b : BitVector) :
    Repeats ws l (Lowering.and a b) :=
  h.repeats_build ((BitVector.composed_truth a).bind fun f => (BitVector.composed_truth b).bind
    fun g => (composed_conj f g).map _)

theorem Sound.repeats_apply (h : Sound ws l) (op : Operator) (a b : BitVector) :
    Repeats ws l (solving (Solver.apply op a b)) :=
  h.repeats_build (BitVector.composed_apply op a b)

theorem Sound.repeats_selectBit (h : Sound ws l) (a index : BitVector) :
    Repeats ws l (selectBit a index) := by
  have hselect : Repeats ws l (solving (Solver.selectBit a index)) :=
    h.repeats_build ((BitVector.composed_select a index).map _)
  unfold selectBit
  cases index.toConstant? with
  | none => exact hselect
  | some n =>
    dsimp only
    split
    · exact repeats_throw _
    · exact hselect

theorem Sound.repeats_selectSlice (h : Sound ws l) (a : BitVector) (high low : Nat) :
    Repeats ws l (selectSlice a high low) := by
  unfold selectSlice
  split
  · exact repeats_throw _
  · exact h.repeats_pure _

theorem Sound.repeats_extend (h : Sound ws l) (sofar : Option BitVector) (t : BitVector) :
    Repeats ws l (extend sofar t) := by
  cases sofar with
  | none => exact h.repeats_pure t
  | some sofar => exact h.repeats_or sofar t

mutual

/-- **An expression that was lowered lowers again to the same term**, without a new node, variable
or field. -/
theorem repeats_lower : ∀ (e : Expr) (l : Lowering), Sound ws l → Repeats ws l (lower ws e)
  | .literal _, _, h => h.repeats_pure _
  | .field f, _, h => h.repeats_fieldTerm f
  | .binary op lhs rhs, l, h =>
    (repeats_lower lhs l h).bind fun a _ h₁ => (repeats_lower rhs _ h₁).bind fun b _ h₂ =>
      h₂.repeats_apply op a b
  | .bit base index, l, h =>
    (repeats_lower base l h).bind fun a _ h₁ => (repeats_lower index _ h₁).bind fun i _ h₂ =>
      h₂.repeats_selectBit a i
  | .slice base high low, l, h =>
    (repeats_lower base l h).bind fun a _ h₁ => (repeats_lower high _ h₁).bind fun _ _ h₂ =>
      (h₂.repeats_check _).bind fun i _ h₃ => (repeats_lower low _ h₃).bind fun _ _ h₄ =>
        (h₄.repeats_check _).bind fun j _ h₅ => h₅.repeats_selectSlice a i j
  | .inside value ranges, l, h =>
    (repeats_lower value l h).bind fun a _ h₁ => repeats_lowerRanges ranges _ a none h₁

theorem repeats_lowerRange : ∀ (r : Range) (l : Lowering) (a : BitVector), Sound ws l →
    Repeats ws l (lowerRange ws a r)
  | .point point, l, a, h => (repeats_lower point l h).bind fun p _ h₁ => h₁.repeats_apply .eq a p
  | .interval low high, l, a, h =>
    (repeats_lower low l h).bind fun b _ h₁ => (repeats_lower high _ h₁).bind fun c _ h₂ =>
      (h₂.repeats_apply .ge a b).bind fun above _ h₃ =>
        (h₃.repeats_apply .le a c).bind fun below _ h₄ => h₄.repeats_and above below

theorem repeats_lowerRanges : ∀ (rs : Ranges) (l : Lowering) (a : BitVector)
    (sofar : Option BitVector), Sound ws l → Repeats ws l (lowerRanges ws a sofar rs)
  | .single range, l, a, sofar, h =>
    (repeats_lowerRange range l a h).bind fun t _ h₁ => h₁.repeats_extend sofar t
  | .cons range rest, l, a, sofar, h =>
    (repeats_lowerRange range l a h).bind fun t _ h₁ => (h₁.repeats_extend sofar t).bind
      fun r _ h₂ => repeats_lowerRanges rest _ a (some r) h₂

end

end Stimulus.Lowering

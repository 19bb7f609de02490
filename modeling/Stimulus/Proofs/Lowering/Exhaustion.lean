import Stimulus.Proofs.Diagram.Size
import Stimulus.Proofs.Expr.Comparison
import Stimulus.Proofs.Lowering.Layouts
import Stimulus.Proofs.Lowering.Membership

/-!
# Terms that the storage is too small for

The comparison of a number over some variables with a number over the variables that come
next has a subfunction for every number (`Diagram.two_pow_le_encard_subfunctions`), as a
diagram has to remember the whole first number while it reads the second one. Fields that
get their variables on demand, one after the other, lie like this. So from 31 bits on no
storage has room for the term that says that they are equal, however it is built
(`Lowering.Reached.run_of_equality`): neither for a comparison of the fields
(`Lowering.Reached.run_equal_of_unmet`) nor for a scope that compares them bit by bit
(`Lowering.Reached.run_bitwise_of_unmet`), which succeeds where the variables are laid out
in another way.
-/

set_option autoImplicit false

namespace Stimulus

open Diagram Store Quantity

namespace Diagram

variable {n w : Nat}

/-- Whether the number over the `w` variables after `n` is the number over the next `w` ones. -/
def equality (n w : Nat) : Assignment → Bool :=
  fun ρ => decide (valueAt ρ (List.range' (n + 1) w) = valueAt ρ (List.range' (n + w + 1) w))

/-- When the variables of the first number are fixed, the second one is compared with a constant. -/
theorem fixed_equality {x : Nat} (hx : x < 2 ^ w) (σ ρ : Assignment) :
    fixed (equality n w) (n + w) (σ.write (List.range' (n + 1) w) x) ρ =
      decide (x = valueAt ρ (List.range' (n + w + 1) w)) := by
  have hread : valueAt ((σ.write (List.range' (n + 1) w) x).upTo (n + w) ρ)
      (List.range' (n + 1) w) = x := by
    refine (valueAt_congr fun v hv => if_pos ?_).trans
      (σ.valueAt_write List.nodup_range' (by rwa [List.length_range']))
    rw [List.mem_range'_1] at hv
    omega
  have hkeep : valueAt ((σ.write (List.range' (n + 1) w) x).upTo (n + w) ρ)
      (List.range' (n + w + 1) w) = valueAt ρ (List.range' (n + w + 1) w) := by
    refine valueAt_congr fun v hv => if_neg ?_
    rw [List.mem_range'_1] at hv
    omega
  show decide (valueAt _ _ = valueAt _ _) = _
  rw [hread, hkeep]

/-- **A comparison of numbers over consecutive variables has a subfunction for every number.** -/
theorem two_pow_le_encard_subfunctions (n : Nat) (hw : 2 ≤ w) :
    ((2 ^ w : Nat) : ℕ∞) ≤ (subfunctions (equality n w)).encard := by
  let start : Assignment := fun _ => false
  -- the second number takes any value
  have htakes : ∀ y < 2 ^ w, valueAt (start.write (List.range' (n + w + 1) w) y)
      (List.range' (n + w + 1) w) = y := fun y hy =>
    start.valueAt_write List.nodup_range' (by rwa [List.length_range'])
  refine le_encard_subfunctions (k := n + w)
    (τ := fun i => start.write (List.range' (n + 1) w) i) fun i j hij => ?_
  rcases polarities_eq_iff.1 hij with hsame | hnot
  · -- the second number may be the first one
    have h := congrFun hsame (start.write (List.range' (n + w + 1) w) i)
    rw [fixed_equality i.isLt, fixed_equality j.isLt, htakes i i.isLt, decide_eq_decide] at h
    exact Fin.ext (h.1 rfl).symm
  · -- or a third number
    obtain ⟨y, hy, hyi, hyj⟩ : ∃ y < 2 ^ w, (i : Nat) ≠ y ∧ (j : Nat) ≠ y := by
      have hfour : 2 ^ 2 ≤ 2 ^ w := Nat.pow_le_pow_right Nat.two_pos hw
      by_cases h0 : (i : Nat) ≠ 0 ∧ (j : Nat) ≠ 0
      · exact ⟨0, by omega, h0⟩
      · by_cases h1 : (i : Nat) ≠ 1 ∧ (j : Nat) ≠ 1
        · exact ⟨1, by omega, h1⟩
        · exact ⟨2, by omega, by omega, by omega⟩
    have h := congrFun hnot (start.write (List.range' (n + w + 1) w) y)
    rw [fixed_equality i.isLt, fixed_equality j.isLt, htakes y hy, decide_eq_false hyi,
      decide_eq_false hyj] at h
    cases h

end Diagram

namespace Lowering

variable {ws : Workspace} {l l' l₁ l₂ : Lowering} {f g : Field} {a b t : BitVector} {w : Nat}
  {κ : (Field → Quantity) → Bool}

/-- A field that was not met takes the variables that come next. -/
theorem Valid.laid_of_fieldTerm (hl : l.Valid ws) (hf : f ∉ l.fields)
    (hr : (fieldTerm ws f).run.run l = .ok (.ok t, l')) :
    (f, t) ∈ l'.terms.toList ∧
      Laid ws l'.solver.store (f, t) (List.range' (l.solver.numVars + 1) (ws.slot f).width) ∧
      l'.solver.numVars = l.solver.numVars + (ws.slot f).width := by
  have hl' := (hl.leads_fieldTerm f).valid hr
  have hmem := term?_eq_some (hl.term?_of_fieldTerm hr)
  refine ⟨hmem, ?_⟩
  rcases run_fieldTerm_cases hl.indexed hr with
    ⟨u, hmet, -, -⟩ | ⟨-, u, solver, hfresh, hu, rfl⟩ | ⟨-, -, hu, -⟩
  · exact absurd (List.mem_map_of_mem (term?_eq_some hmet)) hf
  · cases hu
    obtain ⟨vars, hvars⟩ := hl'.laid_of_mem hmem
    obtain ⟨store, rfl, -, -, -, ht⟩ := (hl.solver.allocates_freshVariable
      (ws.slot f).width_pos (not_wide ws f)).of_run hfresh
    exact ⟨⟨hvars.bound, ht.1, ht.2.1, ht.2.2⟩, rfl⟩
  · cases hu

/-- Two fields have their terms over `w` variables each, those of the second one right after those
of the first one. -/
def Consecutive (ws : Workspace) (l : Lowering) (f g : Field) (w : Nat) : Prop :=
  ∃ n a b, (f, a) ∈ l.terms.toList ∧ (g, b) ∈ l.terms.toList ∧
    Laid ws l.solver.store (f, a) (List.range' (n + 1) w) ∧
    Laid ws l.solver.store (g, b) (List.range' (n + w + 1) w)

theorem Consecutive.grow (h : Consecutive ws l f g w) (hl : l.Valid ws) (hg : l.GrowsTo ws l') :
    Consecutive ws l' f g w := by
  obtain ⟨n, a, b, hmema, hmemb, hlaida, hlaidb⟩ := h
  exact ⟨n, a, b, hg.keeps_terms.subset hmema, hg.keeps_terms.subset hmemb,
    hlaida.grow hl.store.reduced hg.store, hlaidb.grow hl.store.reduced hg.store⟩

/-- Fields that get their terms one after the other lie one after the other. -/
theorem Valid.consecutive_of_fieldTerm (hl : l.Valid ws) (hfg : f ≠ g) (hf : f ∉ l.fields)
    (hg : g ∉ l.fields) (hwidthf : (ws.slot f).width = w) (hwidthg : (ws.slot g).width = w)
    (hra : (fieldTerm ws f).run.run l = .ok (.ok a, l₁))
    (hrb : (fieldTerm ws g).run.run l₁ = .ok (.ok b, l₂)) : Consecutive ws l₂ f g w := by
  obtain ⟨hl₁, -, hfields, -⟩ := (hl.leads_fieldTerm f).of_run hra
  have hg₂ := (hl₁.leads_fieldTerm g).growsTo hrb
  have hunmet : g ∉ l₁.fields := by
    rw [hfields, Field.collect_cons_of_not_mem hf, Field.collect_nil, List.mem_append,
      List.mem_singleton]
    exact not_or_intro hg hfg.symm
  obtain ⟨hmema, hlaida, hnum⟩ := hl.laid_of_fieldTerm hf hra
  obtain ⟨hmemb, hlaidb, -⟩ := hl₁.laid_of_fieldTerm hunmet hrb
  rw [hwidthf] at hlaida hnum
  rw [hwidthg, hnum] at hlaidb
  exact ⟨l.solver.numVars, a, b, hg₂.keeps_terms.subset hmema, hmemb,
    hlaida.grow hl₁.store.reduced hg₂.store, hlaidb⟩

/-- A term that is true where two consecutive fields are equal takes a node for every value of the
fields. -/
theorem Valid.two_pow_le_size (hl : l.Valid ws) (h : Consecutive ws l f g w) (hw : 2 ≤ w)
    (hκ : ∀ raw, ws.Fits raw → κ (ws.quantity raw) = decide (raw f = raw g))
    (ht : l.Means ws t fun fields => flag (κ fields)) : 2 ^ w ≤ l.solver.store.nodes.size := by
  obtain ⟨n, a, b, hmema, hmemb, hlaida, hlaidb⟩ := h
  obtain ⟨e, -, he⟩ := ht.denotes_bit hl
  have hequal : ∀ ρ, κ (ws.quantity (reading ws l ρ)) = equality n w ρ := fun ρ => by
    rw [hκ _ (hl.reading_lt ρ), hl.reading_of_laid hmema hlaida, hl.reading_of_laid hmemb hlaidb]
    rfl
  have he : l.solver.store.Denotes e (equality n w) := he.congr hequal
  have hsize := (two_pow_le_encard_subfunctions n hw).trans
    (hl.store.reduced.ordered.encard_subfunctions_le_size he.has he.evaluate)
  exact Nat.cast_le.1 hsize

/-- **No term says that two wide fields are equal that lie one after the other**: from 31 bits on,
the storage is full before. -/
theorem Reached.run_of_equality {x : Lower BitVector} {fs : List Field} {γ : Type} {verdict : γ}
    (h : Reached ws l) (hfields : Consecutive ws l f g w) (hwide : 31 ≤ w)
    (hx : Leads ws l x fs fun t l' => l'.Means ws t fun fields => flag (κ fields))
    (hκ : ∀ raw, ws.Fits raw → κ (ws.quantity raw) = decide (raw f = raw g))
    (hjudged : Judged l x (.ok verdict : Except Error γ)) :
    x.run.run l = .error .storageExhausted := by
  rcases hx.run_or_exceeds h.sound.bounded with ⟨r, l', hr⟩ | hout
  · exfalso
    obtain ⟨hl', hg, hsame, hmeans⟩ := hx.of_end hr
    cases r with
    | error e => cases hjudged.of_run_error hr
    | ok t =>
      obtain ⟨-, ht⟩ := hmeans t rfl
      have hsize : 2 ^ w ≤ l'.solver.store.nodes.size :=
        hl'.two_pow_le_size (hfields.grow h.valid hg) (Nat.le_trans (by decide) hwide) hκ ht
      -- these are more nodes than there are indexes
      have hle := hl'.store.size_le (hsame.trans h.sound.bounded)
      have hpow : 2 ^ 31 ≤ 2 ^ w := Nat.pow_le_pow_right Nat.two_pos hwide
      unfold maxNodes at hle
      omega
  · exact hout.1

/-! ## Wide fields that are equal -/

/-- A bound field has a term, unless the storage is full. -/
theorem Reached.run_fieldTerm (h : Reached ws l) (hbound : (ws.slot f).isBound = true) :
    (∃ t l', (Lowering.fieldTerm ws f).run.run l = .ok (.ok t, l')) ∨
      (Lowering.fieldTerm ws f).run.run l = .error .storageExhausted := by
  rcases (h.valid.leads_fieldTerm f).run_or_exceeds h.sound.bounded with ⟨r, l', hr⟩ | hout
  · cases r with
    | ok t => exact Or.inl ⟨t, l', hr⟩
    | error e =>
      have hshape := (h.valid.judged_fieldTerm f).of_run_error hr
      rw [Expr.shape, if_pos hbound] at hshape
      cases hshape
  · exact Or.inr hout.1

/-- **The equality of two wide fields that were not met has no verdict.** -/
theorem Reached.run_equal_of_unmet (h : Reached ws l) (hfg : f ≠ g) (hf : f ∉ l.fields)
    (hg : g ∉ l.fields) (hboundf : (ws.slot f).isBound = true)
    (hboundg : (ws.slot g).isBound = true) (hwidth : (ws.slot g).width = (ws.slot f).width)
    (hwide : 31 ≤ (ws.slot f).width) :
    (Lowering.lower ws (.binary .eq (.field f) (.field g))).run.run l =
      .error .storageExhausted := by
  rw [Lowering.lower, Lowering.lower, Lowering.lower]
  rcases h.run_fieldTerm hboundf with ⟨a, l₁, hra⟩ | hfull
  · rw [run_bind hra]
    have h₁ : Reached ws l₁ := h.fieldTerm hra
    rcases h₁.run_fieldTerm hboundg with ⟨b, l₂, hrb⟩ | hfull
    · rw [run_bind hrb]
      have hl₂ := (h₁.fieldTerm hrb).valid
      obtain ⟨hl₁, -, -, ha⟩ := (h.valid.leads_fieldTerm f).of_run hra
      obtain ⟨-, hg₂, -, hb⟩ := (hl₁.leads_fieldTerm g).of_run hrb
      have hequal := hl₂.succeeds_apply (ha.grow hl₁ hg₂) hb .eq
      have hleads : Leads ws l₂ (solving (Solver.apply .eq a b)) [] fun t l' =>
          l'.Means ws t fun fields => flag (apply .eq (fields f) (fields g)).holds :=
        (hequal.mono fun _ _ _ _ ht => ht.congr fun _ => congrArg flag (holds_flag _).symm).leads
      have hfields := h.valid.consecutive_of_fieldTerm hfg hf hg rfl hwidth hra hrb
      refine (h₁.fieldTerm hrb).run_of_equality hfields hwide hleads (fun raw hraw => ?_)
        (hequal.judged ())
      have hin (f : Field) : (ws.quantity raw f).InRange := ⟨(ws.slot f).width_pos, hraw f⟩
      rw [(hin f).apply_eq (hin g) hwidth.symm, holds_flag]
      rfl
    · exact run_bind_fault hfull
  · exact run_bind_fault hfull

/-- The bit of a field at a position. -/
def bitOf (f : Field) (i : Fin 64) : Expr :=
  let position : Expr := .literal ⟨i, 6, false, by decide, by decide, i.isLt⟩
  .slice (.field f) position position

/-- The first `w` bits of two fields are equal, from the last one down. -/
def bitwise (f g : Field) (w : Nat) (hw : w ≤ 64) : Scope :=
  ⟨(List.finRange w).reverse.map fun i =>
    .binary .eq (bitOf f (i.castLE hw)) (bitOf g (i.castLE hw))⟩

theorem holds_bitOf (raw : Field → Nat) (i : Fin 64) :
    (Expr.binary .eq (bitOf f i) (bitOf g i)).holds (ws.quantity raw) =
      decide ((raw f).testBit i = (raw g).testBit i) := by
  have hin (h : Field) : ((bitOf h i).meaning (ws.quantity raw)).InRange :=
    ⟨Nat.succ_pos _, Nat.mod_lt _ (Nat.two_pow_pos _)⟩
  have hraw (h : Field) : ((bitOf h i).meaning (ws.quantity raw)).raw = raw h / 2 ^ i.val % 2 := by
    show raw h / 2 ^ i.val % 2 ^ (i.val - i.val + 1) = _
    rw [Nat.sub_self, Nat.zero_add, Nat.pow_one]
  rw [Expr.holds, Expr.meaning, (hin f).apply_eq (hin g) rfl, holds_flag, hraw, hraw,
    Nat.testBit_eq_decide_div_mod_eq, Nat.testBit_eq_decide_div_mod_eq, decide_eq_decide,
    decide_eq_decide]
  omega

/-- Numbers are equal if their bits are. -/
theorem holds_bitwise {w : Nat} (hw : w ≤ 64) {raw : Field → Nat} (hf : raw f < 2 ^ w)
    (hg : raw g < 2 ^ w) :
    (bitwise f g w hw).holds (ws.quantity raw) = decide (raw f = raw g) := by
  rw [Bool.eq_iff_iff, Scope.holds, List.all_eq_true, decide_eq_true_iff]
  constructor
  · intro h
    refine Nat.eq_of_testBit_eq fun i => ?_
    by_cases hi : i < w
    · have hbit := h _ (List.mem_map_of_mem (List.mem_reverse.2 (List.mem_finRange ⟨i, hi⟩)))
      rw [holds_bitOf, decide_eq_true_iff] at hbit
      exact hbit
    · have hle : 2 ^ w ≤ 2 ^ i := Nat.pow_le_pow_right Nat.two_pos (Nat.le_of_not_lt hi)
      rw [Nat.testBit_lt_two_pow (Nat.lt_of_lt_of_le hf hle),
        Nat.testBit_lt_two_pow (Nat.lt_of_lt_of_le hg hle)]
  · intro heq e he
    obtain ⟨i, -, rfl⟩ := List.mem_map.1 he
    rw [holds_bitOf, heq, decide_eq_true_iff]

/-- **The variables of two wide fields decide whether their equality has a term.** If it has one for
some variables, it has none when the fields get their variables one after the other. -/
theorem Reached.run_bitwise_of_unmet {l₀ : Lowering} (h : Reached ws l) (hfg : f ≠ g)
    (hf : f ∉ l.fields) (hg : g ∉ l.fields) (hwidthf : (ws.slot f).width = w)
    (hwidthg : (ws.slot g).width = w)
    (hra : (Lowering.fieldTerm ws f).run.run l = .ok (.ok a, l₁))
    (hrb : (Lowering.fieldTerm ws g).run.run l₁ = .ok (.ok b, l₂)) (hwide : 31 ≤ w) (hw : w ≤ 64)
    (h₀ : Reached ws l₀)
    (hrun : (lowerScope ws (bitwise f g w hw)).run.run l₀ = .ok (.ok t, l')) :
    (lowerScope ws (bitwise f g w hw)).run.run l₂ = .error .storageExhausted := by
  -- whether the constraints have errors does not depend on the variables
  obtain ⟨u, hu⟩ := (h₀.valid.judged_lowerScope _).exists_of_run hrun
  have h₂ : Reached ws l₂ := (h.fieldTerm hra).fieldTerm hrb
  have hfields := h.valid.consecutive_of_fieldTerm hfg hf hg hwidthf hwidthg hra hrb
  exact h₂.run_of_equality hfields hwide (h₂.valid.leads_lowerScope (bitwise f g w hw))
    (fun raw hraw => holds_bitwise hw (hwidthf ▸ hraw f) (hwidthg ▸ hraw g))
    (hu ▸ h₂.valid.judged_lowerScope (bitwise f g w hw))

/-- A workspace with two random fields of 31 bits. -/
def wideFields : Workspace :=
  ⟨#[⟨.scalar 31 false, true, 0, some ⟨0, "a"⟩, by decide, by decide, by decide⟩,
    ⟨.scalar 31 false, true, 0, some ⟨1, "b"⟩, by decide, by decide, by decide⟩], 0⟩

/-- Lowering their equality ends in a fault. -/
theorem wideFields_without_verdict :
    (Lowering.lower wideFields (.binary .eq (.field ⟨0⟩) (.field ⟨1⟩))).run.run
      (start (.ofSeed 0 .interleaved)) = .error .storageExhausted :=
  Reached.new.run_equal_of_unmet (by decide) List.not_mem_nil List.not_mem_nil rfl rfl rfl
    (by decide)

/-- A step that ends without an error succeeds. -/
theorem exists_of_isOk {α : Type} {x : Lower α}
    (h : ((x.run.run l).map fun p => p.1.isOk) = .ok true) :
    ∃ a l', x.run.run l = .ok (.ok a, l') := by
  cases hx : x.run.run l with
  | error fault =>
    rw [hx] at h
    cases h
  | ok p =>
    obtain ⟨r, l'⟩ := p
    cases r with
    | ok a => exact ⟨a, l', rfl⟩
    | error e =>
      rw [hx] at h
      cases Except.ok.inj h

/-- The scope of their equality succeeds if they are declared together, and ends in a fault if they
get their variables on demand. -/
theorem wideFields_layouts_differ : ∃ l₀ t l' a l₁ b l₂,
    (declare wideFields [⟨0⟩, ⟨1⟩]).run.run (start (.ofSeed 0 .interleaved)) =
      .ok (.ok (), l₀) ∧
    (lowerScope wideFields (bitwise ⟨0⟩ ⟨1⟩ 31 (by decide))).run.run l₀ = .ok (.ok t, l') ∧
    (Lowering.lower wideFields (.field ⟨0⟩)).run.run (start (.ofSeed 0 .interleaved)) =
      .ok (.ok a, l₁) ∧
    (Lowering.lower wideFields (.field ⟨1⟩)).run.run l₁ = .ok (.ok b, l₂) ∧
    (lowerScope wideFields (bitwise ⟨0⟩ ⟨1⟩ 31 (by decide))).run.run l₂ =
      .error .storageExhausted := by
  obtain ⟨t, l', hdeclared⟩ := exists_of_isOk (x := declare wideFields [⟨0⟩, ⟨1⟩] >>= fun _ =>
    lowerScope wideFields (bitwise ⟨0⟩ ⟨1⟩ 31 (by decide))) (l := start (.ofSeed 0 .interleaved))
    (by decide +kernel)
  obtain ⟨⟨⟩, l₀, hdeclare, hscope⟩ := exists_of_run_bind hdeclared
  obtain ⟨b, l₂, hfields⟩ := exists_of_isOk (x := Lowering.lower wideFields (.field ⟨0⟩) >>=
    fun _ => Lowering.lower wideFields (.field ⟨1⟩)) (l := start (.ofSeed 0 .interleaved))
    (by decide +kernel)
  obtain ⟨a, l₁, hra, hrb⟩ := exists_of_run_bind hfields
  refine ⟨l₀, t, l', a, l₁, b, l₂, hdeclare, hscope, hra, hrb, ?_⟩
  rw [Lowering.lower] at hra hrb
  exact Reached.new.run_bitwise_of_unmet (f := ⟨0⟩) (g := ⟨1⟩) (w := 31) (by decide)
    List.not_mem_nil List.not_mem_nil rfl rfl hra hrb (Nat.le_refl 31) _
    (Reached.new.declare hdeclare) hscope

end Lowering

end Stimulus

import Stimulus.Proofs.Lowering.Fields

/-!
# Lowering preserves meaning

Every step on terms does to the quantities what the operation says
(`Lowering.Valid.succeeds_apply` and its kin), so by induction on the expression its
term means what the expression means (`Lowering.leads_lower`).
-/

set_option autoImplicit false

namespace Stimulus.Lowering

open Diagram Store Quantity

variable {ws : Workspace} {l l' : Lowering} {a b t : BitVector}
  {α β : (Field → Quantity) → Quantity} {κ : (Field → Quantity) → Bool}

/-! ## Steps on terms -/

/-- A computation on two terms does to the quantities of the fields what it does to those of the
variables. -/
theorem Valid.succeeds_build₂ (hl : l.Valid ws) (ha : l.Means ws a α) (hb : l.Means ws b β)
    (op : Quantity → Quantity → Quantity) {y : Build BitVector}
    (hy : ∀ P Q, l.solver.store.Means a P → l.solver.store.Means b Q →
      l.solver.store.Gives y fun t s => s.Means t fun ρ => op (P ρ) (Q ρ)) :
    Succeeds ws l (solving (Solver.build y)) fun t l' =>
      l'.Means ws t fun fields => op (α fields) (β fields) := by
  obtain ⟨P, hP, hα⟩ := ha
  obtain ⟨Q, hQ, hβ⟩ := hb
  refine hl.succeeds_build (hy P Q hP hQ) fun t l' _ hg ht => ⟨_, ht, fun ρ raw hr => ?_⟩
  -- both operands have been read before the store grew
  have hr' := hr.of_grows hl hg
  rw [hα ρ raw hr', hβ ρ raw hr']

theorem Valid.succeeds_apply (hl : l.Valid ws) (ha : l.Means ws a α) (hb : l.Means ws b β)
    (op : Operator) : Succeeds ws l (solving (Solver.apply op a b)) fun t l' =>
      l'.Means ws t fun fields => apply op (α fields) (β fields) :=
  hl.succeeds_build₂ ha hb (apply op) fun _ _ hP hQ => hl.store.gives_apply hP hQ op

/-- A term counts as true where its quantity does. -/
theorem gives_holds {s : Store} {Q : Assignment → Quantity} (hs : s.Valid) (ha : s.Means a Q) :
    s.Gives a.truth fun e t => t.Denotes e fun ρ => (Q ρ).holds :=
  hs.gives_truth ha.spells

/-- A connective of edges, applied to the truth of two terms. -/
theorem gives_connective {c : Edge → Edge → Build Edge} {op : Bool → Bool → Bool}
    (hc : ∀ (s : Store) (f g : Edge) (φ ψ : Assignment → Bool), s.Valid → s.Denotes f φ →
      s.Denotes g ψ → s.Gives (c f g) fun e t => t.Denotes e fun ρ => op (φ ρ) (ψ ρ))
    {s : Store} {P Q : Assignment → Quantity} (hs : s.Valid) (ha : s.Means a P)
    (hb : s.Means b Q) : s.Gives (do
      let f ← a.truth
      let g ← b.truth
      return BitVector.ofBit (← c f g)) fun t s' =>
        s'.Means t fun ρ => flag (op (P ρ).holds (Q ρ).holds) := by
  refine (gives_holds hs ha).bind fun f s₁ h₁ g₁ hf => ?_
  refine (gives_holds h₁ (hb.grow hs.reduced g₁)).bind fun g s₂ h₂ g₂ hg => ?_
  exact Gives.ofBit (hc s₂ f g _ _ h₂ (hf.grow h₁.reduced g₂) hg)

theorem gives_and {s : Store} {P Q : Assignment → Quantity} (hs : s.Valid) (ha : s.Means a P)
    (hb : s.Means b Q) : s.Gives (do
      let f ← a.truth
      let g ← b.truth
      return BitVector.ofBit (← conj f g)) fun t s' =>
        s'.Means t fun ρ => flag ((P ρ).holds && (Q ρ).holds) :=
  gives_connective (fun _ _ _ _ _ hs hf hg => hs.gives_conj hf hg) hs ha hb

theorem gives_or {s : Store} {P Q : Assignment → Quantity} (hs : s.Valid) (ha : s.Means a P)
    (hb : s.Means b Q) : s.Gives (do
      let f ← a.truth
      let g ← b.truth
      return BitVector.ofBit (← disj f g)) fun t s' =>
        s'.Means t fun ρ => flag ((P ρ).holds || (Q ρ).holds) :=
  gives_connective (fun _ _ _ _ _ hs hf hg => hs.gives_disj hf hg) hs ha hb

theorem Valid.succeeds_and (hl : l.Valid ws) (ha : l.Means ws a α) (hb : l.Means ws b β) :
    Succeeds ws l (Lowering.and a b) fun t l' =>
      l'.Means ws t fun fields => flag ((α fields).holds && (β fields).holds) :=
  hl.succeeds_build₂ ha hb (fun p q => flag (p.holds && q.holds))
    fun _ _ hP hQ => gives_and hl.store hP hQ

theorem Valid.succeeds_or (hl : l.Valid ws) (ha : l.Means ws a α) (hb : l.Means ws b β) :
    Succeeds ws l (Lowering.or a b) fun t l' =>
      l'.Means ws t fun fields => flag ((α fields).holds || (β fields).holds) :=
  hl.succeeds_build₂ ha hb (fun p q => flag (p.holds || q.holds))
    fun _ _ hP hQ => gives_or hl.store hP hQ

theorem Valid.succeeds_selectBit (hl : l.Valid ws) (ha : l.Means ws a α) (hb : l.Means ws b β) :
    Succeeds ws l (solving (Solver.selectBit a b)) fun t l' =>
      l'.Means ws t fun fields => (α fields).bit (β fields) :=
  hl.succeeds_build₂ ha hb Quantity.bit fun _ _ hP hQ =>
    Gives.ofBit (hl.store.gives_select hP.spells hQ.spells)

theorem Valid.leads_selectBit (hl : l.Valid ws) (ha : l.Means ws a α) (hb : l.Means ws b β) :
    Leads ws l (selectBit a b) [] fun t l' =>
      l'.Means ws t fun fields => (α fields).bit (β fields) := by
  have hselect := hl.succeeds_selectBit ha hb
  -- a constant index beyond the width is an error
  unfold selectBit
  split
  · split
    · exact hl.leads_throw _
    · exact hselect.leads
  · exact hselect.leads

/-- A slice of the digits. -/
theorem Means.slice {s : Store} {Q : Assignment → Quantity} (h : s.Means a Q) {high low : Nat}
    (hlow : low ≤ high) (hhigh : high < a.width) :
    s.Means ⟨(a.bits.drop low).take (high - low + 1), false⟩ fun ρ => (Q ρ).slice high low := by
  have hbits := (h.spells.drop (n := low) (by omega)).take (n := high - low + 1) (by omega)
  exact hbits.means (a := ⟨(a.bits.drop low).take (high - low + 1), false⟩) (by omega)

theorem Valid.leads_selectSlice (hl : l.Valid ws) (ha : l.Means ws a α) (high low : Nat) :
    Leads ws l (selectSlice a high low) [] fun t l' =>
      l'.Means ws t fun fields => (α fields).slice high low := by
  unfold selectSlice
  split
  · exact hl.leads_throw _
  · rename_i hrange
    obtain ⟨P, hP, hα⟩ := ha
    refine hl.leads_pure ⟨_, Means.slice hP (by omega) (by omega), fun ρ raw hr => ?_⟩
    rw [hα ρ raw hr]

/-! ## Constant terms -/

/-- Digits that are all constant spell their number. -/
theorem spells_of_constantValue? {s : Store} (hs : s.Reduced) : ∀ {bits : List Edge} {n : Nat},
    BitVector.constantValue? bits = some n → s.Spells bits.length bits fun _ => n := by
  intro bits
  induction bits with
  | nil =>
    intro n h
    cases h
    exact spells_nil s
  | cons f rest ih =>
    intro n h
    unfold BitVector.constantValue? at h
    cases hrest : BitVector.constantValue? rest with
    | none =>
      rw [hrest] at h
      cases h
    | some value =>
      rw [hrest] at h
      have hvalue := ih hrest
      -- the edge is one of the constants, or there would be no number
      by_cases hone : f = .one
      · subst hone
        obtain rfl : 2 * value + 1 = n := Option.some.inj h
        exact ((denotes_one hs).spells_cons hvalue).congr fun _ => Nat.add_comm _ _
      · by_cases hzero : f = .zero
        · subst hzero
          obtain rfl : 2 * value = n := Option.some.inj h
          exact ((denotes_zero hs).spells_cons hvalue).congr fun _ => Nat.zero_add _
        · have hnone : (if f = .one then some (2 * value + 1) else
              if f = .zero then some (2 * value) else none) = some n := h
          rw [if_neg hone, if_neg hzero] at hnone
          cases hnone

/-- The bound of a slice is the raw value of its expression. -/
theorem raw_of_bound (hl : l.Valid ws) (ha : l.Means ws a α) {e : Expr} {n : Nat}
    (h : bound ws e a = .ok n) {ρ : Assignment} {raw : Field → Nat} (hr : l.Reads ρ raw) :
    (α (ws.quantity raw)).raw = n := by
  obtain ⟨P, hP, hα⟩ := ha
  have hconst : a.toConstant? = some n := by
    unfold bound at h
    split at h
    · cases h
    · rename_i m hm
      split at h
      · cases h
      · cases h
        exact hm
  have hvalue : BitVector.constantValue? a.bits = some n := by
    unfold BitVector.toConstant? at hconst
    exact (Option.filter_eq_some_iff.1 hconst).1
  -- the bits spell one number only
  rw [← hα ρ raw hr]
  exact congrFun (hP.spells.unique (spells_of_constantValue? hl.store.reduced hvalue)) ρ

/-! ## Membership -/

/-- The comparisons give truth values. -/
theorem flag_holds_apply {op : Operator} (hop : op.isComparison = true) (p q : Quantity) :
    flag (apply op p q).holds = apply op p q := by
  cases op with
  | eq | ne | lt | le | gt | ge => exact congrArg flag (holds_flag _)
  | _ => cases hop

/-- The test of a value against a point. -/
theorem Valid.succeeds_point (hl : l.Valid ws) (ha : l.Means ws a α) (hb : l.Means ws b β) :
    Succeeds ws l (solving (Solver.apply .eq a b)) fun t l' =>
      l'.Means ws t fun fields => flag (apply .eq (α fields) (β fields)).holds :=
  (hl.succeeds_apply ha hb .eq).mono fun _ _ _ _ ht =>
    ht.congr fun _ => (flag_holds_apply rfl _ _).symm

/-- The test of a value against the ends of an interval. -/
theorem Valid.succeeds_interval {c : BitVector} {γ : (Field → Quantity) → Quantity}
    (hl : l.Valid ws) (ha : l.Means ws a α) (hb : l.Means ws b β) (hc : l.Means ws c γ) :
    Succeeds ws l (do
      let above ← solving (Solver.apply .ge a b)
      let below ← solving (Solver.apply .le a c)
      Lowering.and above below) fun t l' => l'.Means ws t fun fields =>
        flag ((apply .ge (α fields) (β fields)).holds &&
          (apply .le (α fields) (γ fields)).holds) := by
  refine (hl.succeeds_apply ha hb .ge).bind fun above l₁ h₁ g₁ _ habove => ?_
  refine (h₁.succeeds_apply (ha.grow hl g₁) (hc.grow hl g₁) .le).bind
    fun below l₂ h₂ g₂ _ hbelow => ?_
  exact h₂.succeeds_and (habove.grow h₁ g₂) hbelow

/-- A membership test so far, which is false before the first range. -/
def MeansSofar (ws : Workspace) (l : Lowering) (sofar : Option BitVector)
    (κ : (Field → Quantity) → Bool) : Prop :=
  match sofar with
  | none => ∀ fields, κ fields = false
  | some a => l.Means ws a fun fields => flag (κ fields)

theorem meansSofar_none : MeansSofar ws l none fun _ => false := fun _ => rfl

theorem Means.sofar (h : l.Means ws a fun fields => flag (κ fields)) :
    MeansSofar ws l (some a) κ := h

theorem MeansSofar.grow {sofar : Option BitVector} (h : MeansSofar ws l sofar κ)
    (hl : l.Valid ws) (hg : l.GrowsTo ws l') : MeansSofar ws l' sofar κ := by
  cases sofar with
  | none => exact h
  | some a =>
    have ha : l.Means ws a fun fields => flag (κ fields) := h
    exact (ha.grow hl hg).sofar

theorem Valid.succeeds_extend (hl : l.Valid ws) {sofar : Option BitVector}
    (hsofar : MeansSofar ws l sofar κ) {μ : (Field → Quantity) → Bool}
    (ht : l.Means ws t fun fields => flag (μ fields)) :
    Succeeds ws l (extend sofar t) fun r l' =>
      l'.Means ws r fun fields => flag (κ fields || μ fields) := by
  unfold extend
  cases sofar with
  | none => exact hl.succeeds_pure (ht.congr fun fields => by rw [hsofar fields, Bool.false_or])
  | some a =>
    have ha : l.Means ws a fun fields => flag (κ fields) := hsofar
    refine (hl.succeeds_or ha ht).mono fun r l' _ _ hr => hr.congr fun fields => ?_
    rw [holds_flag, holds_flag]

/-! ## Expressions -/

theorem Valid.means_literal (hl : l.Valid ws) (c : Literal) :
    l.Means ws ⟨BitVector.constantBits c.raw c.width, c.signed⟩
      fun _ => ⟨c.width, c.signed, c.raw⟩ := by
  have hbits := spells_constantBits hl.store.reduced c.raw c.width
  refine ⟨_, hbits.means (a := ⟨BitVector.constantBits c.raw c.width, c.signed⟩) c.width_pos,
    fun ρ raw _ => ?_⟩
  rw [Nat.mod_eq_of_lt c.raw_lt_two_pow]

mutual

/-- **The term of an expression means what the expression means.** -/
theorem leads_lower : ∀ (e : Expr) (l : Lowering), l.Valid ws →
    Leads ws l (lower ws e) e.mentions fun t l' => l'.Means ws t fun fields => e.meaning fields
  | .literal c, l, hl => hl.leads_pure (hl.means_literal c)
  | .field f, l, hl => hl.leads_fieldTerm f
  | .binary op lhs rhs, l, hl => by
    rw [Expr.mentions_binary, ← List.append_nil rhs.mentions]
    refine (leads_lower lhs l hl).bind fun a l₁ h₁ _ ha => ?_
    refine (leads_lower rhs l₁ h₁).bind fun b l₂ h₂ g₂ hb => ?_
    exact (h₂.succeeds_apply (ha.grow h₁ g₂) hb op).leads
  | .bit base index, l, hl => by
    rw [Expr.mentions_bit, ← List.append_nil index.mentions]
    refine (leads_lower base l hl).bind fun a l₁ h₁ _ ha => ?_
    refine (leads_lower index l₁ h₁).bind fun b l₂ h₂ g₂ hb => ?_
    exact h₂.leads_selectBit (ha.grow h₁ g₂) hb
  | .slice base high low, l, hl => by
    have hmentions : (Expr.slice base high low).mentions =
        base.mentions ++ (high.mentions ++ ([] ++ (low.mentions ++ ([] ++ [])))) := by
      rw [Expr.mentions_slice, List.append_nil, List.append_nil, List.nil_append, List.append_assoc]
    rw [hmentions]
    refine (leads_lower base l hl).bind fun a l₁ h₁ _ ha => ?_
    refine (leads_lower high l₁ h₁).bind fun b l₂ h₂ g₂ hb => ?_
    -- both bounds are constant, so they are known before the base is sliced
    refine (h₂.leads_check (Q := fun n l' => ∀ ρ raw, l'.Reads ρ raw →
      (high.meaning (ws.quantity raw)).raw = n) fun n hn ρ raw hr =>
        raw_of_bound h₂ hb hn hr).bind fun n l₃ h₃ g₃ hn => ?_
    refine (leads_lower low l₃ h₃).bind fun c l₄ h₄ g₄ hc => ?_
    refine (h₄.leads_check (Q := fun m l' => ∀ ρ raw, l'.Reads ρ raw →
      (low.meaning (ws.quantity raw)).raw = m) fun m hm ρ raw hr =>
        raw_of_bound h₄ hc hm hr).bind fun m l₅ h₅ g₅ hm => ?_
    have g₄' := g₄.trans g₅
    have ha₅ := ha.grow h₁ ((g₂.trans g₃).trans g₄')
    refine (h₅.leads_selectSlice ha₅ n m).mono fun t l₆ _ g₆ _ ht => ?_
    obtain ⟨Q, hQ, hvalue⟩ := ht
    refine ⟨Q, hQ, fun ρ raw hr => ?_⟩
    have hr₅ := hr.of_grows h₅ g₆
    rw [hvalue ρ raw hr]
    show _ = (base.meaning (ws.quantity raw)).slice (high.meaning (ws.quantity raw)).raw
      (low.meaning (ws.quantity raw)).raw
    rw [hn ρ raw (hr₅.of_grows h₃ g₄'), hm ρ raw hr₅]
  | .inside value ranges, l, hl => by
    rw [Expr.mentions_inside]
    refine (leads_lower value l hl).bind fun a l₁ h₁ _ ha => ?_
    refine (leads_lowerRanges ranges l₁ a none _ _ h₁ ha meansSofar_none).mono
      fun t l₂ _ _ _ ht => ht.congr fun fields => ?_
    rw [Bool.false_or]
    rfl

/-- The term of a range tells whether the value lies in it. -/
theorem leads_lowerRange : ∀ (r : Range) (l : Lowering) (a : BitVector)
    (α : (Field → Quantity) → Quantity), l.Valid ws → l.Means ws a α →
    Leads ws l (lowerRange ws a r) r.mentions fun t l' =>
      l'.Means ws t fun fields => flag (r.covers fields (α fields))
  | .point point, l, a, α, hl, ha => by
    rw [← List.append_nil (Range.point point).mentions]
    refine (leads_lower point l hl).bind fun p l₁ h₁ g₁ hp => ?_
    exact (h₁.succeeds_point (ha.grow hl g₁) hp).leads
  | .interval low high, l, a, α, hl, ha => by
    rw [Range.mentions_interval, ← List.append_nil high.mentions]
    refine (leads_lower low l hl).bind fun b l₁ h₁ g₁ hb => ?_
    refine (leads_lower high l₁ h₁).bind fun c l₂ h₂ g₂ hc => ?_
    exact (h₂.succeeds_interval (ha.grow hl (g₁.trans g₂)) (hb.grow h₁ g₂) hc).leads

/-- The term of some ranges tells whether the value lies in one of them. -/
theorem leads_lowerRanges : ∀ (rs : Ranges) (l : Lowering) (a : BitVector)
    (sofar : Option BitVector) (α : (Field → Quantity) → Quantity)
    (κ : (Field → Quantity) → Bool), l.Valid ws → l.Means ws a α → MeansSofar ws l sofar κ →
    Leads ws l (lowerRanges ws a sofar rs) rs.mentions fun t l' =>
      l'.Means ws t fun fields => flag (κ fields || rs.covers fields (α fields))
  | .single range, l, a, sofar, α, κ, hl, ha, hsofar => by
    rw [← List.append_nil (Ranges.single range).mentions]
    refine (leads_lowerRange range l a α hl ha).bind fun t l₁ h₁ g₁ ht => ?_
    exact (h₁.succeeds_extend (hsofar.grow hl g₁) ht).leads
  | .cons range rest, l, a, sofar, α, κ, hl, ha, hsofar => by
    rw [Ranges.mentions_cons, ← List.nil_append rest.mentions]
    refine (leads_lowerRange range l a α hl ha).bind fun t l₁ h₁ g₁ ht => ?_
    refine (h₁.succeeds_extend (hsofar.grow hl g₁) ht).leads.bind fun r l₂ h₂ g₂ hr => ?_
    refine (leads_lowerRanges rest l₂ a (some r) α _ h₂ (ha.grow hl (g₁.trans g₂)) hr.sofar).mono
      fun u l₃ _ _ _ hu => hu.congr fun fields => ?_
    rw [Bool.or_assoc]
    rfl

end

end Stimulus.Lowering

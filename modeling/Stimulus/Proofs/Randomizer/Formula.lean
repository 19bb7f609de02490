import Stimulus.Randomizer
import Stimulus.Proofs.Enumeration
import Stimulus.Proofs.Lowering.Meaning
import Stimulus.Proofs.Lowering.Steps

/-!
# The formula of a call

The constraints of a call lower to the conjunction of what they mean
(`Randomizer.leads_lowerConstraints`), over the fields that take part in the call
and no others. From there on nothing can fail: a restriction only compares a field
that has a term already with literals (`Randomizer.succeeds_restrict`), and it holds
where the field has its present value, or the value of a member
(`Randomizer.restrictionHolds_iff`).
-/

set_option autoImplicit false

namespace Stimulus

open Diagram Store Quantity

/-! ## Conjunctions of constraints -/

namespace Lowering

variable {ws : Workspace} {l : Lowering} {a sofar : BitVector} {f : Field}
  {α : (Field → Quantity) → Quantity} {κ : (Field → Quantity) → Bool}

theorem Valid.means_constantTrue (hl : l.Valid ws) : l.Means ws constantTrue fun _ => flag true :=
  ⟨_, (denotes_one hl.store.reduced).means, fun _ _ _ => rfl⟩

/-- One more condition in a conjunction. -/
theorem Valid.succeeds_conjunct (hl : l.Valid ws)
    (hsofar : l.Means ws sofar fun fields => flag (κ fields))
    (ha : l.Means ws a α) : Succeeds ws l (Lowering.and sofar a) fun t l' =>
      l'.Means ws t fun fields => flag (κ fields && (α fields).holds) :=
  (hl.succeeds_and hsofar ha).mono fun _ _ _ _ ht => ht.congr fun _ => by rw [holds_flag]

theorem leads_lowerAll : ∀ (es : List Expr) (l : Lowering) (sofar : BitVector)
    (κ : (Field → Quantity) → Bool), l.Valid ws → l.Means ws sofar (fun fields => flag (κ fields)) →
    Leads ws l (lowerAll ws es sofar) (es.flatMap Expr.mentions) fun t l' =>
      l'.Means ws t fun fields => flag (κ fields && es.all fun e => e.holds fields) := by
  intro es
  induction es with
  | nil =>
    intro l sofar κ hl hsofar
    exact hl.leads_pure (hsofar.congr fun fields => by rw [List.all_nil, Bool.and_true])
  | cons e rest ih =>
    intro l sofar κ hl hsofar
    rw [List.flatMap_cons, ← List.nil_append (rest.flatMap Expr.mentions)]
    refine (leads_lower e l hl).bind fun a l₁ h₁ g₁ ha => ?_
    refine (h₁.succeeds_conjunct (hsofar.grow hl g₁) ha).leads.bind fun b l₂ h₂ _ hb => ?_
    refine (ih l₂ b _ h₂ hb).mono fun t l₃ _ _ _ ht => ht.congr fun fields => ?_
    rw [List.all_cons, Bool.and_assoc]
    rfl

theorem Valid.leads_lowerScope (hl : l.Valid ws) (s : Scope) :
    Leads ws l (lowerScope ws s) (s.constraints.flatMap Expr.mentions) fun t l' =>
      l'.Means ws t fun fields => flag (s.constraints.all fun e => e.holds fields) :=
  (leads_lowerAll s.constraints l constantTrue _ hl hl.means_constantTrue).mono
    fun _ _ _ _ _ ht => ht.congr fun _ => by rw [Bool.true_and]

/-! ## Comparisons with literals -/

/-- The term of a field that was met is there. -/
theorem Valid.succeeds_fieldTerm (hl : l.Valid ws) (hf : f ∈ l.fields) :
    Succeeds ws l (fieldTerm ws f) fun t l' => l'.Means ws t fun fields => fields f := by
  obtain ⟨⟨f, t⟩, ht, rfl⟩ := List.mem_map.1 hf
  exact ⟨t, l, yields_fieldTerm_of_mem hl.indexed ht ws, hl, GrowsTo.refl ws l, rfl,
    hl.means_of_mem ht⟩

/-- The comparison of a field with a literal. -/
theorem Valid.succeeds_pin (hl : l.Valid ws) (hf : f ∈ l.fields) (c : Literal) :
    Succeeds ws l (lower ws (.binary .eq (.field f) (.literal c))) fun t l' =>
      l'.Means ws t (Expr.binary .eq (.field f) (.literal c)).meaning := by
  refine (hl.succeeds_fieldTerm hf).bind fun a l₁ h₁ _ _ ha => ?_
  exact h₁.succeeds_apply ha (h₁.means_literal c) .eq

/-- The test of a value against some literals, of which `c` is the first. -/
theorem succeeds_points : ∀ (cs : List Literal) (c : Literal) (l : Lowering)
    (sofar : Option BitVector) (κ : (Field → Quantity) → Bool), l.Valid ws → l.Means ws a α →
    MeansSofar ws l sofar κ →
    Succeeds ws l (lowerRanges ws a sofar
        (.ofCons (.point (.literal c)) (cs.map fun c => .point (.literal c)))) fun t l' =>
      l'.Means ws t fun fields => flag (κ fields || (Ranges.ofCons (.point (.literal c))
        (cs.map fun c => .point (.literal c))).covers fields (α fields)) := by
  intro cs
  induction cs with
  | nil =>
    intro c l sofar κ hl ha hsofar
    refine (hl.succeeds_point ha (hl.means_literal c)).bind fun t l₁ h₁ g₁ _ ht => ?_
    exact h₁.succeeds_extend (hsofar.grow hl g₁) ht
  | cons c' cs ih =>
    intro c l sofar κ hl ha hsofar
    -- the first value is added to what holds so far, and the rest starts from there
    refine (hl.succeeds_point ha (hl.means_literal c)).bind fun t l₁ h₁ g₁ _ ht => ?_
    refine (h₁.succeeds_extend (hsofar.grow hl g₁) ht).bind fun r l₂ h₂ g₂ _ hr => ?_
    refine (ih c' l₂ (some r) _ h₂ (ha.grow hl (g₁.trans g₂)) hr.sofar).mono
      fun u l₃ _ _ hu => hu.congr fun fields => ?_
    rw [Bool.or_assoc]
    rfl

/-- The test whether a field has one of some values. -/
theorem Valid.succeeds_membership (hl : l.Valid ws) (hf : f ∈ l.fields) {ranges : Ranges}
    {c : Literal} {cs : List Literal}
    (hranges : ranges = .ofCons (.point (.literal c)) (cs.map fun c => .point (.literal c))) :
    Succeeds ws l (lower ws (.inside (.field f) ranges)) fun t l' =>
      l'.Means ws t (Expr.inside (.field f) ranges).meaning := by
  subst hranges
  refine (hl.succeeds_fieldTerm hf).bind fun a l₁ h₁ _ _ ha => ?_
  refine (succeeds_points cs c l₁ none _ h₁ ha meansSofar_none).mono fun t l₂ _ _ ht =>
    ht.congr fun fields => ?_
  rw [Bool.false_or]
  rfl

end Lowering

namespace Randomizer

open Lowering

variable {ws : Workspace} {m : Model} {inline : Scope} {l : Lowering} {f : Field}
  {raw : Field → Nat}

/-! ## The constraints -/

/-- The terms of all fields that take part in a call, and the conjunction of its constraints. -/
def lowerConstraints (ws : Workspace) (m : Model) (inline : Scope) : Lower BitVector := do
  declare ws (activeFields m inline)
  lowerScopes ws (activeScopes m inline) constantTrue

/-- Whether all constraints of a call hold. -/
def constraintsHold (m : Model) (inline : Scope) (fields : Field → Quantity) : Bool :=
  (activeScopes m inline).all fun s => s.constraints.all fun e => e.holds fields

/-- The fields that some scopes mention. -/
def mentions (scopes : List Scope) : List Field :=
  scopes.flatMap fun s => s.constraints.flatMap Expr.mentions

theorem leads_lowerScopes : ∀ (scopes : List Scope) (l : Lowering) (sofar : BitVector)
    (κ : (Field → Quantity) → Bool), l.Valid ws → l.Means ws sofar (fun fields => flag (κ fields)) →
    Leads ws l (lowerScopes ws scopes sofar) (mentions scopes) fun t l' =>
      l'.Means ws t fun fields =>
        flag (κ fields && scopes.all fun s => s.constraints.all fun e => e.holds fields) := by
  intro scopes
  induction scopes with
  | nil =>
    intro l sofar κ hl hsofar
    exact hl.leads_pure (hsofar.congr fun fields => by rw [List.all_nil, Bool.and_true])
  | cons s rest ih =>
    intro l sofar κ hl hsofar
    unfold mentions
    rw [List.flatMap_cons, ← List.nil_append (rest.flatMap _)]
    refine (hl.leads_lowerScope s).bind fun a l₁ h₁ g₁ ha => ?_
    refine (h₁.succeeds_conjunct (hsofar.grow hl g₁) ha).leads.bind fun b l₂ h₂ _ hb => ?_
    refine (ih l₂ b _ h₂ hb).mono fun t l₃ _ _ _ ht => ht.congr fun fields => ?_
    rw [List.all_cons, Bool.and_assoc, holds_flag]

/-- Only fields that take part in a call are mentioned. -/
theorem mem_activeFields_of_mem_mentions (hf : f ∈ mentions (activeScopes m inline)) :
    f ∈ activeFields m inline := by
  obtain ⟨s, hs, hf⟩ := List.mem_flatMap.1 hf
  obtain ⟨e, he, hf⟩ := List.mem_flatMap.1 hf
  refine Field.mem_collect.2 (Or.inr (List.mem_flatMap.2 ⟨s, hs, List.mem_flatMap.2 ⟨e, he, ?_⟩⟩))
  rw [Expr.fields_eq, Field.mem_collect]
  exact Or.inr hf

/-- **The constraints of a call lower to their conjunction**, over the fields of the call only,
which are laid out together. -/
theorem leads_lowerConstraints (hl : l.Valid ws) (m : Model) (inline : Scope) :
    Leads ws l (lowerConstraints ws m inline) (activeFields m inline) fun t l' =>
      l'.Means ws t (fun fields => flag (constraintsHold m inline fields)) ∧
        Planned ws l l' := by
  -- the fields are declared first, so the constraints add none
  have hfields :
      Field.collect l.fields (activeFields m inline ++ mentions (activeScopes m inline)) =
      Field.collect l.fields (activeFields m inline) := by
    rw [Field.collect_append]
    exact Field.collect_of_subset fun f hf =>
      Field.mem_collect.2 (Or.inr (mem_activeFields_of_mem_mentions hf))
  refine Leads.mono_fields ?_ hfields
  have hdeclare := (hl.leads_declare (activeFields m inline)).mono
    fun _ l₁ _ _ hfields₁ hplanned => (⟨hfields₁, hplanned⟩ :
      l₁.fields = Field.collect l.fields (activeFields m inline) ∧ Planned ws l l₁)
  refine hdeclare.bind fun _ l₁ h₁ _ hl₁ => ?_
  obtain ⟨hfields₁, hplanned⟩ := hl₁
  refine (leads_lowerScopes (activeScopes m inline) l₁ constantTrue _ h₁ h₁.means_constantTrue).mono
    fun _ l₂ _ g₂ hfields₂ ht => ⟨ht.congr fun _ => ?_, hplanned.grow h₁ g₂ ?_⟩
  · rw [Bool.true_and]
    rfl
  · rw [hfields₂, hfields₁, ← Field.collect_append, hfields]

/-! ## The restrictions -/

/-- Whether the restriction of a field holds. -/
def restrictionHolds (ws : Workspace) (m : Model) (fields : Field → Quantity) (f : Field) : Bool :=
  match restriction ws m f with
  | .ok (some e) => e.holds fields
  | _ => true

/-- The present value of a field as a literal. -/
def present (ws : Workspace) (f : Field) : Literal :=
  ⟨(ws.slot f).raw, (ws.slot f).width, (ws.slot f).signed, (ws.slot f).width_pos,
    (ws.slot f).width_le, (ws.slot f).raw_lt⟩

/-- The present value of a field always has a literal. -/
theorem ofInt_present (ws : Workspace) (f : Field) :
    Literal.ofInt (ws.slot f).toInt (ws.slot f).width (ws.slot f).signed = .ok (present ws f) :=
  Literal.ofInt_eq_ok.2 ⟨rfl, rfl, rfl⟩

theorem pin_eq (ws : Workspace) (f : Field) :
    pin ws f = .ok (.binary .eq (.field f) (.literal (present ws f))) := by
  simp only [pin, Expr.ofInt, ofInt_present]
  rfl

/-- The range list of an enumeration, whose first member comes first. -/
theorem exists_membership (f : Field) (d : Enumeration) : ∃ c cs,
    d.members.map Literal.ofMember = c :: cs ∧
    membership f d = .ok (.inside (.field f)
      (.ofCons (.point (.literal c)) (cs.map fun c => .point (.literal c)))) := by
  have hranges : d.members.map (fun m => Range.point (.ofMember m)) =
      (d.members.map Literal.ofMember).map fun c => .point (.literal c) := by
    rw [List.map_map]
    rfl
  cases hmembers : d.members.map Literal.ofMember with
  | nil =>
    -- an enumeration has a member
    unfold Enumeration.members at hmembers
    rw [List.map_eq_nil_iff, List.map_eq_nil_iff, List.finRange_eq_nil_iff] at hmembers
    exact absurd (List.eq_nil_of_length_eq_zero hmembers) d.entries_ne_nil
  | cons c cs =>
    refine ⟨c, cs, rfl, ?_⟩
    unfold membership
    rw [hranges, hmembers]
    rfl

/-- A check that succeeds. -/
theorem succeeds_check_bind {α β : Type} {y : Except Error α} {k : α → Lower β}
    {Q : β → Lowering → Prop} {a : α} (hy : y = .ok a) (hk : Succeeds ws l (k a) Q) :
    Succeeds ws l ((liftM y : Lower α) >>= k) Q := by
  subst hy
  exact hk

/-- The restriction of a field that was met always lowers. -/
theorem succeeds_restriction (hl : l.Valid ws) (m : Model) (hf : f ∈ l.fields) :
    ∃ r, restriction ws m f = .ok r ∧ ∀ e ∈ r,
      Succeeds ws l (lower ws e) fun t l' => l'.Means ws t e.meaning := by
  unfold restriction
  split
  · split
    · rename_i d _
      obtain ⟨c, cs, -, hmembership⟩ := exists_membership f d
      rw [hmembership]
      refine ⟨_, rfl, fun e he => ?_⟩
      cases he
      exact hl.succeeds_membership hf rfl
    · exact ⟨none, rfl, fun e he => nomatch he⟩
  · rw [pin_eq]
    refine ⟨_, rfl, fun e he => ?_⟩
    cases he
    exact hl.succeeds_pin hf _

/-- **The restrictions always lower, to their conjunction.** -/
theorem succeeds_restrict : ∀ (fs : List Field) (l : Lowering) (sofar : BitVector)
    (κ : (Field → Quantity) → Bool), l.Valid ws → (∀ f ∈ fs, f ∈ l.fields) →
    l.Means ws sofar (fun fields => flag (κ fields)) →
    Succeeds ws l (restrict ws m fs sofar) fun t l' => l'.Means ws t fun fields =>
      flag (κ fields && fs.all (restrictionHolds ws m fields)) := by
  intro fs
  induction fs with
  | nil =>
    intro l sofar κ hl _ hsofar
    exact hl.succeeds_pure (hsofar.congr fun fields => by rw [List.all_nil, Bool.and_true])
  | cons f rest ih =>
    intro l sofar κ hl hfs hsofar
    have hrest : ∀ g ∈ rest, g ∈ l.fields := fun g hg => hfs g (List.mem_cons_of_mem f hg)
    obtain ⟨r, hr, hlower⟩ := succeeds_restriction hl m (hfs f List.mem_cons_self)
    -- a field without a restriction is free
    have hholds : ∀ fields, restrictionHolds ws m fields f = r.all fun e => e.holds fields := by
      intro fields
      unfold restrictionHolds
      rw [hr]
      cases r <;> rfl
    refine succeeds_check_bind hr ?_
    cases r with
    | none =>
      refine (ih l sofar κ hl hrest hsofar).mono fun t l₁ _ _ ht => ht.congr fun fields => ?_
      rw [List.all_cons, hholds]
      rfl
    | some e =>
      refine (hlower e rfl).bind fun a l₁ h₁ g₁ f₁ ha => ?_
      refine (h₁.succeeds_conjunct (hsofar.grow hl g₁) ha).bind fun b l₂ h₂ _ f₂ hb => ?_
      refine (ih l₂ b _ h₂ (by rw [f₂, f₁]; exact hrest) hb).mono fun t l₃ _ _ ht =>
        ht.congr fun fields => ?_
      rw [List.all_cons, hholds, Bool.and_assoc]
      rfl

/-! ## Properties of the steps -/

/-- The restriction of a field is there, whether or not the field has a term. -/
theorem exists_restriction (ws : Workspace) (m : Model) (f : Field) :
    ∃ r, restriction ws m f = .ok r := by
  unfold restriction
  split
  · split
    · rename_i d _
      obtain ⟨c, cs, -, hmembership⟩ := exists_membership f d
      exact ⟨_, by rw [hmembership]; rfl⟩
    · exact ⟨none, rfl⟩
  · exact ⟨_, by rw [pin_eq]; rfl⟩

section Inherited

variable {Q : {α : Type} → Solving α → Prop} {P : {α : Type} → Lower α → Prop} (h : Inherited Q P)
include h

theorem inherited_lowerScopes (scopes : List Scope) (sofar : BitVector) :
    P (lowerScopes ws scopes sofar) := by
  induction scopes generalizing sofar with
  | nil => exact h.pure sofar
  | cons s rest ih =>
    exact h.bind (h.lowerAll s.constraints _) fun _ => h.bind (h.build _) fun b => ih b

theorem inherited_restrict (m : Model) (fs : List Field) (sofar : BitVector) :
    P (restrict ws m fs sofar) := by
  induction fs generalizing sofar with
  | nil => exact h.pure sofar
  | cons f rest ih =>
    obtain ⟨r, hr⟩ := exists_restriction ws m f
    refine h.bind (h.ok hr) fun e => ?_
    cases e with
    | none => exact ih sofar
    | some e => exact h.bind (h.lower e) fun _ => h.bind (h.build _) fun b => ih b

/-- **The formula of a call has every inherited property.** -/
theorem inherited_formula (m : Model) (inline : Scope) : P (formula ws m inline) :=
  h.bind (h.declare _) fun _ => h.bind (inherited_lowerScopes h _ _) fun c =>
    h.look (fun l => inherited_restrict h m l.fields c) fun _ _ => rfl

end Inherited

/-! ## What the restrictions say -/

/-- Quantities of one type are equal where their integers are. -/
theorem holds_eq_iff {p q : Quantity} (hw : 1 ≤ p.width) (hwidth : q.width = p.width)
    (hsigned : q.signed = p.signed) (hp : p.raw < 2 ^ p.width) (hq : q.raw < 2 ^ q.width) :
    (apply .eq p q).holds = true ↔ p.toInt = q.toInt := by
  -- neither operand is widened
  have hextend : ∀ r : Quantity, r.width = p.width → r.raw < 2 ^ r.width →
      r.extend p.width = r.raw := by
    intro r hr hlt
    unfold Quantity.extend toInt
    rw [hr] at hlt ⊢
    exact TwosComplement.wrap_decode hlt hw _
  show (aligned .eq (max p.width q.width) (p.signed && q.signed)
    (p.extend (max p.width q.width)) (q.extend (max p.width q.width))).holds = true ↔ _
  rw [hwidth, Nat.max_self, hsigned, Bool.and_self, hextend p rfl hp, hextend q hwidth hq]
  unfold aligned toInt
  dsimp only
  rw [holds_flag, decide_eq_true_eq, hwidth, hsigned]

theorem covers_ofCons (fields : Field → Quantity) (q : Quantity) (r : Range) (rs : List Range) :
    (Ranges.ofCons r rs).covers fields q = (r :: rs).any fun r => r.covers fields q := by
  induction rs generalizing r with
  | nil => exact (Bool.or_false _).symm
  | cons r' rs ih =>
    rw [List.any_cons, ← ih r']
    rfl

/-- A field has the value of a literal of its own type where the comparison with it holds. -/
theorem holds_eq_literal_iff (hraw : raw f < 2 ^ (ws.slot f).width) {c : Literal}
    (hwidth : c.width = (ws.slot f).width) (hsigned : c.signed = (ws.slot f).signed) :
    (apply .eq (ws.quantity raw f) ⟨c.width, c.signed, c.raw⟩).holds = true ↔
      (ws.quantity raw f).toInt = c.value :=
  holds_eq_iff (ws.slot f).width_pos hwidth hsigned hraw c.raw_lt_two_pow

/-- The membership of a field in its enumeration holds for the values of the entries. -/
theorem holds_membership_iff {d : Enumeration} {e : Expr} (hraw : raw f < 2 ^ (ws.slot f).width)
    (htype : (ws.slot f).type = .enumeration d) (he : membership f d = .ok e) :
    e.holds (ws.quantity raw) = true ↔
      ∃ e ∈ d.entries, (ws.quantity raw f).toInt = e.value.toInt := by
  have hwidth : d.width = (ws.slot f).width := (congrArg FieldType.width htype).symm
  have hsigned : d.signed = (ws.slot f).signed := (congrArg FieldType.signed htype).symm
  obtain ⟨c, cs, hcs, hmembership⟩ := exists_membership f d
  rw [hmembership] at he
  cases he
  have hany : (Expr.inside (.field f) (.ofCons (.point (.literal c))
      (cs.map fun c => .point (.literal c)))).holds (ws.quantity raw) =
      (d.members.map Literal.ofMember).any fun c =>
        (apply .eq (ws.quantity raw f) ⟨c.width, c.signed, c.raw⟩).holds := by
    show (flag ((Ranges.ofCons _ _).covers (ws.quantity raw) (ws.quantity raw f))).holds = _
    rw [holds_flag, covers_ofCons, hcs, List.any_cons, List.any_cons, List.any_map]
    rfl
  rw [hany, List.any_eq_true, ← d.exists_member_iff fun v => (ws.quantity raw f).toInt = v]
  simp only [List.mem_map, exists_exists_and_eq_and]
  refine exists_congr fun mem => and_congr_right fun hmem => ?_
  obtain ⟨i, -, rfl⟩ := List.mem_map.1 hmem
  rw [← Literal.value_ofMember]
  exact holds_eq_literal_iff hraw hwidth hsigned

/-- What a call lets a field be: where it is solved, any value of its type, or the value of a
member; elsewhere the present value. -/
def Admits (ws : Workspace) (m : Model) (raw : Field → Nat) (f : Field) : Prop :=
  if isSolved ws m f then
    ∀ d, (ws.slot f).type = .enumeration d →
      ∃ e ∈ d.entries, (ws.quantity raw f).toInt = e.value.toInt
  else raw f = (ws.slot f).raw

/-- **The restriction of a field holds for the values that the call admits.** -/
theorem restrictionHolds_iff (hraw : raw f < 2 ^ (ws.slot f).width) :
    restrictionHolds ws m (ws.quantity raw) f = true ↔ Admits ws m raw f := by
  unfold restrictionHolds restriction Admits
  split_ifs with hsolved
  · cases htype : (ws.slot f).type with
    | scalar width signed => exact ⟨fun _ d hd => (by cases hd), fun _ => rfl⟩
    | enumeration d =>
      obtain ⟨c, cs, -, hmembership⟩ := exists_membership f d
      show (match some <$> membership f d with
        | .ok (some e) => e.holds (ws.quantity raw)
        | _ => true) = true ↔ _
      rw [hmembership]
      refine (holds_membership_iff hraw htype hmembership).trans
        ⟨fun h d' hd => ?_, fun h => h d rfl⟩
      cases hd
      exact h
  · rw [pin_eq]
    refine (holds_eq_literal_iff hraw (c := present ws f) rfl rfl).trans ?_
    exact TwosComplement.decode_inj hraw (ws.slot f).raw_lt_two_pow (ws.slot f).width_pos _

end Randomizer

end Stimulus

import Stimulus.Proofs.Lowering.Basic

/-!
# Terms of fields

Asking for the term of a field and declaring fields keep a lowering valid
(`Lowering.Valid.leads_fieldTerm`, `Lowering.Valid.leads_declare`). A declaration fails only
for a field that is not bound, and then allocates nothing
(`Lowering.run_declare_of_unbound`, `Lowering.declare_ne_error`).
-/

set_option autoImplicit false

namespace Stimulus

open Diagram Store

namespace Lowering

variable {ws : Workspace} {l l' : Lowering} {f : Field}

/-! ## The term of a field -/

/-- No field is so wide that the storage has no room for its variables. -/
theorem not_wide (ws : Workspace) (f : Field) : ¬ maxNodes < 0 + (shape ws f).width := by
  have hle : (shape ws f).width ≤ 64 := (ws.slot f).width_le
  unfold maxNodes
  omega

/-- More terms, over the variables that come next. -/
theorem Valid.add_terms (hl : l.Valid ws) {more : List (Field × BitVector)}
    {vars : List (List Nat)} {n : Nat} {store : Store} (hs : (l.solver.advance n store).Valid 0)
    (hg : l.solver.store.GrowsTo store)
    (hn : n = Layout.total (more.map fun p => (ws.slot p.1).width))
    (hfields : (l.fields ++ more.map Prod.fst).Nodup)
    (hmore : List.Forall₂ (Laid ws store) more vars)
    (hperm : vars.flatten.Perm (List.range' (l.solver.numVars + 1) n)) :
    Valid ws ⟨l.solver.advance n store, l.table.append more⟩ ∧
      l.GrowsTo ws ⟨l.solver.advance n store, l.table.append more⟩ ∧
      fields ⟨l.solver.advance n store, l.table.append more⟩ = l.fields ++ more.map Prod.fst := by
  obtain ⟨vars₀, hvars, hnodup, hrange⟩ := hl.laid
  have hlist : (l.table.append more).terms.toList = l.terms.toList ++ more :=
    l.table.toList_append more
  have hfields' : fields ⟨l.solver.advance n store, l.table.append more⟩ =
      l.fields ++ more.map Prod.fst := by
    unfold fields terms
    rw [hlist, List.map_append]
  have hnew : ∀ v ∈ vars.flatten, l.solver.numVars + 1 ≤ v ∧ v ≤ l.solver.numVars + n := by
    intro v hv
    have hmem := hperm.mem_iff.1 hv
    rw [List.mem_range'_1] at hmem
    omega
  refine ⟨⟨hs, hfields' ▸ hfields, hl.indexed.append hfields, vars₀ ++ vars, ?_, ?_, ?_⟩,
    ⟨hg, more, hlist, congrArg (l.solver.numVars + ·) hn⟩, hfields'⟩
  · rw [hlist]
    exact List.rel_append (hvars.imp fun _ _ h => h.grow hl.store.reduced hg) hmore
  · -- the new variables come after those in use
    rw [List.flatten_append, List.nodup_append]
    refine ⟨hnodup, hperm.nodup_iff.2 List.nodup_range', fun v hv u hu heq => ?_⟩
    have h1 := (hrange v hv).2
    have h2 := (hnew u hu).1
    omega
  · intro v hv
    show 0 < v ∧ v ≤ l.solver.numVars + n
    rw [List.flatten_append, List.mem_append] at hv
    rcases hv with hv | hv
    · have := hrange v hv
      omega
    · have := hnew v hv
      omega

/-- A field that has a term is answered with it, and nothing changes. -/
theorem run_fieldTerm_of_mem {t : BitVector} (hl : l.table.Agrees) (ht : (f, t) ∈ l.terms.toList)
    (ws : Workspace) : (fieldTerm ws f).run.run l = .ok (.ok t, l) := by
  obtain ⟨i, hi, hterm⟩ := hl.termAt ht
  unfold fieldTerm
  rw [run_get_bind, index, hi]
  have hanswer : (liftM (l.table.termAt i) : Solving BitVector) l.solver = .ok (t, l.solver) := by
    rw [hterm]
    rfl
  exact run_solving hanswer

theorem yields_fieldTerm_of_mem {t : BitVector} (hl : l.table.Agrees)
    (ht : (f, t) ∈ l.terms.toList) (ws : Workspace) :
    Yields l (fieldTerm ws f).run (.ok t) l :=
  .within (run_fieldTerm_of_mem hl ht ws) (run_fieldTerm_of_mem (l := unlimited l) hl ht ws) rfl

/-- Any other field gets its term now. -/
theorem run_fieldTerm_of_not_mem (hl : l.table.Agrees) (hf : f ∉ l.fields) (ws : Workspace) :
    (fieldTerm ws f).run.run l = (newTerm ws f).run.run l := by
  have hnone : l.index[f]? = none := by
    rw [Std.TreeMap.getElem?_eq_none]
    rwa [← Std.TreeMap.contains_iff_mem, hl.contains_iff]
  unfold fieldTerm
  rw [run_get_bind, hnone]

/-- A request for the term of a field finds it, allocates it, or fails for a field that is not bound
and has none. -/
theorem run_fieldTerm_cases {r : Except Error BitVector} (hl : l.table.Agrees)
    (h : (fieldTerm ws f).run.run l = .ok (r, l')) :
    (∃ t, l.term? f = some t ∧ r = .ok t ∧ l' = l) ∨
    (f ∉ l.fields ∧ ∃ t solver, Solver.freshVariable (shape ws f) l.solver = .ok (t, solver) ∧
      r = .ok t ∧ l' = ⟨solver, l.table.append [(f, t)]⟩) ∨
    f ∉ l.fields ∧ (ws.slot f).isBound = false ∧ r = .error .unboundField ∧ l' = l := by
  cases hterm : l.term? f with
  | some t =>
    rw [run_fieldTerm_of_mem hl (term?_eq_some hterm)] at h
    cases h
    exact Or.inl ⟨t, rfl, rfl, rfl⟩
  | none =>
    have hf := term?_eq_none hterm
    rw [run_fieldTerm_of_not_mem hl hf] at h
    unfold newTerm at h
    split at h
    · rcases run_bind_cases h with ⟨e, hstep, -⟩ | ⟨t, l₁, hstep, hrest⟩
      · obtain ⟨t, solver, -, herror, -⟩ := run_solving_eq_ok hstep
        cases herror
      · obtain ⟨t, solver, hfresh, hok, rfl⟩ := run_solving_eq_ok hstep
        cases hok
        cases hrest
        exact Or.inr (Or.inl ⟨hf, t, solver, hfresh, rfl, rfl⟩)
    · rename_i hbound
      cases h
      exact Or.inr (Or.inr ⟨hf, Bool.eq_false_iff.2 hbound, rfl, rfl⟩)

/-- The term of a field means the quantity of the field. -/
theorem Valid.means_of_mem (hl : l.Valid ws) {t : BitVector} (h : (f, t) ∈ l.terms.toList) :
    l.Means ws t fun fields => fields f := by
  obtain ⟨vars, hvars⟩ := hl.laid_of_mem h
  refine ⟨_, hvars.spells.means (ws.slot f).width_pos, fun ρ raw hr => ?_⟩
  have hread := hr _ h
  rw [hvars.valueOf] at hread
  rw [Except.ok.inj hread, hvars.signed_eq]
  rfl

/-- **Asking for the term of a field gives its one term.** -/
theorem Valid.leads_fieldTerm (hl : l.Valid ws) (f : Field) :
    Leads ws l (fieldTerm ws f) [f] fun t l' => l'.Means ws t fun fields => fields f := by
  cases hterm : l.term? f with
  | some t =>
    have hmem := term?_eq_some hterm
    have hf : f ∈ l.fields := List.mem_map_of_mem hmem
    refine leads_of_ok (yields_fieldTerm_of_mem hl.indexed hmem ws) hl (GrowsTo.refl ws l) ?_
      (hl.means_of_mem hmem)
    rw [Field.collect_cons_of_mem hf, Field.collect_nil]
  | none =>
    have hcollect : Field.collect l.fields [f] = l.fields ++ [f] := by
      rw [Field.collect_cons_of_not_mem (term?_eq_none hterm), Field.collect_nil]
    have hnew : Leads ws l (newTerm ws f) [f] fun t l' => l'.Means ws t fun fields => fields f := by
      unfold newTerm
      split
      · rename_i hbound
        have hallocates :
            Solver.Allocates 0 False l.solver (Solver.freshVariable (shape ws f)) _ _ :=
          hl.solver.allocates_freshVariable (ws.slot f).width_pos (not_wide ws f)
        rcases hallocates with ⟨t, store, hy, hs, hg, -, ht⟩ | ⟨hout, -⟩
        · have hmore : List.Forall₂ (Laid ws store) [(f, t)]
              [List.range' (l.solver.numVars + 1) (ws.slot f).width] :=
            List.Forall₂.cons ⟨hbound, ht.1, ht.2.1, ht.2.2⟩ List.Forall₂.nil
          have hnodup : (l.fields ++ [(f, t)].map Prod.fst).Nodup :=
            hcollect ▸ Field.nodup_collect hl.nodup [f]
          obtain ⟨hl', hg', hf'⟩ := hl.add_terms hs hg rfl hnodup hmore (by
            rw [List.flatten_cons, List.flatten_nil, List.append_nil]
            exact List.Perm.refl _)
          refine leads_of_ok (yields_bind (yields_solving hy) (.within rfl rfl rfl)
            (Nat.le_refl _)) hl' hg' (hf'.trans hcollect.symm) (hl'.means_of_mem ?_)
          rw [TermTable.toList_append]
          exact List.mem_append_right _ (List.mem_singleton.2 rfl)
        · exact Or.inr (runsOut_bind (runsOut_solving hout))
      · exact hl.leads_throw _
    refine hnew.of_run_eq fun l' hl' => ?_
    rcases hl' with rfl | rfl
    · exact run_fieldTerm_of_not_mem hl.indexed (term?_eq_none hterm) ws
    · exact run_fieldTerm_of_not_mem (l := unlimited l) hl.indexed (term?_eq_none hterm) ws

/-! ## Terms of several fields -/

/-- The terms of new fields, paired with the fields. -/
theorem forall₂_laid_zip {store : Store} : ∀ {fresh : List Field} {ts : List BitVector}
    {plan : List (List Nat)}, (∀ f ∈ fresh, (ws.slot f).isBound = true) →
    plan.length = fresh.length → List.Forall₂ (fun t p => Solver.Fresh store p.2 t p.1) ts
      (plan.zip (fresh.map (shape ws))) →
    (fresh.zip ts).map Prod.fst = fresh ∧ List.Forall₂ (Laid ws store) (fresh.zip ts) plan := by
  intro fresh
  induction fresh with
  | nil =>
    intro ts plan _ hlen _
    rw [List.eq_nil_of_length_eq_zero hlen]
    exact ⟨rfl, List.Forall₂.nil⟩
  | cons f fresh ih =>
    intro ts plan hbound hlen h
    cases plan with
    | nil => cases hlen
    | cons vars plan =>
      rw [List.map_cons, List.zip_cons_cons, List.forall₂_cons_right_iff] at h
      obtain ⟨t, ts, ⟨hsigned, hwidth, ht⟩, hts, rfl⟩ := h
      obtain ⟨hmap, hlaid⟩ := ih (fun g hg => hbound g (List.mem_cons_of_mem f hg))
        (Nat.succ.inj hlen) hts
      rw [List.zip_cons_cons, List.map_cons, hmap]
      exact ⟨rfl, List.Forall₂.cons ⟨hbound f List.mem_cons_self, hsigned, hwidth, ht⟩ hlaid⟩

/-- The terms added to those of `l` are over the variables that come next, laid out together. -/
def Planned (ws : Workspace) (l l' : Lowering) : Prop :=
  ∃ more, l'.terms.toList = l.terms.toList ++ more ∧ List.Forall₂ (Laid ws l'.solver.store) more
    (l.solver.layout.plan (l.solver.numVars + 1) (more.map fun p => (ws.slot p.1).width))

/-- Terms stay as they are as long as no more fields are met. -/
theorem GrowsTo.terms_eq (h : l.GrowsTo ws l') (hfields : l'.fields = l.fields) :
    l'.terms = l.terms := by
  obtain ⟨more, hmore, -⟩ := h.terms
  unfold fields at hfields
  rw [hmore, List.map_append, List.append_right_eq_self, List.map_eq_nil_iff] at hfields
  apply Array.toList_inj.1
  rw [hmore, hfields, List.append_nil]

/-- The new terms stay where they are as long as no more fields are met. -/
theorem Planned.grow {l'' : Lowering} (h : Planned ws l l') (hl' : l'.Valid ws)
    (hg : l'.GrowsTo ws l'') (hfields : l''.fields = l'.fields) : Planned ws l l'' := by
  obtain ⟨more, hmore, hlaid⟩ := h
  refine ⟨more, ?_, hlaid.imp fun _ _ hp => hp.grow hl'.store.reduced hg.store⟩
  rw [hg.terms_eq hfields, hmore]

/-- **Fields of which one is not bound are not declared**, and nothing is allocated for them. -/
theorem run_declare_of_unbound {fs : List Field} (hf : f ∈ fs)
    (hbound : (ws.slot f).isBound = false) (l : Lowering) :
    (declare ws fs).run.run l = .ok (.error .unboundField, l) := by
  have hall : (fs.all fun g => (ws.slot g).isBound) = false := by
    rw [List.all_eq_false]
    exact ⟨f, hf, by simp [hbound]⟩
  simp only [declare, hall]
  rfl

/-- The fields without a term are those that were not met. -/
theorem unmet_eq (hl : l.table.Agrees) (fs : List Field) :
    l.unmet fs = Field.firstMentions l.fields fs :=
  Field.firstMentions_filter (fun f => by
    rw [Bool.not_eq_true', ← Bool.not_eq_true, hl.contains_iff]
    rfl) [] fs

/-- Bound fields are declared without an error. -/
theorem declare_ne_error {fs : List Field} {e : Error}
    (hbound : ∀ f ∈ fs, (ws.slot f).isBound = true) :
    (declare ws fs).run.run l ≠ .ok (.error e, l') := by
  have hall : (fs.all fun g => (ws.slot g).isBound) = true := List.all_eq_true.2 hbound
  have hrun : (declare ws fs).run.run l = (solving (Solver.freshVariables
      ((l.unmet fs).map (shape ws))) >>= fun terms =>
        allocate ((l.unmet fs).zip terms) : Lower Unit).run.run l := by
    simp only [declare, hall]
    rfl
  rw [hrun]
  intro h
  rcases run_bind_cases h with ⟨err, hstep, -⟩ | ⟨terms, l₁, -, hallocate⟩
  · obtain ⟨terms, solver, -, herror, -⟩ := run_solving_eq_ok hstep
    cases herror
  · cases hallocate

/-- **Declaring fields gives terms to those that have none, laid out together.** -/
theorem Valid.leads_declare (hl : l.Valid ws) (fs : List Field) :
    Leads ws l (declare ws fs) fs fun _ l' => Planned ws l l' := by
  unfold declare
  split
  · rename_i hbound
    rw [List.all_eq_true] at hbound
    refine Leads.get_bind (k := fun s => _) ?_
    rw [unmet_eq hl.indexed]
    have hfresh : ∀ f ∈ Field.firstMentions l.fields fs, (ws.slot f).isBound = true :=
      fun f hf => hbound f (Field.mem_of_mem_firstMentions hf)
    have hwidth : ∀ sh ∈ (Field.firstMentions l.fields fs).map (shape ws), 1 ≤ sh.width := by
      intro sh hsh
      obtain ⟨f, -, rfl⟩ := List.mem_map.1 hsh
      exact (ws.slot f).width_pos
    have hwide : l.solver.layout = .sequential →
        ∀ sh ∈ (Field.firstMentions l.fields fs).map (shape ws), ¬ maxNodes < 0 + sh.width := by
      rintro - sh hsh
      obtain ⟨f, -, rfl⟩ := List.mem_map.1 hsh
      exact not_wide ws f
    rcases hl.solver.allocates_freshVariables hwidth hwide with
      ⟨ts, store, hy, hs, hg, -, hts⟩ | ⟨hout, -⟩
    · obtain ⟨hmap, hlaid⟩ := forall₂_laid_zip hfresh (by
        rw [Layout.length_plan, List.length_map, List.length_map]) hts
      -- the pairs have the widths that were laid out
      have hpairs : ((Field.firstMentions l.fields fs).zip ts).map
          (fun p => (ws.slot p.1).width) =
          ((Field.firstMentions l.fields fs).map (shape ws)).map Shape.width := by
        conv_rhs => rw [← hmap]
        rw [List.map_map, List.map_map]
        rfl
      have hnodup :
          (l.fields ++ ((Field.firstMentions l.fields fs).zip ts).map Prod.fst).Nodup := by
        rw [hmap]
        exact Field.nodup_collect hl.nodup fs
      obtain ⟨hl', hg', hf'⟩ := hl.add_terms hs hg (congrArg Layout.total hpairs.symm) hnodup hlaid
        (Layout.plan_perm _ _ _)
      rw [hmap] at hf'
      exact leads_of_ok (yields_bind (yields_solving hy) (.within rfl rfl rfl) (Nat.le_refl _))
        hl' hg' hf' ⟨_, TermTable.toList_append _ _, by rwa [hpairs]⟩
    · exact Or.inr (runsOut_bind (runsOut_solving hout))
  · exact hl.leads_throw _

end Lowering

end Stimulus

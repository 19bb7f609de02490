import Stimulus.Proofs.Lowering.Layouts
import Stimulus.Proofs.Solver.Interleaved

/-!
# One term for each field

A session is any sequence of declarations, requests for the terms of fields and lowered
expressions, each of which may succeed or fail, while the fields evolve (`Lowering.Session`). Two
ways lead to a term, alone on demand or together with others in a declaration, and both write it to
a list of terms and its position to an index. A session keeps the list without repetitions, the
index in step with it, and every term over variables of its own
(`Lowering.Session.one_term_per_field`).

Terms are only ever appended (`Lowering.Session.keeps_terms`), so a term that a field has once is
found by every later request. A call that fails keeps what it has allocated, and what it has
allocated is as good as any other term; a declaration that fails has allocated nothing.
-/

set_option autoImplicit false

namespace Stimulus

open Diagram Store

namespace Lowering

variable {ws ws' : Workspace} {l l' l'' : Lowering} {f : Field} {fs : List Field} {t : BitVector}
  {i : Nat}

/-! ## Positions -/

/-- The term of a field stands at its position. -/
theorem Valid.term?_eq_index (hl : l.Valid ws) :
    l.term? f = l.index[f]?.bind fun i => l.terms[i]?.map Prod.snd := by
  cases hterm : l.term? f with
  | none =>
    cases hindex : l.index[f]? with
    | none => rfl
    | some i =>
      exact absurd (List.mem_of_getElem? ((hl.indexed f i).1 hindex)) (term?_eq_none hterm)
  | some t =>
    obtain ⟨i, hi⟩ := List.mem_iff_getElem?.1 (term?_eq_some hterm)
    have hfield : l.fields[i]? = some f := by
      unfold fields
      rw [List.getElem?_map, hi]
      rfl
    rw [(hl.indexed f i).2 hfield]
    rw [Array.getElem?_toList] at hi
    simp [hi]

/-! ## Terms over variables of their own -/

/-- A term of the type of its field, the bits of which are the bare nodes of variables. -/
structure Owns (ws : Workspace) (s : Store) (p : Field × BitVector) (vars : List Nat) : Prop where
  /-- The term is as wide as the field. -/
  width_eq : p.2.width = (ws.slot p.1).width
  /-- The term has the sign of the field. -/
  signed_eq : p.2.signed = (ws.slot p.1).signed
  /-- The bits are the nodes of the variables. -/
  bits : List.Forall₂ s.IsVariable p.2.bits vars

theorem Laid.owns {s : Store} {p : Field × BitVector} {vars : List Nat} (h : Laid ws s p vars)
    (hs : s.Reduced) : Owns ws s p vars where
  width_eq := h.spells.length
  signed_eq := h.signed_eq
  bits := (h.spells.denotes_vars h.length_eq).imp fun _ _ he => he.isVariable hs

/-! ## Sessions -/

/-- Declarations, requests for the terms of fields and lowered expressions, one after the other.
Each may succeed or fail, and in between the fields evolve. -/
inductive Session : Workspace → Lowering → Workspace → Lowering → Prop
  | new {ws : Workspace} {l : Lowering} : Session ws l ws l
  | evolve {ws ws₁ ws₂ : Workspace} {l l₁ : Lowering} :
    Session ws l ws₁ l₁ → ws₁.EvolvesTo ws₂ → Session ws l ws₂ l₁
  | declare {ws ws₁ : Workspace} {l l₁ l₂ : Lowering} {fs : List Field} {r : Except Error Unit} :
    Session ws l ws₁ l₁ → (Lowering.declare ws₁ fs).run.run l₁ = .ok (r, l₂) →
      Session ws l ws₁ l₂
  | fieldTerm {ws ws₁ : Workspace} {l l₁ l₂ : Lowering} {f : Field}
    {r : Except Error BitVector} : Session ws l ws₁ l₁ →
      (Lowering.fieldTerm ws₁ f).run.run l₁ = .ok (r, l₂) → Session ws l ws₁ l₂
  | lower {ws ws₁ : Workspace} {l l₁ l₂ : Lowering} {e : Expr} {r : Except Error BitVector} :
    Session ws l ws₁ l₁ → (Lowering.lower ws₁ e).run.run l₁ = .ok (r, l₂) → Session ws l ws₁ l₂

theorem Session.reached (hs : Session ws l ws' l') (h : Reached ws l) : Reached ws' l' := by
  induction hs with
  | new => exact h
  | evolve _ hws ih => exact (ih h).evolve hws
  | declare _ hr ih => exact (ih h).declare hr
  | fieldTerm _ hr ih => exact (ih h).fieldTerm hr
  | lower _ hr ih => exact (ih h).lower hr

/-- A session only appends terms. -/
theorem Session.keeps_terms (hs : Session ws l ws' l') (h : Reached ws l) :
    l.terms.toList <+: l'.terms.toList := by
  induction hs with
  | new => exact List.prefix_rfl
  | evolve _ _ ih => exact ih h
  | declare hs hr ih =>
    exact (ih h).trans (((hs.reached h).valid.leads_declare _).growsTo hr).keeps_terms
  | fieldTerm hs hr ih =>
    exact (ih h).trans (((hs.reached h).valid.leads_fieldTerm _).growsTo hr).keeps_terms
  | lower hs hr ih =>
    exact (ih h).trans ((leads_lower _ _ (hs.reached h).valid).growsTo hr).keeps_terms

/-- **A term that a field has once is its term for the rest of the session.** -/
theorem Session.term?_eq (hs : Session ws l ws' l') (h : Reached ws l) (hf : l.term? f = some t) :
    l'.term? f = some t :=
  (hs.reached h).valid.term?_of_mem ((hs.keeps_terms h).subset (term?_eq_some hf))

/-- **A position is for good.** -/
theorem Session.keeps_position (hs : Session ws l ws' l') (h : Reached ws l)
    (hi : l.index[f]? = some i) : l'.index[f]? = some i := by
  have hplace : l.table.fields[i]? = some f := (h.valid.indexed f i).1 hi
  have hlt : i < l.table.fields.length := (List.getElem?_eq_some_iff.1 hplace).1
  obtain ⟨more, hmore⟩ := hs.keeps_terms h
  have hfields : l'.table.fields = l.table.fields ++ more.map Prod.fst := by
    rw [TermTable.fields, ← hmore, List.map_append, TermTable.fields]
  apply ((hs.reached h).valid.indexed f i).2
  rw [hfields, List.getElem?_append_left hlt, hplace]

/-- **After any session every field that was met has one term of its own.** The session may have
failed at any of its calls. The fields are without repetition, and the index that the calls keep has
exactly them, each with its position, so that looking a field up in it finds the term that the list
has for the field. Their terms have their types, and the bits of all terms together are the bare
nodes of different variables. Terms are only appended and positions are for good, so a field that
had a term has it still, and every request is answered with it. A declaration fails exactly if
one of its fields is not bound, wherever the field stands among the others, and it changes nothing
then. -/
theorem Session.one_term_per_field (hs : Session ws l ws' l') (h : Reached ws l) :
    l'.fields.Nodup ∧ (∀ (f : Field) (i : Nat), l'.index[f]? = some i ↔ l'.fields[i]? = some f) ∧
    (∀ f, l'.term? f = l'.index[f]?.bind fun i => l'.terms[i]?.map Prod.snd) ∧
    (∃ vars, List.Forall₂ (Owns ws' l'.solver.store) l'.terms.toList vars ∧ vars.flatten.Nodup ∧
      ∀ v ∈ vars.flatten, 0 < v ∧ v ≤ l'.solver.numVars) ∧
    (l.terms.toList <+: l'.terms.toList ∧
      ∀ (f : Field) (i : Nat), l.index[f]? = some i → l'.index[f]? = some i) ∧
    (∀ f t, l.term? f = some t → l'.term? f = some t) ∧
    (∀ f t, l'.term? f = some t → (Lowering.fieldTerm ws' f).run.run l' = .ok (.ok t, l')) ∧
    (∀ f t l'', (Lowering.fieldTerm ws' f).run.run l' = .ok (.ok t, l'') → l''.term? f = some t) ∧
    (∀ fs, (∃ f ∈ fs, (ws'.slot f).isBound = false) →
      (Lowering.declare ws' fs).run.run l' = .ok (.error .unboundField, l')) ∧
    ∀ fs e l'', (Lowering.declare ws' fs).run.run l' = .ok (.error e, l'') →
      (∃ f ∈ fs, (ws'.slot f).isBound = false) ∧ e = .unboundField ∧ l'' = l' := by
  have hl : l'.Valid ws' := (hs.reached h).valid
  have hfails (fs : List Field) (hfs : ∃ f ∈ fs, (ws'.slot f).isBound = false) :
      (Lowering.declare ws' fs).run.run l' = .ok (.error .unboundField, l') := by
    obtain ⟨f, hf, hunbound⟩ := hfs
    exact run_declare_of_unbound hf hunbound l'
  refine ⟨hl.nodup, ?_, ?_, ?_, ?_, ?_, ?_, ?_, hfails, ?_⟩
  · intro f i
    exact hl.indexed f i
  · intro f
    exact hl.term?_eq_index
  · obtain ⟨vars, hvars, hnodup, hrange⟩ := hl.laid
    exact ⟨vars, hvars.imp fun _ _ hp => hp.owns hl.store.reduced, hnodup, hrange⟩
  · refine ⟨hs.keeps_terms h, fun f i hi => ?_⟩
    exact hs.keeps_position h hi
  · intro f t hf
    exact hs.term?_eq h hf
  · intro f t hf
    exact run_fieldTerm_of_mem hl.indexed (term?_eq_some hf) ws'
  · intro f t l'' hr
    exact hl.term?_of_fieldTerm hr
  · intro fs e l'' hr
    have hunbound : ∃ f ∈ fs, (ws'.slot f).isBound = false := by
      by_contra hnone
      refine declare_ne_error (fun f hf => ?_) hr
      by_contra hunbound
      exact hnone ⟨f, hf, Bool.eq_false_iff.2 hunbound⟩
    rw [hfails fs hunbound] at hr
    cases hr
    exact ⟨hunbound, rfl, rfl⟩

/-- A bit that a field of one bit does not have. -/
def outside : Expr := .bit (.field ⟨1⟩) (.ofInt32 5)

/-- The second field gets its term in an expression that fails. A declaration with an unknown field
between known ones fails and allocates nothing; one without it adds the first field only, and the
second field keeps its term. -/
theorem outside_one_term_per_field : ∃ t e l₁ l₂,
    (Lowering.lower twoFields outside).run.run (start (.ofSeed 0 .interleaved)) =
      .ok (.error e, l₁) ∧
    (Lowering.declare twoFields [⟨0⟩, ⟨7⟩, ⟨1⟩, ⟨0⟩]).run.run l₁ =
      .ok (.error .unboundField, l₁) ∧
    (Lowering.declare twoFields [⟨0⟩, ⟨1⟩, ⟨0⟩]).run.run l₁ = .ok (.ok (), l₂) ∧
    l₁.term? ⟨1⟩ = some t ∧ l₂.term? ⟨1⟩ = some t ∧ l₂.fields = [⟨1⟩, ⟨0⟩] ∧
    l₂.index[(⟨0⟩ : Field)]? = some 1 := by
  have hlower : ∃ t e l₁, (Lowering.lower twoFields outside).run.run
      (start (.ofSeed 0 .interleaved)) = Except.ok (.error e, l₁) ∧ l₁.term? ⟨1⟩ = some t ∧
        ∃ l₂, (Lowering.declare twoFields [⟨0⟩, ⟨1⟩, ⟨0⟩]).run.run l₁ = Except.ok (.ok (), l₂) ∧
          l₂.fields = [⟨1⟩, ⟨0⟩] := ⟨_, _, _, rfl, rfl, _, rfl, rfl⟩
  obtain ⟨t, e, l₁, hr, hterm, l₂, hdeclare, hfields⟩ := hlower
  -- the first call alone, and the whole session from its end
  have hfailed : Session twoFields (start (.ofSeed 0 .interleaved)) twoFields l₁ :=
    Session.new.lower hr
  obtain ⟨-, -, -, -, -, -, -, -, hunbound, -⟩ := hfailed.one_term_per_field Reached.new
  have hrest : Session twoFields l₁ twoFields l₂ := Session.new.declare hdeclare
  obtain ⟨-, hindex, -, -, -, hkeeps, -⟩ :=
    hrest.one_term_per_field (hfailed.reached Reached.new)
  refine ⟨t, e, l₁, l₂, hr, hunbound _ ⟨⟨7⟩, by decide, rfl⟩, hdeclare, hterm, hkeeps _ t hterm,
    hfields, ?_⟩
  rw [hindex, hfields]
  rfl

end Lowering

end Stimulus

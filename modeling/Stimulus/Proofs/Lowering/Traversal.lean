import Stimulus.Proofs.Lowering.Layouts

/-!
# The order of lowering

Lowering meets fields in the order in which the expression mentions them. From `l` to `l'` the
fields `met` are met in this order if those that were not met before are appended to the fields of
`l`, each with a variable for every bit (`Lowering.Meets`). A step traverses a list of fields
(`Lowering.Traverses`) if it meets all of them when it succeeds, and some first ones of them when it
fails.

Steps that allocate nothing traverse the empty list and sequences traverse one list after the other,
so all of lowering traverses what is mentioned, by induction over expressions
(`Lowering.traverses_lower`). All that this needs of a lowering is that it finds the terms that it
has: it is about the order in which terms are asked for, and not about the terms.

So on a fresh lowering the fields that have terms are those that collecting the leaves gives, and
after a failure some first ones of them (`Lowering.Traverses.fields_of_start`). Where all of them
have terms already, a valid lowering stays as it is but for the nodes of its store
(`Lowering.Traverses.unchanged`).
-/

set_option autoImplicit false

namespace Stimulus

open Diagram Store

namespace Lowering

variable {ws : Workspace} {l l' l'' : Lowering} {fs gs : List Field}

/-! ## Meeting fields -/

/-- From `l` to `l'` some fields are met in this order. -/
structure Meets (ws : Workspace) (l l' : Lowering) (met : List Field) : Prop where
  /-- New fields come last, each at its first place. -/
  fields : l'.fields = Field.collect l.fields met
  /-- New fields take a variable for every bit, and nothing else takes one. -/
  numVars : l'.solver.numVars = l.solver.numVars +
    Layout.total ((Field.firstMentions l.fields met).map fun f => (ws.slot f).width)

theorem Meets.refl (ws : Workspace) (l : Lowering) : Meets ws l l [] :=
  ⟨(Field.collect_nil _).symm, rfl⟩

theorem Meets.trans (h : Meets ws l l' fs) (h' : Meets ws l' l'' gs) :
    Meets ws l l'' (fs ++ gs) := by
  constructor
  · rw [h'.fields, h.fields, Field.collect_append]
  · rw [h'.numVars, h.numVars, h.fields, Field.firstMentions_append, List.map_append,
      Layout.total_append, Nat.add_assoc]

/-- Fields that all have terms change nothing. -/
theorem Meets.unchanged (h : Meets ws l l' fs) (hfs : ∀ f ∈ fs, f ∈ l.fields) :
    l'.fields = l.fields ∧ l'.solver.numVars = l.solver.numVars := by
  have hcollect := Field.collect_of_subset hfs
  have hnone : Field.firstMentions l.fields fs = [] := by
    simpa [Field.collect] using hcollect
  refine ⟨h.fields.trans hcollect, ?_⟩
  rw [h.numVars, hnone]
  rfl

/-! ## Traversals -/

/-- On a lowering that finds its terms, the step meets all of some fields in this order if it
succeeds, and some first ones of them if it fails, and the terms are found afterwards. -/
def Traverses {α : Type} (ws : Workspace) (l : Lowering) (x : Lower α) (mentioned : List Field) :
    Prop :=
  l.table.Agrees → ∀ r l', x.run.run l = .ok (r, l') → l'.table.Agrees ∧
    ∃ met, met <+: mentioned ∧ (∀ a, r = .ok a → met = mentioned) ∧ Meets ws l l' met

section Rules

variable {α β : Type} {x : Lower α} {k : α → Lower β}

theorem traverses_pure (a : α) : Traverses ws l (pure a) [] := by
  intro hl r l' hr
  cases hr
  exact ⟨hl, [], List.prefix_rfl, fun _ _ => rfl, Meets.refl ws l⟩

/-- A step that fails at once traverses any list. -/
theorem traverses_throw (e : Error) : Traverses ws l (throw e : Lower α) fs := by
  intro hl r l' hr
  cases hr
  refine ⟨hl, [], List.nil_prefix, ?_, Meets.refl ws l⟩
  intro a ha
  cases ha

/-- One step after another. -/
theorem Traverses.bind (hx : Traverses ws l x fs) (hk : ∀ a l', Traverses ws l' (k a) gs) :
    Traverses ws l (x >>= k) (fs ++ gs) := by
  intro hl r l'' hr
  rcases run_bind_cases hr with ⟨e, hstep, rfl⟩ | ⟨a, l', hstep, hrest⟩
  · -- the second step is not reached
    obtain ⟨hl'', met, hfirst, -, hmet⟩ := hx hl _ l'' hstep
    refine ⟨hl'', met, hfirst.trans (List.prefix_append _ _), ?_, hmet⟩
    intro b hb
    cases hb
  · obtain ⟨hl', met, -, hall, hmet⟩ := hx hl _ l' hstep
    obtain rfl := hall a rfl
    obtain ⟨hl'', met', hfirst', hall', hmet'⟩ := hk a l' hl' r l'' hrest
    refine ⟨hl'', met ++ met', (List.prefix_append_right_inj met).2 hfirst', ?_, hmet.trans hmet'⟩
    intro b hb
    rw [hall' b hb]

/-- A step that is followed by one that meets no fields. -/
theorem Traverses.bind_nil (hx : Traverses ws l x fs) (hk : ∀ a l', Traverses ws l' (k a) []) :
    Traverses ws l (x >>= k) fs :=
  List.append_nil fs ▸ hx.bind hk

theorem traverses_check (y : Except Error α) : Traverses ws l (liftM y) [] := by
  cases y with
  | error e => exact traverses_throw e
  | ok a => exact traverses_pure a

/-- Computations on the store meet no fields. -/
theorem traverses_build (y : Build α) : Traverses ws l (solving (Solver.build y)) [] := by
  intro hl r l' hr
  obtain ⟨a, solver, hy, -, rfl⟩ := run_solving_eq_ok hr
  obtain ⟨store, -, rfl⟩ := Solver.exists_of_build hy
  exact ⟨hl, [], List.prefix_rfl, fun _ _ => rfl, (Field.collect_nil _).symm, rfl⟩

end Rules

/-! ## Lowering -/

/-- A fresh term takes a variable for every bit. -/
theorem numVars_of_freshVariable {s s' : Solver} {shape : Shape} {t : BitVector}
    (h : Solver.freshVariable shape s = .ok (t, s')) : s'.numVars = s.numVars + shape.width := by
  have hbuild : Solver.freshVariable shape s =
      Solver.build (BitVector.variable (s.numVars + 1) shape.width shape.signed)
        { s with numVars := s.numVars + shape.width } := rfl
  rw [hbuild] at h
  obtain ⟨store, -, rfl⟩ := Solver.exists_of_build h
  rfl

theorem traverses_fieldTerm (f : Field) : Traverses ws l (fieldTerm ws f) [f] := by
  intro hl r l' hr
  rcases run_fieldTerm_cases hl hr with ⟨t, hterm, -, rfl⟩ | ⟨hf, t, solver, hfresh, -, rfl⟩ |
    ⟨-, -, rfl, rfl⟩
  · -- the field has a term, so it is met without a change
    have hf : f ∈ l'.fields := List.mem_map_of_mem (term?_eq_some hterm)
    refine ⟨hl, [f], List.prefix_rfl, fun _ _ => rfl, ?_, ?_⟩
    · rw [Field.collect_cons_of_mem hf, Field.collect_nil]
    · rw [Field.firstMentions_of_mem hf]
      rfl
  · refine ⟨hl.push hf, [f], List.prefix_rfl, fun _ _ => rfl, ?_, ?_⟩
    · rw [Field.collect_cons_of_not_mem hf, Field.collect_nil]
      exact l.table.fields_append [(f, t)]
    · rw [Field.firstMentions_of_not_mem hf]
      exact numVars_of_freshVariable hfresh
  · -- the allocation fails before it meets the field
    refine ⟨hl, [], List.nil_prefix, ?_, Meets.refl ws l'⟩
    intro a ha
    cases ha

theorem traverses_selectBit (base index : BitVector) :
    Traverses ws l (selectBit base index) [] := by
  unfold selectBit
  cases index.toConstant? with
  | none => exact traverses_build _
  | some i =>
    dsimp only
    split
    · apply Traverses.bind_nil (traverses_throw _)
      intro _ _
      exact traverses_build _
    · exact traverses_build _

theorem traverses_selectSlice (base : BitVector) (high low : Nat) :
    Traverses ws l (selectSlice base high low) [] := by
  unfold selectSlice
  split
  · apply Traverses.bind_nil (traverses_throw _)
    intro _ _
    exact traverses_pure _
  · exact traverses_pure _

theorem traverses_extend (sofar : Option BitVector) (t : BitVector) :
    Traverses ws l (extend sofar t) [] := by
  cases sofar with
  | none => exact traverses_pure t
  | some a => exact traverses_build _

mutual

/-- **Lowering an expression traverses the fields that it mentions**, in the order of its leaves. -/
theorem traverses_lower : ∀ (e : Expr) (l : Lowering), Traverses ws l (lower ws e) e.mentions
  | .literal c, l => traverses_pure _
  | .field f, l => traverses_fieldTerm f
  | .binary op lhs rhs, l => by
    rw [Expr.mentions_binary]
    refine (traverses_lower lhs l).bind fun a l₁ => ?_
    exact (traverses_lower rhs l₁).bind_nil fun b l₂ => traverses_build _
  | .bit base index, l => by
    rw [Expr.mentions_bit]
    refine (traverses_lower base l).bind fun a l₁ => ?_
    exact (traverses_lower index l₁).bind_nil fun i l₂ => traverses_selectBit a i
  | .slice base high low, l => by
    rw [Expr.mentions_slice, List.append_assoc]
    -- each bound is checked before the next one is lowered
    refine (traverses_lower base l).bind fun a l₁ => ?_
    refine (traverses_lower high l₁).bind fun t l₂ => ?_
    refine (traverses_check _).bind fun i l₃ => ?_
    refine (traverses_lower low l₃).bind_nil fun u l₄ => ?_
    exact (traverses_check _).bind_nil fun j l₅ => traverses_selectSlice a i j
  | .inside value ranges, l => by
    rw [Expr.mentions_inside]
    exact (traverses_lower value l).bind fun a l₁ => traverses_lowerRanges a none ranges l₁

theorem traverses_lowerRange (a : BitVector) : ∀ (r : Range) (l : Lowering),
    Traverses ws l (lowerRange ws a r) r.mentions
  | .point point, l => (traverses_lower point l).bind_nil fun p l₁ => traverses_build _
  | .interval low high, l => by
    rw [Range.mentions_interval]
    refine (traverses_lower low l).bind fun b l₁ => ?_
    refine (traverses_lower high l₁).bind_nil fun c l₂ => ?_
    refine (traverses_build _).bind_nil fun above l₃ => ?_
    exact (traverses_build _).bind_nil fun below l₄ => traverses_build _

theorem traverses_lowerRanges (a : BitVector) : ∀ (sofar : Option BitVector) (rs : Ranges)
    (l : Lowering), Traverses ws l (lowerRanges ws a sofar rs) rs.mentions
  | sofar, .single range, l =>
    (traverses_lowerRange a range l).bind_nil fun t l₁ => traverses_extend sofar t
  | sofar, .cons range rest, l => by
    rw [Ranges.mentions_cons]
    refine (traverses_lowerRange a range l).bind fun t l₁ => ?_
    exact (traverses_extend sofar t).bind fun b l₂ => traverses_lowerRanges a (some b) rest l₂

end

theorem traverses_lowerAll : ∀ (es : List Expr) (sofar : BitVector) (l : Lowering),
    Traverses ws l (lowerAll ws es sofar) (es.flatMap Expr.mentions) := by
  intro es
  induction es with
  | nil => exact fun sofar l => traverses_pure sofar
  | cons e rest ih =>
    intro sofar l
    rw [List.flatMap_cons]
    refine (traverses_lower e l).bind fun t l₁ => ?_
    exact (traverses_build _).bind fun b l₂ => ih b l₂

/-- Lowering a scope traverses the fields of its constraints, one after the other. -/
theorem traverses_lowerScope (s : Scope) (l : Lowering) :
    Traverses ws l (lowerScope ws s) s.mentions :=
  traverses_lowerAll s.constraints constantTrue l

/-! ## Fresh lowerings, and lowerings that have all terms -/

section Ends

variable {α : Type} {x : Lower α} {r : Except Error α} {Q : α → Lowering → Prop}

/-- On a fresh lowering a traversal that succeeds has met what collecting gives, and one that fails
has met a first part of it. -/
theorem Traverses.fields_of_start {s : Solver} (h : Traverses ws (start s) x fs)
    (hr : x.run.run (start s) = .ok (r, l')) :
    l'.fields <+: Field.collect [] fs ∧ ∀ a, r = .ok a → l'.fields = Field.collect [] fs := by
  obtain ⟨-, met, hfirst, hall, hmet⟩ := h TermTable.agrees_empty r l' hr
  rw [hmet.fields]
  refine ⟨Field.collect_mono hfirst [], ?_⟩
  intro a ha
  rw [hall a ha]
  rfl

/-- A traversal of fields that have terms allocates nothing and takes no variable. -/
theorem Traverses.unchanged (h : Traverses ws l x fs) (hl : l.Valid ws) (hleads : Leads ws l x gs Q)
    (hfs : ∀ f ∈ fs, f ∈ l.fields) (hr : x.run.run l = .ok (r, l')) :
    l'.terms = l.terms ∧ l'.solver.numVars = l.solver.numVars := by
  obtain ⟨-, met, hfirst, -, hmet⟩ := h hl.indexed r l' hr
  obtain ⟨hfields, hnum⟩ := hmet.unchanged fun f hf => hfs f (hfirst.subset hf)
  exact ⟨(hleads.growsTo hr).terms_eq hfields, hnum⟩

end Ends

end Lowering

namespace Scope

/-- The fields of a scope are those that its constraints mention. -/
theorem fields_eq (s : Scope) : s.fields = Field.collect [] s.mentions :=
  Field.collect_flatMap Expr.mentions s.constraints []

/-- The set of fields gets the fields of the scope, and no others. -/
theorem mem_collectFields {s : Scope} {out : Std.HashSet Field} {f : Field} :
    f ∈ s.collectFields out ↔ f ∈ out ∨ f ∈ s.fields := by
  rw [mem_fields]
  unfold collectFields mentions
  induction s.constraints generalizing out with
  | nil => simp
  | cons e rest ih =>
    rw [List.foldl_cons, ih, Std.HashSet.mem_insertMany_list, List.contains_iff_mem,
      List.flatMap_cons, List.mem_append, e.fields_eq, Field.mem_collect]
    simp [or_assoc]

end Scope

end Stimulus

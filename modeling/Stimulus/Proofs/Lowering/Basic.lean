import Stimulus.Proofs.BitVector.Apply
import Stimulus.Proofs.Expr.Mentions
import Stimulus.Proofs.Lowering.Table
import Stimulus.Proofs.Solver.Fresh

/-!
# States of a lowering

A lowering is valid (`Lowering.Valid`) if its store is, if its list of terms agrees with
the index of their positions, and if its fields have terms of their types, each field
variables of its own. Under an assignment the
terms read as raw values of the fields (`Lowering.Reads`), and every choice of raw
values is read under some assignment (`Lowering.Valid.exists_reads`).

A term of a lowering means a quantity that depends on those of the fields
(`Lowering.Means`). `Lowering.Leads ws l x fs Q` says what a lowering step `x` does
from `l`: it may fail, but it meets no fault as long as variable numbers last,
keeps the lowering valid and lets it grow; if it succeeds, it has met the fields
`fs`, and `Q` holds of its result. `Lowering.Succeeds ws l x Q` says this of a step
that cannot fail and meets no new field.
-/

set_option autoImplicit false

namespace Stimulus

open Diagram Store

namespace Lowering

variable {ws : Workspace} {l l' l'' : Lowering} {s t : Store}

/-! ## Valid lowerings -/

/-- Variables that carry the term of a field. -/
structure Laid (ws : Workspace) (s : Store) (p : Field × BitVector) (vars : List Nat) : Prop where
  /-- Only bound fields have terms. -/
  bound : (ws.slot p.1).isBound = true
  /-- The term has the signedness of the field. -/
  signed_eq : p.2.signed = (ws.slot p.1).signed
  /-- There is a variable for every bit of the field. -/
  length_eq : vars.length = (ws.slot p.1).width
  /-- The bits of the term are the variables. -/
  spells : s.Spells (ws.slot p.1).width p.2.bits fun ρ => valueAt ρ vars

theorem Laid.grow {p : Field × BitVector} {vars : List Nat} (h : Laid ws s p vars) (hs : s.Reduced)
    (hst : s.GrowsTo t) : Laid ws t p vars :=
  ⟨h.bound, h.signed_eq, h.length_eq, h.spells.grow hs hst⟩

/-- The fields of a lowering have terms of their types over variables of their own. -/
structure Valid (ws : Workspace) (l : Lowering) : Prop where
  /-- The store is valid, and all variables in use have nodes. -/
  solver : l.solver.Valid 0
  /-- No field has two terms. -/
  nodup : l.fields.Nodup
  /-- The positions in the index are those of the terms. -/
  indexed : l.table.Agrees
  /-- No two fields share a variable, and all variables are in use. -/
  laid : ∃ vars, List.Forall₂ (Laid ws l.solver.store) l.terms.toList vars ∧ vars.flatten.Nodup ∧
    ∀ v ∈ vars.flatten, 0 < v ∧ v ≤ l.solver.numVars

theorem Valid.store (hl : l.Valid ws) : l.solver.store.Valid := hl.solver.store

/-- The store grows and terms are only added, each with variables of its own. -/
structure GrowsTo (ws : Workspace) (l l' : Lowering) : Prop where
  /-- The store grows. -/
  store : l.solver.store.GrowsTo l'.solver.store
  /-- New terms come last and take new variables. -/
  terms : ∃ more, l'.terms.toList = l.terms.toList ++ more ∧
    l'.solver.numVars = l.solver.numVars + Layout.total (more.map fun p => (ws.slot p.1).width)

theorem GrowsTo.refl (ws : Workspace) (l : Lowering) : l.GrowsTo ws l :=
  ⟨Store.GrowsTo.refl _, [], (List.append_nil _).symm, rfl⟩

theorem GrowsTo.trans (h : l.GrowsTo ws l') (h' : l'.GrowsTo ws l'') : l.GrowsTo ws l'' := by
  obtain ⟨more, hmore, hnum⟩ := h.terms
  obtain ⟨more', hmore', hnum'⟩ := h'.terms
  refine ⟨h.store.trans h'.store, more ++ more', ?_, ?_⟩
  · rw [hmore', hmore, List.append_assoc]
  · rw [hnum', hnum, List.map_append, Layout.total_append, Nat.add_assoc]

/-- What has terms keeps them, in their places. -/
theorem GrowsTo.keeps_terms (h : l.GrowsTo ws l') : l.terms.toList <+: l'.terms.toList := by
  obtain ⟨more, hmore, -⟩ := h.terms
  exact hmore ▸ List.prefix_append _ _

/-! ## Values of the fields -/

/-- Under the assignment the terms of the fields read as these raw values. -/
def Reads (l : Lowering) (ρ : Assignment) (raw : Field → Nat) : Prop :=
  ∀ p ∈ l.terms.toList, BitVector.valueOf l.solver.store ρ p.2.bits = .ok (raw p.1)

/-- The number that a field's term reads as is the one that its variables spell. -/
theorem Laid.valueOf {p : Field × BitVector} {vars : List Nat} (h : Laid ws s p vars)
    (ρ : Assignment) : BitVector.valueOf s ρ p.2.bits = .ok (valueAt ρ vars) :=
  h.spells.valueOf ρ

theorem forall₂_laid_reads {ρ : Assignment} {raw : Field → Nat} {ps : List (Field × BitVector)}
    {vars : List (List Nat)} (h : List.Forall₂ (Laid ws s) ps vars) :
    (∀ p ∈ ps, BitVector.valueOf s ρ p.2.bits = .ok (raw p.1)) ↔
      List.Forall₂ (fun p vs => valueAt ρ vs = raw p.1) ps vars := by
  induction h with
  | nil => exact ⟨fun _ => List.Forall₂.nil, fun _ p hp => absurd hp List.not_mem_nil⟩
  | cons hp _ ih =>
    rw [List.forall_mem_cons, List.forall₂_cons, ih, hp.valueOf ρ]
    exact and_congr_left fun _ => ⟨Except.ok.inj, congrArg Except.ok⟩

/-- The terms of some fields take any raw values of the fields. -/
theorem exists_values {raw : Field → Nat} {ps : List (Field × BitVector)} {vars : List (List Nat)}
    (h : List.Forall₂ (Laid ws s) ps vars) (hvars : vars.flatten.Nodup)
    (hraw : ∀ p ∈ ps, raw p.1 < 2 ^ (ws.slot p.1).width) :
    ∃ ρ, List.Forall₂ (fun p vs => valueAt ρ vs = raw p.1) ps vars := by
  have hlt : List.Forall₂ (fun x vs => x < 2 ^ vs.length) (ps.map fun p => raw p.1) vars := by
    rw [List.forall₂_map_left_iff]
    rw [List.forall₂_iff_zip] at h ⊢
    refine ⟨h.1, fun {p vs} hp => ?_⟩
    rw [(h.2 hp).length_eq]
    exact hraw p (List.of_mem_zip hp).1
  obtain ⟨ρ, hρ⟩ := exists_valueAt hlt hvars
  exact ⟨ρ, List.forall₂_map_left_iff.1 hρ⟩

/-- **Every choice of raw values for the fields is read under some assignment.** -/
theorem Valid.exists_reads (hl : l.Valid ws) {raw : Field → Nat}
    (hraw : ∀ f ∈ l.fields, raw f < 2 ^ (ws.slot f).width) : ∃ ρ, l.Reads ρ raw := by
  obtain ⟨vars, hvars, hnodup, -⟩ := hl.laid
  obtain ⟨ρ, hρ⟩ := exists_values hvars hnodup fun p hp => hraw p.1 (List.mem_map_of_mem hp)
  exact ⟨ρ, (forall₂_laid_reads hvars).2 hρ⟩

theorem Valid.laid_of_mem (hl : l.Valid ws) {p : Field × BitVector} (hp : p ∈ l.terms.toList) :
    ∃ vars, Laid ws l.solver.store p vars := by
  obtain ⟨vars, hvars, -⟩ := hl.laid
  obtain ⟨vs, -, hvs⟩ := exists_of_forall₂ hvars hp
  exact ⟨vs, hvs⟩

/-- What a lowering reads, it has read before it grew. -/
theorem Reads.of_grows {ρ : Assignment} {raw : Field → Nat} (hl : l.Valid ws)
    (hll : l.GrowsTo ws l') (h : l'.Reads ρ raw) : l.Reads ρ raw := by
  intro p hp
  -- the term is still there and spells the same variables
  obtain ⟨more, hmore, -⟩ := hll.terms
  obtain ⟨vars, hvars⟩ := hl.laid_of_mem hp
  have hread := h p (by rw [hmore]; exact List.mem_append_left _ hp)
  rw [(hvars.grow hl.store.reduced hll.store).valueOf] at hread
  rw [hvars.valueOf, hread]

/-! ## Meanings of terms -/

/-- The term means a quantity that depends on those of the fields. -/
def Means (ws : Workspace) (l : Lowering) (a : BitVector)
    (value : (Field → Quantity) → Quantity) : Prop :=
  ∃ Q, l.solver.store.Means a Q ∧ ∀ ρ raw, l.Reads ρ raw → Q ρ = value (ws.quantity raw)

theorem Means.grow {a : BitVector} {value : (Field → Quantity) → Quantity}
    (h : l.Means ws a value) (hl : l.Valid ws) (hll : l.GrowsTo ws l') : l'.Means ws a value := by
  obtain ⟨Q, hQ, hvalue⟩ := h
  exact ⟨Q, hQ.grow hl.store.reduced hll.store, fun ρ raw hr => hvalue ρ raw (hr.of_grows hl hll)⟩

theorem Means.congr {a : BitVector} {value value' : (Field → Quantity) → Quantity}
    (h : l.Means ws a value) (hvalue : ∀ fields, value fields = value' fields) :
    l.Means ws a value' :=
  (funext hvalue : value = value') ▸ h

/-! ## Fields with terms -/

/-- The term of a field that was met. -/
def term? (l : Lowering) (f : Field) : Option BitVector :=
  (l.terms.find? fun v => v.1 = f).map Prod.snd

theorem term?_eq_some {t : BitVector} {f : Field} (h : l.term? f = some t) :
    (f, t) ∈ l.terms.toList := by
  unfold term? at h
  obtain ⟨p, hp, rfl⟩ := Option.map_eq_some_iff.1 h
  have hf := Array.find?_some hp
  rw [decide_eq_true_eq] at hf
  rw [← hf]
  exact Array.mem_toList_iff.2 (Array.mem_of_find?_eq_some hp)

theorem term?_eq_none {f : Field} (h : l.term? f = none) : f ∉ l.fields := by
  unfold term? at h
  rw [Option.map_eq_none_iff, Array.find?_eq_none] at h
  intro hf
  obtain ⟨p, hp, rfl⟩ := List.mem_map.1 hf
  exact h p (Array.mem_toList_iff.1 hp) (decide_eq_true rfl)

/-! ## Running steps -/

section Bind

variable {α β : Type} {x : Lower α} {k : α → Lower β}

theorem run_bind {a : α} (hr : x.run.run l = .ok (.ok a, l')) :
    (x >>= k).run.run l = (k a).run.run l' := by
  rw [ExceptT.run_bind, StateT.run_bind, hr]
  rfl

theorem run_bind_error {e : Error} (hr : x.run.run l = .ok (.error e, l')) :
    (x >>= k).run.run l = .ok (.error e, l') := by
  rw [ExceptT.run_bind, StateT.run_bind, hr]
  rfl

theorem run_bind_fault {fault : Fault} (hr : x.run.run l = .error fault) :
    (x >>= k).run.run l = .error fault := by
  rw [ExceptT.run_bind, StateT.run_bind, hr]
  rfl

/-- A sequence of two steps ends with an error of the first step, or as the second one ends. -/
theorem run_bind_cases {r : Except Error β} (h : (x >>= k).run.run l = .ok (r, l'')) :
    (∃ e, x.run.run l = .ok (.error e, l'') ∧ r = .error e) ∨
      ∃ a l', x.run.run l = .ok (.ok a, l') ∧ (k a).run.run l' = .ok (r, l'') := by
  cases hx : x.run.run l with
  | error fault =>
    rw [run_bind_fault hx] at h
    cases h
  | ok p =>
    obtain ⟨first, l'⟩ := p
    cases first with
    | error e =>
      rw [run_bind_error hx] at h
      cases h
      exact Or.inl ⟨e, rfl, rfl⟩
    | ok a => exact Or.inr ⟨a, l', rfl, (run_bind hx).symm.trans h⟩

/-- A sequence of two steps succeeds if both do. -/
theorem exists_of_run_bind {b : β} (h : (x >>= k).run.run l = .ok (.ok b, l'')) :
    ∃ a l', x.run.run l = .ok (.ok a, l') ∧ (k a).run.run l' = .ok (.ok b, l'') := by
  rcases run_bind_cases h with ⟨e, -, he⟩ | hboth
  · cases he
  · exact hboth

/-- A look at the lowering. -/
theorem run_get_bind (k : Lowering → Lower β) (l : Lowering) :
    (get >>= k).run.run l = (k l).run.run l := rfl

end Bind

theorem run_solving_eq {α : Type} (x : Solving α) (l : Lowering) :
    (solving x).run.run l = (x l.solver).map fun p => (.ok p.1, ⟨p.2, l.table⟩) := by
  obtain ⟨solver, table⟩ := l
  unfold solving
  dsimp only [ExceptT.run_lift, StateT.run_map, StateT.run, Functor.map, StateT.map]
  cases x solver <;> rfl

theorem run_solving {α : Type} {x : Solving α} {l : Lowering} {a : α} {solver : Solver}
    (h : x l.solver = .ok (a, solver)) :
    (solving x).run.run l = Except.ok (.ok a, ⟨solver, l.table⟩) := by
  rw [run_solving_eq, h]
  rfl

theorem run_solving_error {α : Type} {x : Solving α} {l : Lowering} {fault : Fault}
    (h : x l.solver = .error fault) : (solving x).run.run l = Except.error fault := by
  rw [run_solving_eq, h]
  rfl

/-- A step of the solver that ends changes the solver only, and has no error. -/
theorem run_solving_eq_ok {α : Type} {x : Solving α} {l l' : Lowering} {r : Except Error α}
    (h : (solving x).run.run l = .ok (r, l')) :
    ∃ a solver, x l.solver = .ok (a, solver) ∧ r = .ok a ∧ l' = ⟨solver, l.table⟩ := by
  rw [run_solving_eq] at h
  cases hx : x l.solver with
  | error fault =>
    rw [hx] at h
    cases h
  | ok p =>
    rw [hx] at h
    cases h
    exact ⟨p.1, p.2, rfl, rfl, rfl⟩

/-! ## Steps on a storage with a limit -/

instance hasStore : HasStore Lowering where
  store l := l.solver.store
  withStore l store := ⟨{ l.solver with store := store }, l.table⟩

section Yields

variable {α β : Type} {x : Lower α} {k : α → Lower β}

/-- A step that succeeds, and another one after it. -/
theorem yields_bind {a : α} {r : Except Error β} (hx : Yields l x.run (.ok a) l')
    (hk : Yields l' (k a).run r l'')
    (hsize : l'.solver.store.nodes.size ≤ l''.solver.store.nodes.size) :
    Yields l (x >>= k).run r l'' :=
  Yields.bind (k := ExceptT.bindCont k) hx hk hsize

/-- A step that fails ends a sequence. -/
theorem yields_bind_error {e : Error} (hx : Yields l x.run (.error e) l') :
    Yields l (x >>= k).run (.error e) l' :=
  Yields.bind (k := ExceptT.bindCont k) hx (.within rfl rfl rfl) (Nat.le_refl _)

theorem runsOut_bind (hx : RunsOut False l x.run) : RunsOut False l (x >>= k).run :=
  RunsOut.bind (k := ExceptT.bindCont k) hx

theorem yields_bind_runsOut {a : α} (hx : Yields l x.run (.ok a) l')
    (hk : RunsOut False l' (k a).run) : RunsOut False l (x >>= k).run :=
  Yields.runsOut_bind (k := ExceptT.bindCont k) hx hk

theorem yields_pure (l : Lowering) (a : α) : Yields l (pure a : Lower α).run (.ok a) l :=
  .within rfl rfl rfl

theorem yields_throw (l : Lowering) (e : Error) : Yields l (throw e : Lower α).run (.error e) l :=
  .within rfl rfl rfl

/-- A step of the solver yields what the solver yields. -/
theorem yields_solving {y : Solving α} {a : α} {s : Solver} (h : Yields l.solver y a s) :
    Yields l (solving y).run (.ok a) ⟨s, l.table⟩ := by
  cases h with
  | within run free same =>
    exact .within (run_solving run) (run_solving (l := unlimited l) free) same
  | beyond limit run free same size =>
    exact .beyond limit (run_solving_error run) (run_solving (l := unlimited l) free) same size

theorem runsOut_solving {y : Solving α} (h : RunsOut False l.solver y) :
    RunsOut False l (solving y).run := by
  obtain ⟨number, hnumber, hfree, hrun⟩ := h
  refine ⟨number, hnumber, run_solving_error (l := unlimited l) hfree, ?_⟩
  exact hrun.imp (fun h => ⟨h.1, run_solving_error h.2⟩) fun h => ⟨h.1, run_solving_error h.2⟩

end Yields

/-! ## Steps -/

/-- The step leads from `l` to a valid lowering that `l` grows to, unless the numbers of variables
run out. If it succeeds, it has met the fields `mentioned`, and `Q` holds of its result. -/
def Leads {α : Type} (ws : Workspace) (l : Lowering) (x : Lower α) (mentioned : List Field)
    (Q : α → Lowering → Prop) : Prop :=
  (∃ r l', Yields l x.run r l' ∧ l'.Valid ws ∧ l.GrowsTo ws l' ∧
    ∀ a, r = .ok a → l'.fields = Field.collect l.fields mentioned ∧ Q a l') ∨
  RunsOut False l x.run

section Leads

variable {α β : Type} {x : Lower α} {k : α → Lower β} {fs gs : List Field}
  {P Q : α → Lowering → Prop} {R : β → Lowering → Prop}

/-- A step that does what another one does, with the limit and without it. -/
theorem Leads.of_run_eq {y : Lower α} (hy : Leads ws l y fs Q)
    (h : ∀ l', l' = l ∨ l' = unlimited l → x.run.run l' = y.run.run l') : Leads ws l x fs Q := by
  have hrun : x.run l = y.run l := h l (Or.inl rfl)
  have hfree : x.run (unlimited l) = y.run (unlimited l) := h _ (Or.inr rfl)
  rcases hy with ⟨r, l', hy, hrest⟩ | hout
  · exact Or.inl ⟨r, l', hy.of_eq hrun hfree rfl, hrest⟩
  · refine Or.inr ?_
    unfold RunsOut at hout ⊢
    rwa [hrun, hfree]

theorem leads_of_ok {a : α} (hy : Yields l x.run (.ok a) l') (hl : l'.Valid ws)
    (hg : l.GrowsTo ws l') (hf : l'.fields = Field.collect l.fields fs) (hQ : Q a l') :
    Leads ws l x fs Q :=
  Or.inl ⟨_, l', hy, hl, hg, fun b hb => by
    cases hb
    exact ⟨hf, hQ⟩⟩

theorem leads_of_error {e : Error} (hy : Yields l x.run (.error e) l') (hl : l'.Valid ws)
    (hg : l.GrowsTo ws l') : Leads ws l x fs Q :=
  Or.inl ⟨_, l', hy, hl, hg, fun _ h => nomatch h⟩

/-- What a run of a step says, whether or not it succeeds. -/
theorem Leads.of_end {r : Except Error α} (hx : Leads ws l x fs Q)
    (hr : x.run.run l = .ok (r, l')) : l'.Valid ws ∧ l.GrowsTo ws l' ∧
      l'.solver.store.bounded = l.solver.store.bounded ∧
      ∀ a, r = .ok a → l'.fields = Field.collect l.fields fs ∧ Q a l' := by
  rcases hx with ⟨r', l'', hy, hl, hg, hok⟩ | hout
  · obtain ⟨rfl, rfl, hsame⟩ := hy.eq_of_run hr
    exact ⟨hl, hg, hsame, hok⟩
  · exact absurd hr hout.not_ok

/-- What a run of a step that succeeds says. -/
theorem Leads.of_run {a : α} (hx : Leads ws l x fs Q) (hr : x.run.run l = .ok (.ok a, l')) :
    l'.Valid ws ∧ l.GrowsTo ws l' ∧ l'.fields = Field.collect l.fields fs ∧ Q a l' := by
  obtain ⟨hl, hg, -, hok⟩ := hx.of_end hr
  exact ⟨hl, hg, hok a rfl⟩

theorem Leads.valid {r : Except Error α} (hx : Leads ws l x fs Q)
    (hr : x.run.run l = .ok (r, l')) : l'.Valid ws := (hx.of_end hr).1

theorem Leads.growsTo {r : Except Error α} (hx : Leads ws l x fs Q)
    (hr : x.run.run l = .ok (r, l')) : l.GrowsTo ws l' := (hx.of_end hr).2.1

/-- **Under the limit of the storage a step ends, or exceeds the storage.** -/
theorem Leads.run_or_exceeds (hx : Leads ws l x fs Q) (hl : l.solver.store.bounded = true) :
    (∃ r l', x.run.run l = .ok (r, l')) ∨ Exceeds l x.run := by
  rcases hx with ⟨r, l', hy, -⟩ | hout
  · exact hy.run_or_outgrows.imp (fun h => ⟨r, l', h.1⟩) Outgrows.exceeds
  · exact Or.inr (hout.exceeds hl)

theorem Leads.mono (hx : Leads ws l x fs P)
    (hPQ : ∀ a l', l'.Valid ws → l.GrowsTo ws l' → l'.fields = Field.collect l.fields fs →
      P a l' → Q a l') : Leads ws l x fs Q := by
  rcases hx with ⟨r, l', hy, hl, hg, hok⟩ | hout
  · refine Or.inl ⟨r, l', hy, hl, hg, fun a ha => ?_⟩
    obtain ⟨hf, hP⟩ := hok a ha
    exact ⟨hf, hPQ a l' hl hg hf hP⟩
  · exact Or.inr hout

theorem Leads.mono_fields (hx : Leads ws l x fs Q)
    (h : Field.collect l.fields fs = Field.collect l.fields gs) : Leads ws l x gs Q := by
  unfold Leads at hx ⊢
  rwa [← h]

theorem Valid.leads_pure (hl : l.Valid ws) {a : α} (hQ : Q a l) : Leads ws l (pure a) [] Q :=
  leads_of_ok (yields_pure l a) hl (GrowsTo.refl ws l) (Field.collect_nil _).symm hQ

theorem Valid.leads_throw (hl : l.Valid ws) (e : Error) : Leads ws l (throw e : Lower α) fs Q :=
  leads_of_error (yields_throw l e) hl (GrowsTo.refl ws l)

/-- One step after another. -/
theorem Leads.bind (hx : Leads ws l x fs P)
    (hk : ∀ a l', l'.Valid ws → l.GrowsTo ws l' → P a l' → Leads ws l' (k a) gs R) :
    Leads ws l (x >>= k) (fs ++ gs) R := by
  rcases hx with ⟨e | a, l₁, hy, hl, hg, hok⟩ | hout
  · exact leads_of_error (yields_bind_error hy) hl hg
  · obtain ⟨hf, hP⟩ := hok a rfl
    rcases hk a l₁ hl hg hP with ⟨r, l₂, hy', hl', hg', hok'⟩ | hout
    · refine Or.inl ⟨r, l₂, yields_bind hy hy' hg'.store.size_le, hl', hg.trans hg', fun b hb => ?_⟩
      -- the fields that `k` meets are new with respect to those that `x` has met
      rw [Field.collect_append, ← hf]
      exact hok' b hb
    · exact Or.inr (yields_bind_runsOut hy hout)
  · exact Or.inr (runsOut_bind hout)

/-- A check that may fail with an error. -/
theorem Valid.leads_check (hl : l.Valid ws) {y : Except Error α} (hQ : ∀ a, y = .ok a → Q a l) :
    Leads ws l (liftM y) [] Q := by
  cases y with
  | error e => exact hl.leads_throw e
  | ok a => exact hl.leads_pure (hQ a rfl)

/-- A look at the lowering, but not at the limit of its storage. -/
theorem Leads.get_bind {k : Lowering → Lower β} (h : Leads ws l (k l) gs R)
    (hfree : k (unlimited l) = k l := by rfl) : Leads ws l (get >>= k) gs R := by
  refine h.of_run_eq fun l' hl' => ?_
  rw [run_get_bind]
  rcases hl' with rfl | rfl
  · rfl
  · rw [hfree]

/-- A valid lowering stays valid when its store grows. -/
theorem Valid.with_store (hl : l.Valid ws) {store : Store} (hs : store.Valid)
    (hg : l.solver.store.GrowsTo store) :
    Valid ws ⟨{ l.solver with store := store }, l.table⟩ ∧
      l.GrowsTo ws ⟨{ l.solver with store := store }, l.table⟩ := by
  obtain ⟨vars, hvars, hnodup, hrange⟩ := hl.laid
  exact ⟨⟨hl.solver.with_store hs hg, hl.nodup, hl.indexed, vars,
    hvars.imp fun _ _ h => h.grow hl.store.reduced hg, hnodup, hrange⟩,
    hg, [], (List.append_nil _).symm, rfl⟩

end Leads

/-! ## Steps that cannot fail -/

/-- The step succeeds from `l` without meeting a new field, keeps the lowering valid and lets it
grow, and `Q` holds of its result. -/
def Succeeds {α : Type} (ws : Workspace) (l : Lowering) (x : Lower α) (Q : α → Lowering → Prop) :
    Prop :=
  ∃ a l', Yields l x.run (.ok a) l' ∧ l'.Valid ws ∧ l.GrowsTo ws l' ∧ l'.fields = l.fields ∧
    Q a l'

section Succeeds

variable {α β : Type} {x : Lower α} {k : α → Lower β} {P Q : α → Lowering → Prop}
  {R : β → Lowering → Prop}

theorem Succeeds.leads (hx : Succeeds ws l x Q) : Leads ws l x [] Q := by
  obtain ⟨a, l', hr, hl, hg, hf, hQ⟩ := hx
  exact leads_of_ok hr hl hg (by rw [hf, Field.collect_nil]) hQ

theorem Succeeds.mono (hx : Succeeds ws l x P)
    (hPQ : ∀ a l', l'.Valid ws → l.GrowsTo ws l' → P a l' → Q a l') : Succeeds ws l x Q := by
  obtain ⟨a, l', hr, hl, hg, hf, hP⟩ := hx
  exact ⟨a, l', hr, hl, hg, hf, hPQ a l' hl hg hP⟩

/-- A run of a step that succeeds has what the step is said to yield. -/
theorem Succeeds.of_run {r : Except Error α} (hx : Succeeds ws l x Q)
    (hr : x.run.run l = .ok (r, l')) :
    ∃ a, r = .ok a ∧ l'.Valid ws ∧ l.GrowsTo ws l' ∧ l'.fields = l.fields ∧ Q a l' := by
  obtain ⟨a, l'', hy, hrest⟩ := hx
  obtain ⟨rfl, rfl, -⟩ := hy.eq_of_run hr
  exact ⟨a, rfl, hrest⟩

/-- The step succeeds, or outgrows the storage. -/
theorem Succeeds.run_or_outgrows (hx : Succeeds ws l x Q) :
    (∃ a l', x.run.run l = .ok (.ok a, l') ∧ l'.solver.store.bounded = l.solver.store.bounded ∧
      l'.Valid ws ∧ l.GrowsTo ws l' ∧ l'.fields = l.fields ∧ Q a l') ∨ Outgrows l x.run := by
  obtain ⟨a, l', hy, hrest⟩ := hx
  exact hy.run_or_outgrows.imp_left fun h => ⟨a, l', h.1, h.2, hrest⟩

theorem Valid.succeeds_pure (hl : l.Valid ws) {a : α} (hQ : Q a l) : Succeeds ws l (pure a) Q :=
  ⟨a, l, yields_pure l a, hl, GrowsTo.refl ws l, rfl, hQ⟩

/-- One step after another. -/
theorem Succeeds.bind (hx : Succeeds ws l x P)
    (hk : ∀ a l', l'.Valid ws → l.GrowsTo ws l' → l'.fields = l.fields → P a l' →
      Succeeds ws l' (k a) R) : Succeeds ws l (x >>= k) R := by
  obtain ⟨a, l₁, hr, hl, hg, hf, hP⟩ := hx
  obtain ⟨b, l₂, hr', hl', hg', hf', hR⟩ := hk a l₁ hl hg hf hP
  exact ⟨b, l₂, yields_bind hr hr' hg'.store.size_le, hl', hg.trans hg', hf'.trans hf, hR⟩

/-- A look at the lowering, but not at the limit of its storage. -/
theorem Succeeds.get_bind {k : Lowering → Lower β} (h : Succeeds ws l (k l) R)
    (hfree : k (unlimited l) = k l := by rfl) : Succeeds ws l (get >>= k) R := by
  obtain ⟨a, l', hy, hrest⟩ := h
  refine ⟨a, l', hy.of_eq rfl ?_ rfl, hrest⟩
  show (k (unlimited l)).run (unlimited l) = _
  rw [hfree]

/-- A computation on the store. -/
theorem Valid.succeeds_build (hl : l.Valid ws) {y : Build α} {S : α → Store → Prop}
    (hy : l.solver.store.Gives y S) (hQ : ∀ a l', l'.Valid ws → l.GrowsTo ws l' →
      S a l'.solver.store → Q a l') : Succeeds ws l (solving (Solver.build y)) Q := by
  obtain ⟨a, store, hr, hs, hg, hS⟩ := hy
  obtain ⟨hl', hg'⟩ := hl.with_store hs hg
  exact ⟨a, _, yields_solving (Solver.yields_build hr), hl', hg', rfl, hQ _ _ hl' hg' hS⟩

end Succeeds

end Lowering

end Stimulus

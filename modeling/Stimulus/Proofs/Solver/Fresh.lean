import Stimulus.Proofs.BitVector.Variables
import Stimulus.Proofs.Solver.Layout
import Stimulus.Solver.Basic

/-!
# Fresh terms

Every variable that a solver takes gets a node, so under the limit of the storage its
variables are fewer than the nodes (`Solver.Valid.numVars_le`), and the storage is full
before the numbers of variables run out. `Solver.Allocates` says of a computation how many
variables it takes, and what holds of its result.

Fresh terms take the next variables: one term in a run of its own
(`Solver.Valid.allocates_freshVariable`), several terms as their layout has it
(`Solver.Valid.allocates_freshVariables`). The loop over positions and terms leaves the
variables that the plan of the layout names (`Solver.Valid.allocates_positions`).
-/

set_option autoImplicit false

namespace Stimulus

open Diagram Store

namespace Solver

instance hasStore : HasStore Solver where
  store := Solver.store
  withStore s store := { s with store := store }

variable {s : Solver} {t : Store}

/-! ## Computations on the store -/

section Build

variable {α : Type} {y : Build α} {a : α} {fault : Fault}

theorem build_eq (y : Build α) (s : Solver) :
    build y s = (y s.store).map fun p => (p.1, { s with store := p.2 }) := by
  obtain ⟨store, numVars, layout, source⟩ := s
  unfold build
  dsimp only
  cases y store <;> rfl

theorem build_ok (h : y s.store = .ok (a, t)) : build y s = .ok (a, { s with store := t }) := by
  rw [build_eq, h]
  rfl

theorem build_error (h : y s.store = .error fault) : build y s = .error fault := by
  rw [build_eq, h]
  rfl

/-- A computation on the store changes the store only. -/
theorem exists_of_build {s' : Solver} (h : build y s = .ok (a, s')) :
    ∃ t, y s.store = .ok (a, t) ∧ s' = { s with store := t } := by
  rw [build_eq] at h
  cases hy : y s.store with
  | error fault =>
    rw [hy] at h
    cases h
  | ok p =>
    rw [hy] at h
    cases h
    exact ⟨p.2, rfl, rfl⟩

theorem run_of_build {s' : Solver} (h : build y s = .ok (a, s')) :
    y s.store = .ok (a, s'.store) := by
  obtain ⟨t, hy, rfl⟩ := exists_of_build h
  exact hy

/-- A solver yields what its store yields. -/
theorem yields_build (h : Yields s.store y a t) : Yields s (build y) a { s with store := t } := by
  cases h with
  | within run free same =>
    exact .within (build_ok run) (build_ok (s := unlimited s) free) same
  | beyond limit run free same size =>
    exact .beyond limit (build_error run) (build_ok (s := unlimited s) free) same size

end Build

/-! ## Solvers whose variables have nodes -/

/-- The store is valid, and each of the variables after the first `base` ones is the function of
an edge. -/
structure Valid (base : Nat) (s : Solver) : Prop where
  store : s.store.Valid
  base_le : base ≤ maxNodes
  named : ∀ v, base < v → v ≤ s.numVars → ∃ e, s.store.Denotes e fun ρ => ρ v

/-- A solver whose variables are fewer than the nodes that there can be, whether they have nodes
or not. -/
theorem valid_of_numVars_le (hs : s.store.Valid) (hn : s.numVars ≤ maxNodes) :
    s.Valid s.numVars where
  store := hs
  base_le := hn
  named _ hv hvn := absurd hvn (Nat.not_le_of_lt hv)

theorem valid_reset (s : Solver) : s.reset.Valid 0 where
  store := valid_empty
  base_le := Nat.zero_le _
  named _ hv hvn := absurd hvn (Nat.not_le_of_lt hv)

variable {base : Nat}

theorem Valid.with_store (h : s.Valid base) (ht : t.Valid) (hg : s.store.GrowsTo t) :
    Valid base { s with store := t } where
  store := ht
  base_le := h.base_le
  named v hv hvn := by
    obtain ⟨e, he⟩ := h.named v hv hvn
    exact ⟨e, he.grow h.store.reduced hg⟩

theorem Valid.with_source (h : s.Valid base) {source : Source} :
    Valid base { s with source := source } :=
  ⟨h.store, h.base_le, h.named⟩

/-- **There are more nodes than variables with nodes**, besides the unused index and the
terminal. -/
theorem Valid.numVars_add_two_le_size (h : s.Valid base) :
    s.numVars + 2 ≤ base + s.store.nodes.size := by
  have hvars : ∀ v ∈ List.range' (base + 1) (s.numVars - base),
      ∃ e, s.store.Denotes e fun ρ => ρ v := by
    intro v hv
    rw [List.mem_range'_1] at hv
    exact h.named v (by omega) (by omega)
  obtain ⟨bits, hbits⟩ := exists_forall₂ hvars
  have hle := length_add_two_le_size h.store.reduced hbits List.nodup_range'
  rw [List.length_range'] at hle
  omega

/-- Under the limit of the storage there are numbers for more variables. -/
theorem Valid.numVars_le (h : s.Valid base) (hs : s.store.bounded = true) :
    s.numVars + 2 ≤ base + maxNodes := by
  have hsize := h.store.size_le hs
  have hle := h.numVars_add_two_le_size
  omega

/-! ## Taking variables -/

/-- The solver with more variables in use, on another store. -/
def advance (s : Solver) (n : Nat) (t : Store) : Solver :=
  { s with store := t, numVars := s.numVars + n }

theorem advance_advance (s : Solver) (n m : Nat) (t u : Store) :
    (s.advance n t).advance m u = s.advance (n + m) u := by
  unfold advance
  rw [Nat.add_assoc]

/-- The computation takes the next `n` variables, each of which needs one new node at most, and
`Q` holds of the result and the store; or the numbers of variables do not last for them. -/
def Allocates {α : Type} (base : Nat) (wide : Prop) (s : Solver) (x : Solving α) (n : Nat)
    (Q : α → Store → Prop) : Prop :=
  (∃ a t, Yields s x a (s.advance n t) ∧ (s.advance n t).Valid base ∧ s.store.GrowsTo t ∧
    t.nodes.size ≤ s.store.nodes.size + n ∧ Q a t) ∨
  RunsOut wide s x ∧ lastVariable ≤ s.numVars + n

section Allocates

variable {α β : Type} {wide : Prop} {x : Solving α} {k : α → Solving β} {n m : Nat}
  {P Q : α → Store → Prop} {R : β → Store → Prop}

theorem Allocates.mono (hx : Allocates base wide s x n P)
    (hPQ : ∀ a t, t.Valid → s.store.GrowsTo t → P a t → Q a t) :
    Allocates base wide s x n Q := by
  rcases hx with ⟨a, t, hy, ht, hg, hsize, hP⟩ | hout
  · exact Or.inl ⟨a, t, hy, ht, hg, hsize, hPQ a t ht.store hg hP⟩
  · exact Or.inr hout

theorem Valid.allocates_pure (h : s.Valid base) {a : α} (hQ : Q a s.store) :
    Allocates base wide s (pure a) 0 Q :=
  Or.inl ⟨a, s.store, .within rfl rfl rfl, h, GrowsTo.refl _, Nat.le_refl _, hQ⟩

/-- One computation after another. -/
theorem Allocates.bind (hx : Allocates base wide s x n P)
    (hk : ∀ a t, (s.advance n t).Valid base → s.store.GrowsTo t → P a t →
      Allocates base wide (s.advance n t) (k a) m R) :
    Allocates base wide s (x >>= k) (n + m) R := by
  rcases hx with ⟨a, t, hy, ht, hg, hsize, hP⟩ | ⟨hout, hlast⟩
  · rcases hk a t ht hg hP with ⟨b, u, hy', hu, hg', hsize', hR⟩ | ⟨hout, hlast⟩
    · rw [advance_advance] at hy' hu
      refine Or.inl ⟨b, u, hy.bind hy' hg'.size_le, hu, hg.trans hg', ?_, hR⟩
      exact Nat.le_trans hsize' (Nat.add_assoc _ n m ▸ Nat.add_le_add_right hsize m)
    · exact Or.inr ⟨hy.runsOut_bind hout, Nat.add_assoc _ n m ▸ hlast⟩
  · exact Or.inr ⟨hout.bind, Nat.le_trans hlast (by omega)⟩

/-- A last step that takes no variables. -/
theorem Allocates.bind_last (hx : Allocates base wide s x n P)
    (hk : ∀ a t, (s.advance n t).Valid base → s.store.GrowsTo t → P a t →
      Allocates base wide (s.advance n t) (k a) 0 R) : Allocates base wide s (x >>= k) n R :=
  hx.bind hk

/-- The last step only rearranges the result. -/
theorem Allocates.map {r : α → β} (hx : Allocates base wide s x n fun a t => R (r a) t) :
    Allocates base wide s (x >>= fun a => pure (r a)) n R :=
  hx.bind_last fun _ _ ht _ hR => ht.allocates_pure hR

/-- What is known of a computation that has gone through. -/
theorem Allocates.of_run {a : α} {s' : Solver} (hx : Allocates base wide s x n Q)
    (hr : x s = .ok (a, s')) : ∃ t, s' = s.advance n t ∧ (s.advance n t).Valid base ∧
      s.store.GrowsTo t ∧ t.bounded = s.store.bounded ∧ Q a t := by
  rcases hx with ⟨a, t, hy, ht, hg, -, hQ⟩ | ⟨hout, -⟩
  · obtain ⟨rfl, rfl, hsame⟩ := hy.eq_of_run hr
    exact ⟨t, rfl, ht, hg, hsame, hQ⟩
  · exact absurd hr hout.not_ok

/-- A computation goes through, or the storage or the numbers of variables do not last for it. -/
theorem Allocates.run_or_exceeds (hx : Allocates base wide s x n Q) :
    (∃ a t, x s = .ok (a, s.advance n t)) ∨ Exceeds s x ∨ Overflows (x s) := by
  rcases hx with ⟨a, t, hy, -⟩ | ⟨hout, -⟩
  · exact hy.run_or_outgrows.imp (fun h => ⟨a, t, h.1⟩) fun h => Or.inl h.exceeds
  · exact Or.inr hout.exceeds_or_overflows

/-- Under the limit the storage is full before the numbers of variables run out. -/
theorem Allocates.run_or_exceeds_of_bounded (hx : Allocates base False s x n Q)
    (hs : s.store.bounded = true) : (∃ a s', x s = .ok (a, s')) ∨ Exceeds s x := by
  rcases hx with ⟨a, t, hy, -⟩ | ⟨hout, -⟩
  · exact hy.run_or_outgrows.imp (fun h => ⟨a, _, h.1⟩) Outgrows.exceeds
  · exact Or.inr (hout.exceeds hs)

/-- A computation goes through as long as there is room for a node for each variable. -/
theorem Allocates.exists_of_room (hx : Allocates base wide s x n Q)
    (hroom : s.store.nodes.size + n ≤ maxNodes) (hlast : s.numVars + n < lastVariable) :
    ∃ a s', x s = .ok (a, s') := by
  rcases hx with ⟨a, t, hy, -, -, hsize, -⟩ | ⟨-, hover⟩
  · cases hy with
    | within run => exact ⟨a, _, run⟩
    | beyond _ _ _ _ hbeyond =>
      have hbeyond : maxNodes < t.nodes.size := hbeyond
      omega
  · omega

end Allocates

/-- What a computation allocates, another one that does the same on this solver allocates. -/
theorem Allocates.of_eq {α : Type} {wide : Prop} {x y : Solving α} {n : Nat} {Q : α → Store → Prop}
    (hx : Allocates base wide s x n Q) (hrun : y s = x s)
    (hfree : y (unlimited s) = x (unlimited s)) : Allocates base wide s y n Q := by
  rcases hx with ⟨a, t, hy, hrest⟩ | ⟨hout, hlast⟩
  · exact Or.inl ⟨a, t, hy.of_eq hrun hfree rfl, hrest⟩
  · refine Or.inr ⟨?_, hlast⟩
    unfold RunsOut at hout ⊢
    rwa [hrun, hfree]

section Take

variable {α : Type} {wide : Prop} {y : Build α} {n : Nat} {Q : α → Store → Prop}

/-- A computation on the store that gives the next variables their nodes, and needs no other
ones. -/
theorem Valid.allocates_build (h : s.Valid base) (hy : s.store.Gives y Q)
    (hnamed : ∀ a t, Q a t → ∀ v, s.numVars < v → v ≤ s.numVars + n →
      ∃ e, t.Denotes e fun ρ => ρ v)
    (hsize : ∀ {s a t}, y s = .ok (a, t) → t.nodes.size ≤ s.nodes.size + n) :
    Allocates base wide s (fun s => build y { s with numVars := s.numVars + n }) n Q := by
  obtain ⟨a, t, hyields, ht, hg, hQ⟩ := hy
  refine Or.inl ⟨a, t, ?_, ⟨ht, h.base_le, fun v hv hvn => ?_⟩, hg, ?_, hQ⟩
  · exact (yields_build (s := { s with numVars := s.numVars + n }) hyields).of_eq rfl rfl rfl
  · by_cases hold : v ≤ s.numVars
    · exact (h.with_store ht hg).named v hv hold
    · exact hnamed a t hQ v (Nat.lt_of_not_le hold) hvn
  · cases hyields with
    | within _ free =>
      have hle := hsize free
      exact hle
    | beyond _ _ free =>
      have hle := hsize free
      exact hle

/-- A computation on the store that asks for a variable without a number. -/
theorem Valid.allocates_of_fault (h : s.Valid base) {number : Nat} (hnumber : lastVariable < number)
    (hy : ∀ store, y store = .error (.badVariable number)) (hlast : lastVariable ≤ s.numVars + n)
    (hwide : maxNodes + 1 < base + n → wide) :
    Allocates base wide s (fun s => build y { s with numVars := s.numVars + n }) n Q := by
  refine Or.inr ⟨⟨number, hnumber, build_error (hy _), Or.inr ⟨fun hs => hwide ?_,
    build_error (hy _)⟩⟩, hlast⟩
  -- within the limit there are numbers for as many variables as there are nodes
  have hle := h.numVars_le hs
  unfold lastVariable at hlast
  unfold maxNodes at hle ⊢
  omega

end Take

/-! ## One variable -/

/-- **The next variable is taken, with its node.** -/
theorem Valid.allocates_nextLiteral {wide : Prop} (h : s.Valid base) :
    Allocates base wide s nextLiteral 1 fun e t => t.Denotes e fun ρ => ρ (s.numVars + 1) := by
  refine Allocates.of_eq (x := fun s' => build (literal (s.numVars + 1))
    { s' with numVars := s'.numVars + 1 }) ?_ rfl rfl
  by_cases hlast : s.numVars + 1 ≤ lastVariable
  · refine h.allocates_build (h.store.gives_literal (Nat.succ_pos _) hlast)
      (fun e t he v hv hvn => ?_) size_literal_le
    rw [show v = s.numVars + 1 by omega]
    exact ⟨e, he⟩
  · exact h.allocates_of_fault (Nat.lt_of_not_le hlast) (literal_of_lt (Nat.lt_of_not_le hlast))
      (by omega) fun hbase => absurd h.base_le (by omega)

/-! ## One term -/

/-- Literals take one node each at most. -/
theorem size_literals_le {vars : List Nat} {bits : List Edge} {t u : Store}
    (h : vars.mapM literal t = .ok (bits, u)) : u.nodes.size ≤ t.nodes.size + vars.length := by
  induction vars generalizing t bits with
  | nil =>
    cases h
    exact Nat.le_refl _
  | cons v vars ih =>
    rw [List.mapM_cons] at h
    obtain ⟨e, t₁, he, h⟩ := exists_of_bind h
    obtain ⟨es, t₂, hes, h⟩ := exists_of_bind h
    cases h
    have hfirst := size_literal_le he
    have hrest := ih hes
    rw [List.length_cons]
    omega

theorem size_variable_le {first width : Nat} {signed : Bool} {r : BitVector} {t u : Store}
    (h : BitVector.variable first width signed t = .ok (r, u)) :
    u.nodes.size ≤ t.nodes.size + width := by
  unfold BitVector.variable at h
  split at h
  · cases h
  · obtain ⟨bits, t₁, hbits, h⟩ := exists_of_bind h
    have hsize := size_literals_le hbits
    rw [List.length_range'] at hsize
    cases hr : BitVector.ofBits bits signed with
    | error fault =>
      rw [hr] at h
      cases h
    | ok r =>
      rw [hr] at h
      cases h
      exact hsize

/-- The variables spell the number of the term, which has this shape. -/
def Fresh (store : Store) (shape : Shape) (t : BitVector) (vars : List Nat) : Prop :=
  t.signed = shape.signed ∧ vars.length = shape.width ∧
    store.Spells shape.width t.bits fun ρ => valueAt ρ vars

theorem Fresh.grow {store store' : Store} {shape : Shape} {t : BitVector} {vars : List Nat}
    (h : Fresh store shape t vars) (hs : store.Reduced) (hg : store.GrowsTo store') :
    Fresh store' shape t vars :=
  ⟨h.1, h.2.1, h.2.2.grow hs hg⟩

/-- The bits of fresh terms are variables. -/
theorem Fresh.denotes {store : Store} {shape : Shape} {t : BitVector} {vars : List Nat}
    (h : Fresh store shape t vars) {v : Nat} (hv : v ∈ vars) :
    ∃ e, store.Denotes e fun ρ => ρ v := by
  obtain ⟨e, -, he⟩ := exists_of_forall₂ (h.2.2.denotes_vars h.2.1).flip hv
  exact ⟨e, he⟩

/-- **A fresh term takes a run of variables.** -/
theorem Valid.allocates_freshVariable {wide : Prop} (h : s.Valid base) {shape : Shape}
    (hw : 1 ≤ shape.width) (hwide : maxNodes < base + shape.width → wide) :
    Allocates base wide s (freshVariable shape) shape.width fun r t =>
      Fresh t shape r (List.range' (s.numVars + 1) shape.width) := by
  refine Allocates.of_eq (x := fun s' => build
    (BitVector.variable (s.numVars + 1) shape.width shape.signed)
    { s' with numVars := s'.numVars + shape.width }) ?_ rfl rfl
  -- the bound is checked before any node is made
  by_cases hlast : s.numVars + 1 + shape.width ≤ lastVariable
  · refine (h.allocates_build (h.store.gives_variable (Nat.succ_pos _) hw hlast)
      (fun r t hr v hv hvn => ?_) size_variable_le).mono fun r t _ _ hr =>
        ⟨hr.1, List.length_range', hr.2⟩
    have hfresh : Fresh t shape r (List.range' (s.numVars + 1) shape.width) :=
      ⟨hr.1, List.length_range', hr.2⟩
    refine hfresh.denotes ?_
    rw [List.mem_range'_1]
    omega
  · refine h.allocates_of_fault (Nat.lt_of_not_le hlast) (fun store => ?_) (by omega)
      fun hbase => hwide (by omega)
    unfold BitVector.variable
    rw [if_pos (Nat.lt_of_not_le hlast)]
    rfl

/-- **Fresh terms one after another take the variables of the sequential plan.** -/
theorem Valid.allocates_sequential {wide : Prop} : ∀ (shapes : List Shape) {s : Solver},
    s.Valid base → (∀ shape ∈ shapes, 1 ≤ shape.width) →
    (∀ shape ∈ shapes, maxNodes < base + shape.width → wide) →
    Allocates base wide s (shapes.mapM freshVariable) (Layout.total (shapes.map Shape.width))
      fun ts t => List.Forall₂ (fun r p => Fresh t p.2 r p.1) ts
        ((Layout.sequential.plan (s.numVars + 1) (shapes.map Shape.width)).zip shapes) := by
  intro shapes
  induction shapes with
  | nil => exact fun h _ _ => h.allocates_pure List.Forall₂.nil
  | cons shape shapes ih =>
    intro s h hw hwide
    rw [List.mapM_cons, List.map_cons, Layout.sequential_plan_cons, List.zip_cons_cons]
    refine (h.allocates_freshVariable (hw shape List.mem_cons_self)
      (hwide shape List.mem_cons_self)).bind fun r t ht _ hr => ?_
    refine ((ih ht (fun sh hsh => hw sh (List.mem_cons_of_mem shape hsh))
      fun sh hsh => hwide sh (List.mem_cons_of_mem shape hsh)).mono fun ts u _ hg hts => ?_).map
    refine List.Forall₂.cons (hr.grow ht.store.reduced hg) ?_
    rw [Nat.add_right_comm]
    exact hts

/-! ## Terms by turns -/

/-- The bits that a draft has so far are these variables. -/
def Draft.Over (store : Store) (draft : Draft) (vars : List Nat) : Prop :=
  List.Forall₂ (fun e v => store.Denotes e fun ρ => ρ v) draft.bits vars

theorem Draft.Over.grow {store store' : Store} {draft : Draft} {vars : List Nat}
    (h : draft.Over store vars) (hs : store.Reduced) (hg : store.GrowsTo store') :
    draft.Over store' vars :=
  h.imp fun _ _ he => he.grow hs hg

/-- A draft of a shape that has the position gets the next variable. -/
theorem Valid.allocates_extend {wide : Prop} (h : s.Valid base) {draft : Draft} {vars : List Nat}
    (hdraft : draft.Over s.store vars) (i : Nat) :
    Allocates base wide s (draft.extend i) (if i < draft.shape.width then 1 else 0) fun d t =>
      d.shape = draft.shape ∧
        d.Over t (vars ++ if i < draft.shape.width then [s.numVars + 1] else []) := by
  unfold Draft.extend
  by_cases hi : i < draft.shape.width
  · rw [if_pos hi, if_pos hi, if_pos hi]
    refine (h.allocates_nextLiteral.mono fun e t _ hg he => ?_).map
    exact ⟨rfl, List.rel_append (hdraft.grow h.store.reduced hg)
      (List.Forall₂.cons he List.Forall₂.nil)⟩
  · rw [if_neg hi, if_neg hi, if_neg hi, List.append_nil]
    exact h.allocates_pure ⟨rfl, hdraft⟩

/-- The widths of some drafts. -/
def widths (drafts : List Draft) : List Nat := drafts.map fun draft => draft.shape.width

/-- At one position the drafts take the variables of a column. -/
theorem Valid.allocates_column {wide : Prop} (i : Nat) : ∀ (drafts : List Draft)
    {vars : List (List Nat)} {s : Solver}, s.Valid base →
    List.Forall₂ (Draft.Over s.store) drafts vars →
    Allocates base wide s (drafts.mapM (Draft.extend i)) (Layout.reaching (widths drafts) i)
      fun ds t => ds.map Draft.shape = drafts.map Draft.shape ∧
        List.Forall₂ (Draft.Over t) ds
          (List.zipWith (· ++ ·) vars (Layout.column i (s.numVars + 1) (widths drafts))) := by
  intro drafts
  induction drafts with
  | nil =>
    intro vars s h hvars
    cases hvars
    exact h.allocates_pure ⟨rfl, List.Forall₂.nil⟩
  | cons draft drafts ih =>
    intro vars s h hvars
    cases hvars with
    | cons hdraft hdrafts =>
    rename_i vs vars
    have hwidths : widths (draft :: drafts) = [draft.shape.width] ++ widths drafts := rfl
    rw [List.mapM_cons, hwidths, Layout.reaching_append, Layout.reaching_singleton,
      List.singleton_append, Layout.column_cons, List.zipWith_cons_cons, Nat.add_right_comm]
    refine (h.allocates_extend hdraft i).bind fun d t ht hg hd => ?_
    refine ((ih ht (hdrafts.imp fun _ _ h' => h'.grow h.store.reduced hg)).mono
      fun ds u _ hg' hds => ?_).map
    refine ⟨?_, List.Forall₂.cons (hd.2.grow ht.store.reduced hg') hds.2⟩
    rw [List.map_cons, List.map_cons, hd.1, hds.1]

/-- **After some positions the drafts have the variables of as many turns.** -/
theorem Valid.allocates_positions {wide : Prop} (h : s.Valid base) (shapes : List Shape) (n : Nat) :
    Allocates base wide s ((List.range n).foldlM
        (fun drafts i => drafts.mapM (Draft.extend i)) (shapes.map Draft.start))
      (Layout.before (shapes.map Shape.width) n) fun ds t =>
        ds.map Draft.shape = shapes ∧ List.Forall₂ (Draft.Over t) ds
          (Layout.turns (s.numVars + 1) (shapes.map Shape.width) n) := by
  induction n with
  | zero =>
    have hzero : Layout.before (shapes.map Shape.width) 0 = 0 := by
      unfold Layout.before
      induction shapes with
      | nil => rfl
      | cons shape shapes ih => exact (Nat.add_eq_zero_iff.2 ⟨Nat.min_zero _, ih⟩)
    rw [hzero]
    refine h.allocates_pure ⟨?_, ?_⟩
    · rw [List.map_map]
      exact List.map_id shapes
    · unfold Layout.turns
      rw [List.forall₂_map_left_iff, List.forall₂_map_right_iff, List.forall₂_map_right_iff,
        List.forall₂_same]
      exact fun _ _ => List.Forall₂.nil
  | succ n ih =>
    rw [List.range_succ, List.foldlM_append, Layout.before_succ]
    refine ih.bind fun ds t ht hg hds => ?_
    have hwidths : widths ds = shapes.map Shape.width := by
      rw [← hds.1, List.map_map]
      rfl
    -- the last turn is a column on top of the others
    have hcolumn : Allocates base wide _ _ _ _ := ht.allocates_column n ds hds.2
    rw [hwidths] at hcolumn
    rw [List.foldlM_cons]
    refine hcolumn.bind_last fun ds' u hu _ hds' => hu.allocates_pure ⟨hds'.1.trans hds.1, ?_⟩
    unfold Layout.turns
    rw [Nat.add_right_comm]
    exact hds'.2

/-- Drafts over the variables of a plan are fresh terms. -/
theorem forall₂_fresh {store : Store} {drafts : List Draft} {plan : List (List Nat)}
    (h : List.Forall₂ (Draft.Over store) drafts plan)
    (hlen : plan.map List.length = widths drafts) :
    List.Forall₂ (fun r p => Fresh store p.2 r p.1)
      (drafts.map fun d => ⟨d.bits, d.shape.signed⟩) (plan.zip (drafts.map Draft.shape)) := by
  induction h with
  | nil => exact List.Forall₂.nil
  | @cons d vars drafts plan hd _ ih =>
    obtain ⟨hfirst, hrest⟩ := List.cons.inj hlen
    have hspells := spells_of_denotes hd
    rw [show vars.length = d.shape.width from hfirst] at hspells
    exact List.Forall₂.cons ⟨rfl, hfirst, hspells⟩ (ih hrest)

/-- Drafts over the variables of a plan are finished without a fault. -/
theorem mapM_finish {store : Store} {drafts : List Draft} {plan : List (List Nat)}
    (h : List.Forall₂ (Draft.Over store) drafts plan) (hlen : plan.map List.length = widths drafts)
    (hw : ∀ d ∈ drafts, 1 ≤ d.shape.width) :
    (drafts.mapM fun d => liftM d.finish : Solving (List BitVector)) =
      pure (drafts.map fun d => ⟨d.bits, d.shape.signed⟩) := by
  induction h with
  | nil => rfl
  | @cons d vars drafts plan hd _ ih =>
    obtain ⟨hfirst, hrest⟩ := List.cons.inj hlen
    have hfinish : d.finish = .ok ⟨d.bits, d.shape.signed⟩ :=
      ofBits_of_length d.shape.signed (hd.length_eq.trans hfirst) (hw d List.mem_cons_self)
    rw [List.mapM_cons, ih hrest fun d' hd' => hw d' (List.mem_cons_of_mem d hd'), hfinish]
    rfl

theorem le_foldl_max (ws : List Nat) (m : Nat) :
    m ≤ ws.foldl max m ∧ ∀ w ∈ ws, w ≤ ws.foldl max m := by
  induction ws generalizing m with
  | nil => exact ⟨Nat.le_refl m, fun w hw => absurd hw List.not_mem_nil⟩
  | cons u ws ih =>
    obtain ⟨hmax, hrest⟩ := ih (max m u)
    refine ⟨Nat.le_trans (Nat.le_max_left m u) hmax, fun w hw => ?_⟩
    rcases List.mem_cons.1 hw with rfl | hw
    · exact Nat.le_trans (Nat.le_max_right m w) hmax
    · exact hrest w hw

/-- No shape is wider than the widest one. -/
theorem le_widest {shapes : List Shape} {w : Nat} (h : w ∈ shapes.map Shape.width) :
    w ≤ widest shapes :=
  (le_foldl_max _ 0).2 w h

/-- **Fresh terms by turns take the variables of the interleaved plan.** -/
theorem Valid.allocates_interleaved {wide : Prop} (h : s.Valid base) {shapes : List Shape}
    (hw : ∀ shape ∈ shapes, 1 ≤ shape.width) :
    Allocates base wide s (interleavedVariables shapes) (Layout.total (shapes.map Shape.width))
      fun ts t => List.Forall₂ (fun r p => Fresh t p.2 r p.1) ts
        ((Layout.interleaved.plan (s.numVars + 1) (shapes.map Shape.width)).zip shapes) := by
  have hwidest : ∀ w ∈ shapes.map Shape.width, w ≤ widest shapes := fun _ => le_widest
  unfold interleavedVariables
  rw [← Layout.before_eq_total hwidest]
  refine (h.allocates_positions shapes (widest shapes)).bind_last fun ds t ht _ hds => ?_
  obtain ⟨hshapes, hover⟩ := hds
  rw [Layout.turns_eq_plan hwidest] at hover
  have hlen : (Layout.interleaved.plan (s.numVars + 1) (shapes.map Shape.width)).map List.length =
      widths ds := by
    rw [Layout.map_length_plan, ← hshapes, List.map_map]
    rfl
  have hfresh := forall₂_fresh hover hlen
  rw [hshapes] at hfresh
  rw [mapM_finish hover hlen fun d hd => ?_]
  · exact ht.allocates_pure hfresh
  · rw [← hshapes] at hw
    exact hw _ (List.mem_map_of_mem hd)

/-! ## Several terms -/

theorem freshVariables_of_interleaved (shapes : List Shape) (h : s.layout = .interleaved) :
    freshVariables shapes s = interleavedVariables shapes s := by
  obtain ⟨store, numVars, layout, source⟩ := s
  cases h
  rfl

theorem freshVariables_of_sequential (shapes : List Shape) (h : s.layout = .sequential) :
    freshVariables shapes s = shapes.mapM freshVariable s := by
  obtain ⟨store, numVars, layout, source⟩ := s
  cases h
  rfl

/-- **Fresh terms take the variables of the plan of their layout.** -/
theorem Valid.allocates_freshVariables {wide : Prop} (h : s.Valid base) {shapes : List Shape}
    (hw : ∀ shape ∈ shapes, 1 ≤ shape.width)
    (hwide : s.layout = .sequential → ∀ shape ∈ shapes, maxNodes < base + shape.width → wide) :
    Allocates base wide s (freshVariables shapes) (Layout.total (shapes.map Shape.width))
      fun ts t => List.Forall₂ (fun r p => Fresh t p.2 r p.1) ts
        ((s.layout.plan (s.numVars + 1) (shapes.map Shape.width)).zip shapes) := by
  cases hlayout : s.layout with
  | interleaved =>
    exact (h.allocates_interleaved hw).of_eq (freshVariables_of_interleaved shapes hlayout)
      (freshVariables_of_interleaved (s := unlimited s) shapes hlayout)
  | sequential =>
    exact (h.allocates_sequential shapes hw (hwide hlayout)).of_eq
      (freshVariables_of_sequential shapes hlayout)
      (freshVariables_of_sequential (s := unlimited s) shapes hlayout)

end Solver

end Stimulus

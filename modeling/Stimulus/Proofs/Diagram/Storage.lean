import Stimulus.Diagram.Store

/-!
# The limit of the storage

A computation on a state with a store that has a limit goes as it does without the limit,
until a new node finds no index left. So it yields what it yields without the limit, and
ends in one of two ways (`Yields`): within the limit it has gone through, and beyond the
limit it has met the full storage, while the run without the limit shows more nodes than
there are indexes (`Outgrows`). Computations compose in this respect (`Yields.bind`).

A computation that takes new variables has a third way to end: the numbers of variables
may run out (`RunsOut`). Under the limit it meets the full storage before, as every
variable has a node (`Exceeds`).
-/

set_option autoImplicit false

namespace Stimulus.Diagram

/-- States that have a store among their parts. -/
class HasStore (σ : Type) where
  store : σ → Store
  withStore : σ → Store → σ

instance Store.hasStore : HasStore Store where
  store s := s
  withStore _ t := t

/-- The same store without the limit on its nodes. -/
def Store.unbounded (s : Store) : Store := { s with bounded := false }

theorem Store.unbounded_eq_self {s : Store} (h : s.bounded = false) : s.unbounded = s := by
  cases s
  cases h
  rfl

export HasStore (store withStore)

/-- The same state without the limit on the nodes of its store. -/
abbrev unlimited {σ : Type} [HasStore σ] (s : σ) : σ := withStore s (store s).unbounded

section

variable {σ α β : Type} {x : StateT σ (Except Fault) α} {k : α → StateT σ (Except Fault) β}
  {q : σ → Except Fault α} {s t u : σ} {a : α} {b : β}

/-! ## Computations that have gone through -/

theorem bind_of_ok (h : x s = .ok (a, t)) : (x >>= k) s = k a t := by
  show (x s >>= fun p => k p.1 p.2) = _
  rw [h]
  rfl

theorem bind_of_error {fault : Fault} (h : x s = .error fault) :
    (x >>= k) s = .error fault := by
  show (x s >>= fun p => k p.1 p.2) = _
  rw [h]
  rfl

theorem exists_of_bind (h : (x >>= k) s = .ok (b, u)) :
    ∃ a t, x s = .ok (a, t) ∧ k a t = .ok (b, u) := by
  have h : (x s >>= fun p => k p.1 p.2) = .ok (b, u) := h
  cases hx : x s with
  | error fault =>
    rw [hx] at h
    cases h
  | ok p =>
    rw [hx] at h
    exact ⟨p.1, p.2, rfl, h⟩

/-! ## Ends of computations -/

variable [HasStore σ]

/-- The storage is full before the computation ends, which takes more nodes than there are
indexes. -/
def Outgrows (s : σ) (x : StateT σ (Except Fault) α) : Prop :=
  x s = .error .storageExhausted ∧
    ∃ a t, x (unlimited s) = .ok (a, t) ∧ maxNodes < (store t).nodes.size

theorem not_outgrows_of_isOk (h : (x s).isOk = true) : ¬ Outgrows s x := by
  rintro ⟨hfull, -⟩
  rw [hfull] at h
  cases h

/-- The computation yields a result and a state: it ends with them within the limit, or would do so
without the limit, which they exceed. -/
inductive Yields (s : σ) (x : StateT σ (Except Fault) α) (a : α) (t : σ) : Prop where
  | within (run : x s = .ok (a, t)) (free : x (unlimited s) = .ok (a, unlimited t))
    (same : (store t).bounded = (store s).bounded) : Yields s x a t
  | beyond (limit : (store s).bounded = true) (run : x s = .error .storageExhausted)
    (free : x (unlimited s) = .ok (a, t)) (same : (store t).bounded = false)
    (size : maxNodes < (store t).nodes.size) : Yields s x a t

/-- One computation after another, when the second one leaves no fewer nodes. -/
theorem Yields.bind (hx : Yields s x a t) (hk : Yields t (k a) b u)
    (hsize : (store t).nodes.size ≤ (store u).nodes.size) : Yields s (x >>= k) b u := by
  cases hx with
  | within run free same =>
    cases hk with
    | within run' free' same' =>
      exact .within ((bind_of_ok run).trans run') ((bind_of_ok free).trans free')
        (same'.trans same)
    | beyond limit' run' free' same' size' =>
      exact .beyond (same.symm.trans limit') ((bind_of_ok run).trans run')
        ((bind_of_ok free).trans free') same' size'
  | beyond limit run free same size =>
    cases hk with
    | within run' _ same' =>
      exact .beyond limit (bind_of_error run) ((bind_of_ok free).trans run')
        (same'.trans same) (Nat.lt_of_lt_of_le size hsize)
    | beyond limit' =>
      rw [same] at limit'
      cases limit'

/-- A computation that does on one state what another one does on a second state. -/
theorem Yields.of_eq {y : StateT σ (Except Fault) α} (h : Yields t y a u) (hrun : x s = y t)
    (hfree : x (unlimited s) = y (unlimited t))
    (hsame : (store t).bounded = (store s).bounded) : Yields s x a u := by
  cases h with
  | within run free same =>
    exact .within (hrun.trans run) (hfree.trans free) (same.trans hsame)
  | beyond limit run free same size =>
    exact .beyond (hsame.symm.trans limit) (hrun.trans run) (hfree.trans free) same size

/-- What a computation yields, once it has gone through. -/
theorem Yields.eq_of_run {a' : α} {t' : σ} (h : Yields s x a t) (hr : x s = .ok (a', t')) :
    a' = a ∧ t' = t ∧ (store t).bounded = (store s).bounded := by
  cases h with
  | within run _ same =>
    rw [hr] at run
    cases run
    exact ⟨rfl, rfl, same⟩
  | beyond _ run =>
    rw [hr] at run
    cases run

/-- A computation goes through or outgrows the storage. -/
theorem Yields.run_or_outgrows (h : Yields s x a t) :
    x s = .ok (a, t) ∧ (store t).bounded = (store s).bounded ∨ Outgrows s x := by
  cases h with
  | within run _ same => exact Or.inl ⟨run, same⟩
  | beyond _ run free _ size => exact Or.inr ⟨run, a, t, free, size⟩

/-- A computation that keeps the limit goes through. -/
theorem Yields.run_of_bounded (h : Yields s x a t)
    (hsame : (store t).bounded = (store s).bounded) : x s = .ok (a, t) := by
  cases h with
  | within run => exact run
  | beyond limit _ _ same =>
    rw [same, limit] at hsame
    cases hsame

/-! ## Variables without numbers -/

/-- The storage is full before the computation ends, which takes more nodes than there are indexes,
or more variables than there are numbers. -/
def Exceeds (s : σ) (x : StateT σ (Except Fault) α) : Prop :=
  x s = .error .storageExhausted ∧
    ((∃ a t, x (unlimited s) = .ok (a, t) ∧ maxNodes < (store t).nodes.size) ∨
      ∃ number, lastVariable < number ∧ x (unlimited s) = .error (.badVariable number))

theorem Outgrows.exceeds (h : Outgrows s x) : Exceeds s x := ⟨h.1, Or.inl h.2⟩

theorem not_exceeds_of_isOk (h : (x s).isOk = true) : ¬ Exceeds s x := by
  rintro ⟨hfull, -⟩
  rw [hfull] at h
  cases h

/-- The numbers of variables run out. Under the limit the storage is full before, except where
`wide` allows for terms with more bits than there can be nodes. -/
def RunsOut (wide : Prop) (s : σ) (x : StateT σ (Except Fault) α) : Prop :=
  ∃ number, lastVariable < number ∧ x (unlimited s) = .error (.badVariable number) ∧
    ((store s).bounded = true ∧ x s = .error .storageExhausted ∨
      ((store s).bounded = true → wide) ∧ x s = .error (.badVariable number))

variable {wide : Prop}

theorem RunsOut.bind (h : RunsOut wide s x) : RunsOut wide s (x >>= k) := by
  obtain ⟨number, hnumber, hfree, hrun⟩ := h
  refine ⟨number, hnumber, bind_of_error hfree, ?_⟩
  exact hrun.imp (fun h => ⟨h.1, bind_of_error h.2⟩) fun h => ⟨h.1, bind_of_error h.2⟩

/-- The second of two computations takes the variables without numbers. -/
theorem Yields.runsOut_bind (hx : Yields s x a t) (hk : RunsOut wide t (k a)) :
    RunsOut wide s (x >>= k) := by
  obtain ⟨number, hnumber, hfree', hrun'⟩ := hk
  cases hx with
  | within run free same =>
    refine ⟨number, hnumber, (bind_of_ok free).trans hfree', ?_⟩
    rw [← same, bind_of_ok run]
    exact hrun'
  | beyond limit run free same =>
    rcases hrun' with ⟨hbounded, -⟩ | ⟨-, hrun'⟩
    · rw [same] at hbounded
      cases hbounded
    · exact ⟨number, hnumber, (bind_of_ok free).trans hrun', Or.inl ⟨limit, bind_of_error run⟩⟩

/-- Under the limit the storage is full before the numbers of variables run out. -/
theorem RunsOut.exceeds (h : RunsOut False s x) (hs : (store s).bounded = true) : Exceeds s x := by
  obtain ⟨number, hnumber, hfree, ⟨-, hrun⟩ | ⟨hwide, -⟩⟩ := h
  · exact ⟨hrun, Or.inr ⟨number, hnumber, hfree⟩⟩
  · exact absurd (hwide hs) id

/-- The computation asks for a variable without a number. -/
def Overflows (x : Except Fault α) : Prop :=
  ∃ number, lastVariable < number ∧ x = .error (.badVariable number)

theorem RunsOut.exceeds_or_overflows (h : RunsOut wide s x) : Exceeds s x ∨ Overflows (x s) := by
  obtain ⟨number, hnumber, hfree, ⟨-, hrun⟩ | ⟨-, hrun⟩⟩ := h
  · exact Or.inl ⟨hrun, Or.inr ⟨number, hnumber, hfree⟩⟩
  · exact Or.inr ⟨number, hnumber, hrun⟩

theorem RunsOut.not_ok (h : RunsOut wide s x) : x s ≠ .ok (a, t) := by
  obtain ⟨number, -, -, ⟨-, hrun⟩ | ⟨-, hrun⟩⟩ := h
  · exact fun hr => nomatch hrun.symm.trans hr
  · exact fun hr => nomatch hrun.symm.trans hr

end

section Ask

variable {α : Type} {q : Store → Except Fault α} {s t : Store} {a : α}

theorem ask_eq_ok : ask q s = .ok (a, t) ↔ q s = .ok a ∧ t = s := by
  have hrun : ask q s = (q s).map fun a => (a, s) := rfl
  rw [hrun]
  cases q s with
  | error fault => exact ⟨(nomatch ·), fun h => nomatch h.1⟩
  | ok a' =>
    constructor
    · intro h
      cases h
      exact ⟨rfl, rfl⟩
    · rintro ⟨h, rfl⟩
      cases h
      rfl

end Ask

/-! ## The limit is all that a store with a limit knows -/

/-- On a store with a limit the computation goes as it does without the limit, as long as it meets
no full storage, and keeps the limit. -/
structure Heeds {α : Type} (x : Build α) : Prop where
  ends : ∀ {s t : Store} {a : α}, s.bounded = true → x s = .ok (a, t) →
    x s.unbounded = .ok (a, t.unbounded) ∧ t.bounded = true ∧
      (s.nodes.size ≤ maxNodes → t.nodes.size ≤ maxNodes)
  fails : ∀ {s : Store} {fault : Fault}, s.bounded = true → x s = .error fault →
    fault = .storageExhausted ∨ x s.unbounded = .error fault

section Heeds

variable {α β : Type} {x : Build α} {k : α → Build β} {a : α} {s t : Store}

open Store

theorem heeds_lift (y : Except Fault α) : Heeds (liftM y : Build α) := by
  cases y with
  | error fault => exact ⟨fun _ h => (nomatch h), fun _ h => Or.inr h⟩
  | ok a =>
    refine ⟨fun hs h => ?_, fun _ h => nomatch h⟩
    cases h
    exact ⟨rfl, hs, id⟩

theorem heeds_pure (a : α) : Heeds (pure a : Build α) := heeds_lift (.ok a)

/-- A question that the limit does not matter to. -/
theorem heeds_ask {q : Store → Except Fault α} (hq : ∀ s : Store, q s.unbounded = q s) :
    Heeds (ask q) where
  ends hs h := by
    obtain ⟨ha, rfl⟩ := ask_eq_ok.1 h
    exact ⟨ask_eq_ok.2 ⟨(hq _).trans ha, rfl⟩, hs, id⟩
  fails := by
    intro s fault _ h
    have hrun : ∀ s, ask q s = (q s).map fun a => (a, s) := fun _ => rfl
    rw [hrun] at h ⊢
    rw [hq]
    cases hqs : q s with
    | error fault' =>
      rw [hqs] at h
      cases h
      exact .inr rfl
    | ok a =>
      rw [hqs] at h
      cases h

/-- A computation that goes on with a look at the store, but not at its limit. -/
theorem heeds_get_bind {k : Store → Build α} (hk : ∀ s, Heeds (k s))
    (hfree : ∀ s : Store, k s.unbounded = k s) : Heeds (get >>= k) where
  ends := by
    intro s t a hs h
    have hends := (hk s).ends hs h
    rw [← hfree s] at hends
    exact hends
  fails := by
    intro s fault hs h
    have hfails := (hk s).fails hs h
    rw [← hfree s] at hfails
    exact hfails

/-- A computation that changes neither the nodes nor the limit. -/
theorem heeds_modify {f : Store → Store} (hnodes : ∀ s, (f s).nodes = s.nodes)
    (hbounded : ∀ s, (f s).bounded = s.bounded)
    (hfree : ∀ s : Store, f s.unbounded = (f s).unbounded) : Heeds (modify f) where
  ends := by
    intro s t a hs h
    cases h
    refine ⟨?_, (hbounded s).trans hs, fun hsize => by rwa [hnodes]⟩
    rw [← hfree]
    rfl
  fails _ h := nomatch h

theorem Heeds.bind (hx : Heeds x) (hk : ∀ a, Heeds (k a)) : Heeds (x >>= k) where
  ends := by
    intro s u b hs h
    obtain ⟨a, t, hr, hr'⟩ := exists_of_bind h
    obtain ⟨hfree, ht, hsize⟩ := hx.ends hs hr
    obtain ⟨hfree', hu, hsize'⟩ := (hk a).ends ht hr'
    exact ⟨(bind_of_ok hfree).trans hfree', hu, fun h => hsize' (hsize h)⟩
  fails := by
    intro s fault hs h
    cases hr : x s with
    | error fault' =>
      rw [bind_of_error hr] at h
      cases h
      exact (hx.fails hs hr).imp_right bind_of_error
    | ok p =>
      rw [bind_of_ok hr] at h
      obtain ⟨hfree, ht, -⟩ := hx.ends hs hr
      exact ((hk p.1).fails ht h).imp_right (bind_of_ok hfree).trans

/-- A computation that heeds the limit yields what it ends with. -/
theorem Heeds.yields_of_run (hx : Heeds x) (hr : x s = .ok (a, t)) (hsame : t.bounded = s.bounded) :
    Yields s x a t := by
  cases hs : s.bounded with
  | true => exact .within hr (hx.ends hs hr).1 hsame
  | false =>
    refine .within hr ?_ hsame
    show x s.unbounded = .ok (a, t.unbounded)
    rw [unbounded_eq_self hs, unbounded_eq_self (hsame.trans hs), hr]

/-- A computation that heeds the limit meets the full storage where it would exceed the limit. -/
theorem Heeds.yields_of_free (hx : Heeds x) (hs : s.bounded = true)
    (hsize : s.nodes.size ≤ maxNodes) (hr : x s.unbounded = .ok (a, t)) (ht : t.bounded = false)
    (hbeyond : maxNodes < t.nodes.size) : Yields s x a t := by
  cases hrun : x s with
  | error fault =>
    rcases hx.fails hs hrun with rfl | hfree
    · exact .beyond hs hrun hr ht hbeyond
    · rw [hr] at hfree
      cases hfree
  | ok p =>
    obtain ⟨hfree, -, hkept⟩ := hx.ends hs hrun
    rw [hr] at hfree
    cases hfree
    exact absurd (hkept hsize) (Nat.not_le_of_lt hbeyond)

end Heeds

end Stimulus.Diagram

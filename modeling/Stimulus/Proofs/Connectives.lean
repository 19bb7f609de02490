import Stimulus.Proofs.Runs

/-!
# Connectives in runs

In every store that a run reaches, a case split of three edges gives an edge
whose value is the case split of their values (`Store.Reached.exact_and_undisturbed`),
and conjunction, disjunction, exclusive disjunction, equivalence and the folds over
lists give what their names say, as long as there are indexes for the nodes that they
need. The values are those in the new store, but they
might as well be those in the old one: a call keeps every old edge
(`Store.Keeps`), its variable, its children and its values
(`Store.Reached.keeps`). The children are the point where growth alone says too
little, since the terminal has children too; so runs are followed back to the
empty store, where the terminal is its own child (`Store.Reached.has_children`).
-/

set_option autoImplicit false

namespace Stimulus.Diagram

namespace Store

variable {s t u : Store} {e f g h : Edge} {n : Node}

/-! ## Old edges -/

/-- Every edge of `s` leads to a node of `t`, on the same variable, with the same children and with
the same values. -/
structure Keeps (s t : Store) : Prop where
  /-- The edge is still there. -/
  has : ∀ e, s.Has e → t.Has e
  /-- The variable of its node is the same. -/
  var : ∀ e, s.Has e → ∃ v, s.var e = .ok v ∧ t.var e = .ok v
  /-- The side where the variable is false is the same. -/
  low : ∀ e, s.Has e → ∃ c, s.low e = .ok c ∧ t.low e = .ok c
  /-- The side where the variable is true is the same. -/
  high : ∀ e, s.Has e → ∃ c, s.high e = .ok c ∧ t.high e = .ok c
  /-- The values are the same. -/
  evaluate : ∀ e, s.Has e → ∀ ρ, ∃ b, s.evaluate e ρ = .ok b ∧ t.evaluate e ρ = .ok b

/-- A child seen through an edge, in a store that has it. -/
theorem low_of_get? (hn : s.nodes[e.index]? = some n) (hl : s.Has n.low) :
    s.low e = .ok (e.along n.low) := by
  simp only [low, node_of_get? hn]
  exact through_of_has hl e

theorem high_of_get? (hn : s.nodes[e.index]? = some n) (hh : s.Has n.high) :
    s.high e = .ok (e.along n.high) := by
  simp only [high, node_of_get? hn]
  exact through_of_has hh e

theorem var_of_get? (hn : s.nodes[e.index]? = some n) : s.var e = .ok n.var := by
  simp only [var, node_of_get? hn]
  rfl

/-- The store holds everything that a new store holds. -/
theorem Reached.growsTo (h : s.Reached) : empty.GrowsTo s := by
  induction h with
  | new hnew =>
    unfold withCapacity at hnew
    split at hnew
    · cases hnew
      exact GrowsTo.refl empty
    · cases hnew
  | call hs hc hr ih =>
    exact ih.trans ((hs.valid.gives_call hc).of_run hr).2.1

/-- The children of every node are edges of the store; those of the terminal are the terminal. -/
theorem Reached.has_children (h : s.Reached) (he : s.Has e) (hn : s.nodes[e.index]? = some n) :
    s.Has n.low ∧ s.Has n.high := by
  cases ht : e.isTerminal with
  | true =>
    have hone := h.growsTo 1 ⟨0, .one, .one⟩ rfl
    rw [(Edge.isTerminal_iff_index e).1 ht, hone] at hn
    cases hn
    exact ⟨h.valid.reduced.has_one, h.valid.reduced.has_one⟩
  | false =>
    have hf := h.valid.reduced.form _ n (he.two_le ht) hn
    exact ⟨hf.has_low he, hf.has_high he⟩

/-- A store that a run reaches keeps its edges when it grows. -/
theorem Reached.keeps_of_growsTo (h : s.Reached) (hst : s.GrowsTo t) : s.Keeps t where
  has e he := hst.has he
  var e he := by
    obtain ⟨n, hn⟩ := he.get?
    exact ⟨n.var, var_of_get? hn, var_of_get? (hst _ n hn)⟩
  low e he := by
    obtain ⟨n, hn⟩ := he.get?
    have hl := (h.has_children he hn).1
    exact ⟨_, low_of_get? hn hl, low_of_get? (hst _ n hn) (hst.has hl)⟩
  high e he := by
    obtain ⟨n, hn⟩ := he.get?
    have hh := (h.has_children he hn).2
    exact ⟨_, high_of_get? hn hh, high_of_get? (hst _ n hn) (hst.has hh)⟩
  evaluate e he ρ := by
    obtain ⟨φ, hφ⟩ := h.valid.reduced.denotes he
    exact ⟨φ ρ, hφ.evaluate ρ, (hφ.grow h.valid.reduced hst).evaluate ρ⟩

/-- A legal call on a store that a run reaches goes through and keeps the old edges, unless it
outgrows the storage. -/
theorem Reached.keeps (h : s.Reached) {c : Call} (hc : s.Allows c) :
    (∃ es t, c.run s = .ok (es, t) ∧ t.Reached ∧ HasAll es t ∧ s.Keeps t) ∨
      Outgrows s c.run := by
  rcases h.run_or_outgrows hc with ⟨es, t, hr, ht, hst, hes⟩ | hfull
  · exact .inl ⟨es, t, hr, ht, hes, h.keeps_of_growsTo hst⟩
  · exact .inr hfull

/-! ## Values of results -/

/-- The computation ends with an edge of a store that a run reaches and that keeps the edges of
`s`, and the values of the edge are there those of the expression `value`; or it outgrows the
storage. -/
def Computes (s : Store) (x : Build Edge) (value : Store → Assignment → Except Fault Bool) : Prop :=
  (∃ e t, x s = .ok (e, t) ∧ t.Reached ∧ s.Keeps t ∧ t.Has e ∧
    ∀ ρ, ∃ b, value t ρ = .ok b ∧ t.evaluate e ρ = .ok b) ∨ Outgrows s x

/-- What a call that gives one edge computes, from the function that the edge denotes. -/
theorem Reached.computes (h : s.Reached) {c : Call} {x : Build Edge} {φ : Assignment → Bool}
    {value : Store → Assignment → Except Fault Bool} (hc : s.Allows c) (hrun : c.run = Call.edge x)
    (hx : s.Gives x fun e t => t.Denotes e φ)
    (hvalue : ∀ t, s.GrowsTo t → ∀ ρ, value t ρ = .ok (φ ρ)) : s.Computes x value := by
  rcases hx.run_or_outgrows with ⟨e, t, hr, -, -, hst, he⟩ | hfull
  · have hcall : c.run s = .ok ([e], t) := hrun ▸ bind_of_ok hr
    exact .inl ⟨e, t, hr, h.call hc hcall, h.keeps_of_growsTo hst, he.has,
      fun ρ => ⟨φ ρ, hvalue t hst ρ, he.evaluate ρ⟩⟩
  · exact .inr hfull

/-- The values of a list of edges. -/
def evaluateAll (s : Store) (fs : List Edge) (ρ : Assignment) : Except Fault (List Bool) :=
  fs.mapM (s.evaluate · ρ)

theorem evaluateAll_eq {φs : List (Assignment → Bool)} {fs : List Edge}
    (hfs : List.Forall₂ s.Denotes fs φs) (ρ : Assignment) :
    s.evaluateAll fs ρ = .ok (φs.map (· ρ)) := by
  unfold evaluateAll
  induction hfs with
  | nil => rfl
  | cons hf _ ih =>
    rw [List.mapM_cons, hf.evaluate, ih]
    rfl

theorem Reached.computes_choose (hs : s.Reached) (hf : s.Has f) (hg : s.Has g) (hh : s.Has h) :
    s.Computes (choose f g h) (fun t ρ => do
      if ← t.evaluate f ρ then t.evaluate g ρ else t.evaluate h ρ) := by
  have hr := hs.valid.reduced
  obtain ⟨φ, hφ⟩ := hr.denotes hf
  obtain ⟨ψ, hψ⟩ := hr.denotes hg
  obtain ⟨χ, hχ⟩ := hr.denotes hh
  refine hs.computes (c := .choose f g h) ⟨hf, hg, hh⟩ rfl (hs.valid.gives_choose hφ hψ hχ)
    fun t hst ρ => ?_
  rw [(hφ.grow hr hst).evaluate, (hψ.grow hr hst).evaluate, (hχ.grow hr hst).evaluate]
  cases hb : φ ρ <;> rfl

theorem Reached.computes_connectives (hs : s.Reached) (hf : s.Has f) (hg : s.Has g) :
    s.Computes (conj f g) (fun t ρ => return (← t.evaluate f ρ) && (← t.evaluate g ρ)) ∧
    s.Computes (disj f g) (fun t ρ => return (← t.evaluate f ρ) || (← t.evaluate g ρ)) ∧
    s.Computes (differ f g) (fun t ρ => return (← t.evaluate f ρ) != (← t.evaluate g ρ)) ∧
    s.Computes (agree f g) (fun t ρ => return (← t.evaluate f ρ) == (← t.evaluate g ρ)) := by
  have hr := hs.valid.reduced
  obtain ⟨φ, hφ⟩ := hr.denotes hf
  obtain ⟨ψ, hψ⟩ := hr.denotes hg
  -- every connective reads the values of both edges in the new store
  have hvalues : ∀ (o : Bool → Bool → Bool) t, s.GrowsTo t → ∀ ρ,
      (do return o (← t.evaluate f ρ) (← t.evaluate g ρ)) = Except.ok (o (φ ρ) (ψ ρ)) := by
    intro o t hst ρ
    rw [(hφ.grow hr hst).evaluate, (hψ.grow hr hst).evaluate]
    rfl
  exact ⟨
    hs.computes (c := .conj f g) ⟨hf, hg⟩ rfl (hs.valid.gives_conj hφ hψ) (hvalues and),
    hs.computes (c := .disj f g) ⟨hf, hg⟩ rfl (hs.valid.gives_disj hφ hψ) (hvalues or),
    hs.computes (c := .differ f g) ⟨hf, hg⟩ rfl (hs.valid.gives_differ hφ hψ) (hvalues bne),
    hs.computes (c := .agree f g) ⟨hf, hg⟩ rfl (hs.valid.gives_agree hφ hψ) (hvalues BEq.beq)⟩

theorem Reached.computes_folds (hs : s.Reached) {fs : List Edge} (hfs : ∀ f ∈ fs, s.Has f) :
    s.Computes (conjAll fs) (fun t ρ => return (← t.evaluateAll fs ρ).all id) ∧
    s.Computes (disjAll fs) (fun t ρ => return (← t.evaluateAll fs ρ).any id) := by
  have hr := hs.valid.reduced
  obtain ⟨X, hX⟩ := hr.spells fs hfs
  obtain ⟨φs, hφs, -⟩ := hX.any
  have hvalues : ∀ t, s.GrowsTo t → ∀ ρ, t.evaluateAll fs ρ = .ok (φs.map (· ρ)) :=
    fun t hst => evaluateAll_eq (hφs.imp fun _ _ h => h.grow hr hst)
  constructor
  · refine hs.computes (c := .conjAll fs) hfs rfl (hs.valid.gives_conjAll hφs) fun t hst ρ => ?_
    rw [hvalues t hst]
    exact congrArg Except.ok List.all_map
  · refine hs.computes (c := .disjAll fs) hfs rfl (hs.valid.gives_disjAll hφs) fun t hst ρ => ?_
    rw [hvalues t hst]
    exact congrArg Except.ok List.any_map

/-- **Case splits and connectives are exact in every store that a run reaches, and no call disturbs
an old edge.** A call that ends without a result has outgrown the storage. -/
theorem Reached.exact_and_undisturbed (hs : s.Reached) :
    (∀ f g h, s.Has f → s.Has g → s.Has h →
      s.Computes (choose f g h) (fun t ρ => do
        if ← t.evaluate f ρ then t.evaluate g ρ else t.evaluate h ρ)) ∧
    (∀ f g, s.Has f → s.Has g →
      s.Computes (conj f g) (fun t ρ => return (← t.evaluate f ρ) && (← t.evaluate g ρ)) ∧
      s.Computes (disj f g) (fun t ρ => return (← t.evaluate f ρ) || (← t.evaluate g ρ)) ∧
      s.Computes (differ f g) (fun t ρ => return (← t.evaluate f ρ) != (← t.evaluate g ρ)) ∧
      s.Computes (agree f g) (fun t ρ => return (← t.evaluate f ρ) == (← t.evaluate g ρ))) ∧
    (∀ fs, (∀ f ∈ fs, s.Has f) →
      s.Computes (conjAll fs) (fun t ρ => return (← t.evaluateAll fs ρ).all id) ∧
      s.Computes (disjAll fs) (fun t ρ => return (← t.evaluateAll fs ρ).any id)) ∧
    ∀ c, s.Allows c →
      (∃ es t, c.run s = .ok (es, t) ∧ t.Reached ∧ HasAll es t ∧ s.Keeps t) ∨
        Outgrows s c.run :=
  ⟨fun _ _ _ => hs.computes_choose, fun _ _ => hs.computes_connectives,
    fun _ => hs.computes_folds, fun _ => hs.keeps⟩

/-- The literal of the first variable, and its exclusive disjunction with true. -/
theorem firstLiteral_exact_and_undisturbed :
    firstLiteral.evaluate (.ofIndex 2) (· == 1) = .ok true ∧
      ∃ e t, differ (.ofIndex 2) .one firstLiteral = .ok (e, t) ∧
        t.evaluate e (· == 1) = .ok false := by
  have h := reached_firstLiteral.exact_and_undisturbed
  have hdiffer := (h.2.1 (.ofIndex 2) .one ⟨by decide, by decide⟩ ⟨by decide, by decide⟩).2.2.1
  obtain ⟨e, t, hr, -, hkeeps, -, hvalue⟩ :=
    hdiffer.resolve_right (not_outgrows_of_isOk (by decide +kernel))
  obtain ⟨b, hb, hb'⟩ := hkeeps.evaluate (.ofIndex 2) ⟨by decide, by decide⟩ (· == 1)
  cases hb
  obtain ⟨c, hc, hc'⟩ := hkeeps.evaluate .one ⟨by decide, by decide⟩ (· == 1)
  cases hc
  obtain ⟨d, hd, hd'⟩ := hvalue (· == 1)
  simp only [hb', hc'] at hd
  cases hd
  exact ⟨rfl, e, t, hr, hd'⟩

end Store

end Stimulus.Diagram

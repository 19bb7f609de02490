import Stimulus.Proofs.Connectives
import Stimulus.Proofs.Diagram.Recursion

/-!
# Case splits end

On every store that a run reaches, the recursion of a case split is well founded and nothing that it
asserts fails (`Store.Reached.recursion_ends`). All case splits that come up are on edges of stores
that a run reaches. Where one is split, its top variable lies before the last one, although nodes on
the last variable are on the level of the constants; its edges start at that variable or later; and
the node that joins the two sides has a variable before both.
-/

set_option autoImplicit false

namespace Stimulus.Diagram.Store

variable {s t : Store} {c d u : Triple} {e f g h : Edge} {v : Nat}

/-- What is asserted on the way from an open case split to its node. -/
structure SplitsAt (s : Store) (u : Triple) (v : Nat) : Prop where
  /-- The case split is on a variable, and not on the level of the constants. -/
  top : s.top u = .ok v
  before_last : v < lastVariable
  /-- Cofactors are taken of edges that start later, or at a node of the variable. -/
  starts : ∀ e ∈ [u.test, u.yes, u.no], (∃ l, s.level e = .ok l ∧ v < l) ∨ s.var e = .ok v
  /-- The answers to both sides are joined by a variable before both. -/
  sides : ∃ lo hi, s.split u v = .ok (lo, hi) ∧ ∀ low high t t', lo.answer s = .ok (low, t) →
    hi.answer t = .ok (high, t') → t'.Allows (.branch v low high)

/-- An edge that does not start before a variable starts after it, or at a node of it. -/
theorem starts_of_level {l : Nat} (hl : s.level e = .ok l) (hvl : v ≤ l) (hv : v < lastVariable) :
    (∃ l, s.level e = .ok l ∧ v < l) ∨ s.var e = .ok v := by
  rcases Nat.lt_or_eq_of_le hvl with hlt | rfl
  · exact .inl ⟨l, hl, hlt⟩
  · refine .inr ?_
    unfold level at hl
    split at hl
    · cases hl
      exact absurd hv (Nat.lt_irrefl _)
    · exact hl

/-- **Nothing that is asserted of an open case split fails.** -/
theorem Splits.splitsAt {φ ψ χ : Assignment → Bool} (h : s.Splits u φ ψ χ) (hs : s.Valid)
    (ho : u.Open) : ∃ v, s.SplitsAt u v := by
  obtain ⟨v, l₁, l₂, l₃, h₁, h₂, h₃, hv, hpos, hlast, htop⟩ := h.top hs.reduced ho
  obtain ⟨v', lo, hi, htop', hsplit, -, -, -, -, hside⟩ := h.split hs.reduced ho
  cases htop.symm.trans htop'
  obtain ⟨φ₀, ψ₀, χ₀, hlo, -, hi₀⟩ := hside false
  obtain ⟨φ₁, ψ₁, χ₁, hhi, -, hi₁⟩ := hside true
  refine ⟨v, htop, hlast, fun e he => ?_, lo, hi, hsplit, fun low high t t' hrun hrun' => ?_⟩
  · simp only [List.mem_cons, List.not_mem_nil, or_false] at he
    rcases he with rfl | rfl | rfl
    · exact starts_of_level h₁ (by omega) hlast
    · exact starts_of_level h₂ (by omega) hlast
    · exact starts_of_level h₃ (by omega) hlast
  · obtain ⟨ht, hst, hlow⟩ := (hs.gives_choose hlo.test hlo.yes hlo.no).of_run hrun
    have hhi' := hhi.grow hs.reduced hst
    obtain ⟨ht', htt', hhigh⟩ := (ht.gives_choose hhi'.test hhi'.yes hhi'.no).of_run hrun'
    have hlow' := hlow.grow ht.reduced htt'
    -- the answers ignore the variable and all before it, so they start later
    have hlowUnder : t'.Under v low := hlow'.under ht'.reduced fun x _ hx => hi₀ x hx
    have hhighUnder : t'.Under v high := hhigh.under ht'.reduced fun x _ hx => hi₁ x hx
    exact ⟨⟨hpos, Nat.le_of_lt hlast⟩, ⟨hlow'.has, hlowUnder⟩, hhigh.has, hhighUnder⟩

/-- The answer to a case split leads to a store that a run reaches. -/
theorem Reached.of_answer (hs : s.Reached) (hc : s.HasAllOf c) (hr : c.answer s = .ok (e, t)) :
    t.Reached := by
  have hrun : (Call.choose c.test c.yes c.no).run s = .ok ([e], t) := bind_of_ok hr
  exact hs.call (c := .choose c.test c.yes c.no) hc hrun

/-- What a case split of a run asks is a case split of a run. -/
theorem Reached.asks (hs : s.Reached) (hc : s.HasAllOf c)
    (h : Triple.Asks Triple.answer (s, c) (t, d)) : t.Reached ∧ t.HasAllOf d := by
  obtain ⟨-, hd, -⟩ := hs.valid.asks hc (answersBelow_answer _) h
  refine ⟨?_, hd⟩
  cases h with
  | again _ => exact hs
  | finish hlook hasks =>
    have hreduce := Triple.reduce_of_look_done hlook
    cases hasks with
    | low _ _ _ => exact hs
    | high _ htop hsplit hrun =>
      obtain ⟨_, _, _, htop', hsplit', hlo, -⟩ := exists_sides hs.valid.reduced hc hreduce
      cases htop.symm.trans htop'
      cases hsplit.symm.trans hsplit'
      exact hs.of_answer hlo hrun

theorem Reached.asks_all (hs : s.Reached) (hc : s.HasAllOf c)
    (h : Relation.ReflTransGen (Triple.Asks Triple.answer) (s, c) (t, d)) :
    t.Reached ∧ t.HasAllOf d := by
  generalize hq : (t, d) = q at h
  induction h generalizing t d with
  | refl =>
    cases hq
    exact ⟨hs, hc⟩
  | @tail p q _ hasks ih =>
    subst hq
    obtain ⟨hp, hd⟩ := ih rfl
    exact hp.asks hd hasks

/-- **Case splits of a run end, and nothing that they assert fails.** The recursion is well founded,
where every rewriting of a repeated branch counts as a step of its own. All case splits that come up
are on edges of a store that a run reaches, and `choose` gives the answer that the recursion comes
to, or fails for want of storage where the answer takes more nodes than there are indexes. Each of
them that is split, since neither a rule settles it nor the table knows it, has a variable before
the last one on top, edges that start there or later, and sides whose answers are joined by this
variable before both. No other answers come out of the recursion. -/
theorem Reached.recursion_ends (hs : s.Reached) (hf : s.Has f) (hg : s.Has g) (hh : s.Has h) :
    Acc (fun q p => Triple.Asks Triple.answer p q) (s, ⟨f, g, h⟩) ∧
    (∀ t d, Relation.ReflTransGen (Triple.Asks Triple.answer) (s, ⟨f, g, h⟩) (t, d) →
      t.Reached ∧ t.HasAllOf d ∧ d.answer t = d.round Triple.answer t ∧
        ((∃ e u, d.answer t = .ok (e, u)) ∨ Outgrows t d.answer) ∧
        ∀ u negated, d.look = .done (.pending u negated) → t.computed[u]? = none →
          ∃ v, t.SplitsAt u v) ∧
    ∀ k : Triple → Build Edge,
      (∀ t d, Relation.ReflTransGen (Triple.Asks Triple.answer) (s, ⟨f, g, h⟩) (t, d) →
        k d t = d.round k t) → k ⟨f, g, h⟩ s = choose f g h s := by
  have hc : s.HasAllOf ⟨f, g, h⟩ := ⟨hf, hg, hh⟩
  refine ⟨hs.valid.acc_asks hc, fun t d hasks => ?_, fun k => hs.valid.eq_answer_of_round hc⟩
  obtain ⟨ht, hd⟩ := hs.asks_all hc hasks
  obtain ⟨φ, ψ, χ, hsplits⟩ := hd.splits ht.valid.reduced
  refine ⟨ht, hd, ht.valid.answer_eq_round hd, ?_, fun u negated hlook _ => ?_⟩
  · rcases (ht.valid.gives_choose hsplits.test hsplits.yes hsplits.no).run_or_outgrows with
      ⟨e, u, hrun, -⟩ | hfull
    · exact .inl ⟨e, u, hrun⟩
    · exact .inr hfull
  obtain ⟨hopen, -, φ', ψ', χ', hu, -⟩ :=
    hsplits.open_of_pending ht.valid.reduced (Triple.reduce_of_look_done hlook)
  exact hu.splitsAt ht.valid hopen

/-- The store with the literals of the first variable and of the last one. -/
def outerLiterals : Store where
  nodes := firstLiteral.nodes.push ⟨lastVariable, .zero, .one⟩
  unique := firstLiteral.unique.insert ⟨lastVariable, .zero, .one⟩ 3
  computed := ∅
  bounded := true

theorem reached_outerLiterals : outerLiterals.Reached := by
  have hallows : firstLiteral.Allows (.literal lastVariable) := ⟨by decide, Nat.le_refl _⟩
  have hrun : (Call.literal lastVariable).run firstLiteral =
    .ok ([.ofIndex 3], outerLiterals) := rfl
  exact reached_firstLiteral.call hallows hrun

/-- The exclusive disjunction of both literals is split on the first variable, and a case split
over the last variable alone comes to an end without being split. -/
theorem outerLiterals_recursion_ends :
    outerLiterals.Has (.ofIndex 2) ∧ outerLiterals.Has (.ofIndex 3) ∧
    outerLiterals.SplitsAt ⟨.ofIndex 2, .ofIndex 3, -.ofIndex 3⟩ 1 ∧
    Acc (fun q p => Triple.Asks Triple.answer p q)
      (outerLiterals, ⟨.ofIndex 3, .ofIndex 3, -.ofIndex 3⟩) := by
  have hfirst : outerLiterals.Has (.ofIndex 2) := ⟨by decide, by decide⟩
  have hlast : outerLiterals.Has (.ofIndex 3) := ⟨by decide, by decide⟩
  refine ⟨hfirst, hlast, ?_, (reached_outerLiterals.recursion_ends hlast hlast hlast.neg).1⟩
  obtain ⟨-, hall, -⟩ := reached_outerLiterals.recursion_ends hfirst hlast hlast.neg
  obtain ⟨-, -, -, -, hsplits⟩ := hall _ _ .refl
  obtain ⟨v, hv⟩ := hsplits _ false rfl rfl
  obtain rfl : v = 1 := by
    have htop := hv.top
    cases htop
    rfl
  exact hv

end Stimulus.Diagram.Store

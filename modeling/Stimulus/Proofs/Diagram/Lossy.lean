import Stimulus.Proofs.Diagram.Recomputation

/-!
# Lossy computations

A computation is lossy (`Loses`) if entries of the table get lost anywhere on its way,
also within a case split. Once a computation has gone through, its lossy forms repeat it
(`Loses.repeats`): they end with the same result and the same nodes, and on every later
store with the same result and no new node (`Store.Repeats`).

The computation may have been given edges that do not belong to the store, if only it has
gone through. Then its case splits were settled without a look at the nodes, or all their
edges belong to the store after all (`Store.chooseWithin_cases`).
-/

set_option autoImplicit false

namespace Stimulus.Diagram

namespace Store

variable {s t : Store} {c : Triple} {e f r : Edge} {v fuel : Nat}

/-! ## Case splits that have gone through -/

theorem Has.of_sharpen (hf : s.Has f) {g same opposite : Edge}
    (h : s.Has (Triple.sharpen f g same opposite)) : s.Has g := by
  unfold Triple.sharpen at h
  split at h
  · rename_i hg
    rwa [hg]
  · split at h
    · rename_i hg
      rw [hg]
      exact hf.neg
    · exact h

/-- The edges of a case split all belong to the store. -/
def HasAllOf (s : Store) (c : Triple) : Prop := s.Has c.test ∧ s.Has c.yes ∧ s.Has c.no

theorem HasAllOf.of_orient {d : Triple} {negated : Bool} (hd : s.HasAllOf d)
    (h : c.orient = .pending d negated) : s.HasAllOf c := by
  obtain ⟨htest, hyes, hno⟩ := hd
  -- the edges may change places and polarity, but not their nodes
  have hturn : s.HasAllOf c.turn := by
    have horient : (if c.turn.yes.isNegated then
        Reduction.pending ⟨c.turn.test, -c.turn.yes, -c.turn.no⟩ true else .pending c.turn false) =
          .pending d negated := h
    split at horient
    · cases horient
      exact ⟨htest, has_neg.1 hyes, has_neg.1 hno⟩
    · cases horient
      exact ⟨htest, hyes, hno⟩
  unfold Triple.turn at hturn
  split at hturn
  · exact ⟨has_neg.1 hturn.1, hturn.2.2, hturn.2.1⟩
  · exact hturn

theorem HasAllOf.of_reduce {d : Triple} {negated : Bool} (hd : s.HasAllOf d)
    (h : c.reduce = .pending d negated) : s.HasAllOf c := by
  have horient : Triple.orient ⟨c.test, Triple.sharpen c.test c.yes .one .zero,
      Triple.sharpen c.test c.no .zero .one⟩ = .pending d negated := by
    unfold Triple.reduce at h
    simp only at h
    split at h
    · cases h
    · split at h
      · cases h
      · split at h
        · cases h
        · split at h
          · cases h
          · split at h
            · cases h
            · exact h
  obtain ⟨htest, hyes, hno⟩ := hd.of_orient horient
  exact ⟨htest, .of_sharpen htest hyes, .of_sharpen htest hno⟩

/-- Only edges to nodes have a level other than zero, which the unused index has. -/
theorem has_of_level (hs : s.Reduced) (hempty : empty.GrowsTo s) {l : Nat} (h : s.level e = .ok l)
    (hl : l ≠ 0) : s.Has e := by
  unfold level at h
  split at h
  · rename_i ht
    exact ⟨Nat.le_of_eq ((Edge.isTerminal_iff_index e).1 ht).symm, by
      rw [(Edge.isTerminal_iff_index e).1 ht]
      exact hs.two_le_size⟩
  · unfold var node at h
    split at h
    · rename_i n hn
      refine ⟨Nat.pos_of_ne_zero fun hzero => ?_, (Array.getElem?_eq_some_iff.1 hn).1⟩
      have hunused := hempty 0 ⟨0, ⟨0⟩, ⟨0⟩⟩ rfl
      rw [hzero, hunused] at hn
      cases hn
      cases h
      exact hl rfl
    · cases h

/-- A case split with a top variable is one of edges that have levels. -/
theorem hasAllOf_of_top (hs : s.Reduced) (hempty : empty.GrowsTo s) (h : s.top c = .ok v)
    (hv : v ≠ 0) : s.HasAllOf c := by
  unfold top at h
  cases h₁ : s.level c.test with
  | error fault =>
    rw [h₁] at h
    cases h
  | ok l₁ =>
    cases h₂ : s.level c.yes with
    | error fault =>
      rw [h₁, h₂] at h
      cases h
    | ok l₂ =>
      cases h₃ : s.level c.no with
      | error fault =>
        rw [h₁, h₂, h₃] at h
        cases h
      | ok l₃ =>
        rw [h₁, h₂, h₃] at h
        change (if min l₁ (min l₂ l₃) = lastVariable then _ else pure _) = _ at h
        split at h
        · cases h
        · cases h
          exact ⟨has_of_level hs hempty h₁ (by omega), has_of_level hs hempty h₂ (by omega),
            has_of_level hs hempty h₃ (by omega)⟩

theorem ne_zero_of_branch (h : branch v e f s = .ok (r, t)) : v ≠ 0 ∧ v ≤ lastVariable := by
  by_cases hv : v = 0 ∨ lastVariable < v
  · unfold branch at h
    rw [if_pos hv] at h
    cases h
  · omega

/-- A case split that has gone through was settled, or all its edges belong to the store. -/
theorem chooseWithin_cases (hs : s.Valid) (hempty : empty.GrowsTo s)
    (h : chooseWithin fuel c s = .ok (e, t)) :
    s.checkTest c = .ok () ∧ c.reduce = .settled e ∧ t = s ∨ s.HasAllOf c := by
  cases fuel with
  | zero => cases h
  | succ fuel =>
    unfold chooseWithin at h
    obtain ⟨_, _, hask, hrest⟩ := exists_of_bind h
    obtain ⟨hcheck, rfl⟩ := ask_eq_ok.1 hask
    cases hr : c.reduce with
    | settled e' =>
      rw [hr] at hrest
      cases hrest
      exact .inl ⟨hcheck, rfl, rfl⟩
    | pending u negated =>
      rw [hr] at hrest
      refine .inr (HasAllOf.of_reduce (d := u) ?_ hr)
      obtain ⟨found, s', hfound, hanswer⟩ := exists_of_bind hrest
      obtain ⟨rfl, rfl⟩ : found = s'.computed[u]? ∧ s' = _ := by
        cases hfound
        exact ⟨rfl, rfl⟩
      cases hc : s'.computed[u]? with
      | some e =>
        obtain ⟨_, _, _, htest, hyes, hno, -⟩ := hs.computed u e hc
        exact ⟨htest.has, hyes.has, hno.has⟩
      | none =>
        rw [hc] at hanswer
        obtain ⟨v, _, htop, hsides⟩ := exists_of_bind hanswer
        obtain ⟨_, _, -, hlow⟩ := exists_of_bind hsides
        obtain ⟨_, _, -, hhigh⟩ := exists_of_bind hlow
        obtain ⟨_, _, -, hjoin⟩ := exists_of_bind hhigh
        obtain ⟨_, _, hbranch, -⟩ := exists_of_bind hjoin
        obtain ⟨htop, -⟩ := ask_eq_ok.1 htop
        exact hasAllOf_of_top hs.reduced hempty htop (ne_zero_of_branch hbranch).1

end Store

/-! ## Lossy computations -/

/-- A case split with losses on the way. -/
def chooseForgetting (losses : List Bool → Loss) (f g h : Edge) : Build Edge := do
  let edges := 2 * (← get).nodes.size
  chooseLosing losses (edges * edges * edges) ⟨f, g, h⟩

theorem chooseForgetting_none (f g h : Edge) :
    chooseForgetting (fun _ => .none) f g h = choose f g h := by
  unfold chooseForgetting choose
  simp only [chooseLosing_none]

/-- The second computation is the first one with losses of entries of the computed table anywhere on
its way. -/
inductive Loses : {α : Type} → Build α → Build α → Prop
  | lift {α : Type} (y : Except Fault α) : Loses (liftM y) (liftM y)
  | complement (e : Edge) : Loses (complement e) (complement e)
  | literal (v : Nat) : Loses (literal v) (literal v)
  | choose (losses : List Bool → Loss) (f g h : Edge) :
    Loses (choose f g h) (chooseForgetting losses f g h)
  | bind {α β : Type} {x y : Build α} {k l : α → Build β} (hx : Loses x y)
    (hk : ∀ a, Loses (k a) (l a)) : Loses (x >>= k) (y >>= l)
  | forget {α : Type} {x y : Build α} (l : Loss) (hx : Loses x y) :
    Loses x (forget l >>= fun _ => y)

/-! ## Losses and the limit of the storage -/

theorem heeds_share (n : Node) : Heeds (share n) where
  ends := by
    intro s t e hs h
    cases hu : s.unique[n]? with
    | some i =>
      rw [Store.share_of_some hu] at h
      cases h
      exact ⟨Store.share_of_some (s := s.unbounded) hu, hs, id⟩
    | none =>
      rw [Store.share_of_none hu] at h
      split at h
      · cases h
      · rename_i hroom
        cases h
        refine ⟨Store.share_of_none (s := s.unbounded) hu, hs, fun _ => ?_⟩
        rw [s.size_push]
        exact Nat.lt_of_not_le fun hfull => hroom ⟨hs, hfull⟩
  fails := by
    intro s fault _ h
    cases hu : s.unique[n]? with
    | some i =>
      rw [Store.share_of_some hu] at h
      cases h
    | none =>
      rw [Store.share_of_none hu] at h
      split at h
      · cases h
        exact .inl rfl
      · cases h

theorem heeds_branch (v : Nat) (low high : Edge) : Heeds (branch v low high) := by
  have hshare : ∀ n, Heeds (shareTest n) := by
    intro n
    unfold shareTest
    split
    · exact heeds_pure n.low
    · exact heeds_share n
  have hcomplement : ∀ e, Heeds (complement e) := fun _ => heeds_ask fun _ => rfl
  unfold branch
  by_cases hv : v = 0 ∨ lastVariable < v
  · rw [if_pos hv]
    exact heeds_lift (.error (.badVariable v))
  · rw [if_neg hv]
    cases high.isNegated with
    | false => exact hshare _
    | true =>
      exact (hcomplement low).bind fun _ => (hcomplement high).bind fun _ =>
        (hshare _).bind fun r => heeds_pure (-r)

theorem heeds_forget (l : Loss) : Heeds (forget l) :=
  heeds_modify (fun _ => rfl) (fun _ => rfl) fun _ => rfl

theorem heeds_chooseLosing : ∀ (fuel : Nat) (losses : List Bool → Loss) (c : Triple),
    Heeds (chooseLosing losses fuel c) := by
  intro fuel
  induction fuel with
  | zero => exact fun _ _ => heeds_lift (.error .endless)
  | succ fuel ih =>
    intro losses c
    have hremember : ∀ u e, Heeds (remember u e) := fun _ _ =>
      heeds_modify (fun _ => rfl) (fun _ => rfl) fun _ => rfl
    unfold chooseLosing
    refine (heeds_ask fun _ => rfl).bind fun _ => ?_
    cases c.reduce with
    | settled e => exact heeds_pure e
    | pending u negated =>
      refine (heeds_forget _).bind fun _ => Heeds.bind
        (heeds_get_bind (fun s => heeds_pure s.computed[u]?) fun _ => rfl) fun found => ?_
      cases found with
      | some e => exact heeds_pure _
      | none =>
        exact (heeds_ask fun _ => rfl).bind fun v => (heeds_ask fun _ => rfl).bind fun sides =>
          (ih _ _).bind fun low => (ih _ _).bind fun high => (heeds_branch v low high).bind
            fun e => (hremember u e).bind fun _ => heeds_pure _

/-- A lossy computation goes as it does without a limit, up to a full storage. -/
theorem Loses.heeds {α : Type} {x y : Build α} (h : Loses x y) : Heeds y := by
  induction h with
  | lift y => exact heeds_lift y
  | complement e => exact heeds_ask fun _ => rfl
  | literal v => exact heeds_branch v .zero .one
  | choose losses f g h =>
    exact heeds_get_bind (fun _ => heeds_chooseLosing _ losses _) fun _ => rfl
  | bind _ _ ihx ihk => exact ihx.bind ihk
  | forget l _ ih => exact (heeds_forget l).bind fun _ => ih

namespace Store

variable {s t u : Store} {e f g h r : Edge} {v : Nat} {φ ψ χ : Assignment → Bool}

/-- A computation that led from `s` to `t` with a result is repeated by another one. -/
structure Repeats {α : Type} (s : Store) (y : Build α) (a : α) (t : Store) : Prop where
  valid : t.Valid
  grows : s.GrowsTo t
  /-- From the same nodes it comes to the same result and the same nodes. -/
  again : ∀ u, u.Valid → s.SameNodes u → ∃ u', y u = .ok (a, u') ∧ u'.Valid ∧ t.SameNodes u'
  /-- On a later store it comes to the same result and adds no node. -/
  later : ∀ u, u.Valid → t.GrowsTo u → ∃ u', y u = .ok (a, u') ∧ u'.Valid ∧ u.SameNodes u'

section Repeats

variable {α β : Type} {x y : Build α} {k : α → Build β} {a : α} {b : β}

theorem Repeats.bind (h : s.Repeats y a t) (hk : t.Repeats (k a) b u) :
    s.Repeats (y >>= k) b u where
  valid := hk.valid
  grows := h.grows.trans hk.grows
  again w hw hsame := by
    obtain ⟨w₁, hr₁, hw₁, hsame₁⟩ := h.again w hw hsame
    obtain ⟨w₂, hr₂, hw₂, hsame₂⟩ := hk.again w₁ hw₁ hsame₁
    exact ⟨w₂, (bind_of_ok hr₁).trans hr₂, hw₂, hsame₂⟩
  later w hw hgrows := by
    obtain ⟨w₁, hr₁, hw₁, hsame₁⟩ := h.later w hw (hk.grows.trans hgrows)
    obtain ⟨w₂, hr₂, hw₂, hsame₂⟩ := hk.later w₁ hw₁ (hgrows.trans hsame₁.growsTo)
    exact ⟨w₂, (bind_of_ok hr₁).trans hr₂, hw₂, hsame₁.trans hsame₂⟩

theorem Repeats.forget (h : s.Repeats y a t) (l : Loss) :
    s.Repeats (Diagram.forget l >>= fun _ => y) a t where
  valid := h.valid
  grows := h.grows
  again w hw hsame := h.again (w.lose l) (hw.lose l) (hsame.trans (w.sameNodes_lose l))
  later w hw hgrows := by
    have hsame := w.sameNodes_lose l
    obtain ⟨w', hr, hw', hsame'⟩ := h.later (w.lose l) (hw.lose l) (hgrows.trans hsame.growsTo)
    exact ⟨w', hr, hw', hsame.trans hsame'⟩

/-- An answer that adds nothing and stays the same. -/
theorem Valid.repeats_answer (hs : s.Valid) (h : ∀ u, s.GrowsTo u → y u = .ok (a, u)) :
    s.Repeats y a s where
  valid := hs
  grows := .refl s
  again u hu hsame := ⟨u, h u hsame.growsTo, hu, hsame⟩
  later u hu hgrows := ⟨u, h u hgrows, hu, .refl u⟩

/-- A computation of one function: another one repeats it if it does the same on the same nodes, and
if it finds its answer where that one is stored. -/
theorem Repeats.of_gives {x y : Build Edge} (hx : s.Gives x fun e t => t.Denotes e φ)
    (hr : x s = .ok (e, t))
    (hagain : ∀ u, u.Valid → s.SameNodes u → s.Mirrors u x y)
    (hy : ∀ u, u.Valid → s.GrowsTo u → u.Gives y fun e t => t.Denotes e φ ∧ u.Adds e t) :
    s.Repeats y e t := by
  obtain ⟨ht, hst, he⟩ := hx.of_run hr
  refine ⟨ht, hst, fun u hu hsame => ?_, fun u hu htu => ?_⟩
  · obtain ⟨u', hr', hsame'⟩ := hagain u hu hsame e t hr
    exact ⟨u', hr', ((hy u hu hsame.growsTo).of_run hr').1, hsame'⟩
  · obtain ⟨r, u', hy', hu', huu', hr, hadds⟩ := hy u hu (hst.trans htu)
    have heu := he.grow ht.reduced htu
    obtain rfl : r = e := hu'.reduced.canonical hr (heu.grow hu.reduced huu')
    have hsame := hadds.sameNodes heu.has
    exact ⟨u', hy'.run_of_bounded hsame.bounded, hu', hsame⟩

end Repeats

theorem Valid.repeats_branch (hs : s.Valid) (hv : 0 < v) (hv' : v ≤ lastVariable)
    (he : s.Denotes e φ) (hf : s.Denotes f ψ) (heu : s.Under v e) (hfu : s.Under v f)
    (hr : branch v e f s = .ok (r, t)) : s.Repeats (branch v e f) r t :=
  Repeats.of_gives (hs.gives_branch hv hv' he hf heu hfu) hr
    (fun _ _ hsame => mirrors_branch hsame v e f) fun _ hu hsu =>
      (hu.gives_join hv hv' (he.grow hs.reduced hsu) (hf.grow hs.reduced hsu) (hsu.under heu)
        (hsu.under hfu)).mono fun _ _ _ _ hr => ⟨hr.denotes, hr.adds⟩

theorem Valid.repeats_choose (hs : s.Valid) (hc : s.Splits ⟨f, g, h⟩ φ ψ χ)
    (hr : choose f g h s = .ok (r, t)) (losses : List Bool → Loss) :
    s.Repeats (chooseForgetting losses f g h) r t := by
  refine Repeats.of_gives (hs.gives_choose hc.test hc.yes hc.no) hr (fun u hu hsame => ?_)
    fun u hu hsu => ?_
  · intro a s' hrun
    rw [← chooseForgetting_none] at hrun
    have hmirrors := mirrors_chooseLosing _ (fun _ => .none) losses s u _ φ ψ χ hs hu hsame hc
      (hc.weight_le hs.reduced)
    obtain ⟨u', hr', hsame'⟩ := hmirrors a s' hrun
    rw [← hsame.nodes] at hr'
    exact ⟨u', hr', hsame'⟩
  · have hc' := hc.grow hs.reduced hsu
    exact (gives_chooseLosing _ losses u _ φ ψ χ hu hc' (hc'.weight_le hu.reduced)).of_eq
      (GrowsTo.refl u) rfl rfl rfl

/-- A complement is there to stay. -/
theorem GrowsTo.complement_eq (h : s.GrowsTo t) (he : s.complement e = .ok f) :
    t.complement e = .ok f := by
  unfold complement at he ⊢
  split at he
  · cases he
  · rename_i hinside
    have hsize := h.size_le
    rw [if_neg fun houtside => hinside ⟨houtside.1, by omega⟩]
    exact he

theorem GrowsTo.checkTest_eq {c : Triple} (h : s.GrowsTo t) (hc : s.checkTest c = .ok ()) :
    t.checkTest c = .ok () := by
  unfold checkTest at hc ⊢
  split at hc
  · rename_i hplain
    rw [if_pos hplain]
  · rename_i hplain
    rw [if_neg hplain]
    cases hf : s.complement c.test with
    | error fault =>
      rw [hf] at hc
      cases hc
    | ok f =>
      rw [h.complement_eq hf]
      rfl

theorem chooseLosing_of_settled {c : Triple} {fuel : Nat} (hfuel : fuel ≠ 0)
    (hcheck : s.checkTest c = .ok ()) (hc : c.reduce = .settled e) (losses : List Bool → Loss) :
    chooseLosing losses fuel c s = .ok (e, s) := by
  obtain ⟨fuel, rfl⟩ := Nat.exists_eq_succ_of_ne_zero hfuel
  unfold chooseLosing
  rw [bind_of_ok (ask_eq_ok.2 ⟨hcheck, rfl⟩), hc]
  rfl

end Store

open Store in
/-- **Lossy forms of a computation that has gone through repeat it.** -/
theorem Loses.repeats {α : Type} {x y : Build α} (h : Loses x y) :
    ∀ {s t : Store} {a : α}, s.Valid → empty.GrowsTo s → x s = .ok (a, t) → s.Repeats y a t := by
  induction h with
  | lift y =>
    intro s t a hs _ hr
    cases y with
    | error fault => cases hr
    | ok b =>
      cases hr
      exact hs.repeats_answer fun _ _ => rfl
  | complement e =>
    intro s t f hs _ hr
    obtain ⟨hf, rfl⟩ := ask_eq_ok.1 hr
    exact hs.repeats_answer fun u hsu => ask_eq_ok.2 ⟨hsu.complement_eq hf, rfl⟩
  | literal v =>
    intro s t r hs _ hr
    obtain ⟨hv, hv'⟩ := ne_zero_of_branch hr
    exact hs.repeats_branch (Nat.pos_of_ne_zero hv) hv' (denotes_zero hs.reduced)
      (denotes_one hs.reduced) (.inl rfl) (.inl rfl) hr
  | choose losses f g h =>
    intro s t r hs hempty hr
    rcases chooseWithin_cases hs hempty hr with ⟨hcheck, hsettled, rfl⟩ | ⟨hf, hg, hh⟩
    · refine hs.repeats_answer fun u hsu => ?_
      have hsize := hs.reduced.two_le_size
      have hle := hsu.size_le
      have hfuel : 2 * u.nodes.size * (2 * u.nodes.size) * (2 * u.nodes.size) ≠ 0 := by
        have hpos : 2 * u.nodes.size ≠ 0 := by omega
        exact Nat.mul_ne_zero (Nat.mul_ne_zero hpos hpos) hpos
      exact chooseLosing_of_settled hfuel (hsu.checkTest_eq hcheck) hsettled losses
    · obtain ⟨φ, hφ⟩ := hs.reduced.denotes hf
      obtain ⟨ψ, hψ⟩ := hs.reduced.denotes hg
      obtain ⟨χ, hχ⟩ := hs.reduced.denotes hh
      exact hs.repeats_choose ⟨hφ, hψ, hχ⟩ hr losses
  | bind _ _ ihx ihk =>
    intro s u b hs hempty hr
    obtain ⟨a, t, hx, hk⟩ := exists_of_bind hr
    have hrepeats := ihx hs hempty hx
    exact hrepeats.bind (ihk a hrepeats.valid (hempty.trans hrepeats.grows) hk)
  | forget l _ ih => exact fun hs hempty hr => (ih hs hempty hr).forget l

end Stimulus.Diagram

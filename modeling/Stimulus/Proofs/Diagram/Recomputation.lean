import Stimulus.Proofs.Diagram.Choice

/-!
# Answers that are computed again

A case split whose answer is stored already is answered by the same edge and adds no
node, however little of the computed table is left (`Store.gives_stored`). So two stores
with the same nodes answer a case split alike, whatever each of them remembers and loses
on the way (`Store.mirrors_chooseLosing`). The induction is on the depth: either the
answer is stored, or no table knows the case split and both computations go on with the
same sides.
-/

set_option autoImplicit false

namespace Stimulus.Diagram

namespace Store

variable {s t : Store} {c : Triple} {e : Edge} {fuel : Nat}
  {φ ψ χ : Assignment → Bool}

/-! ## Stores with the same nodes -/

theorem SameNodes.symm (h : s.SameNodes t) : t.SameNodes s :=
  ⟨h.nodes.symm, h.unique.symm, h.bounded.symm⟩

theorem SameNodes.denotes (h : s.SameNodes t) (hs : s.Reduced) (he : s.Denotes e φ) :
    t.Denotes e φ := he.grow hs h.growsTo

/-- If the first computation goes through on `s`, the second one does on `t`, with the same result
and the same nodes. -/
def Mirrors {α : Type} (s t : Store) (x y : Build α) : Prop :=
  ∀ a s', x s = .ok (a, s') → ∃ t', y t = .ok (a, t') ∧ s'.SameNodes t'

section Mirrors

variable {α β : Type} {x y : Build α} {k l : α → Build β}

theorem mirrors_pure (h : s.SameNodes t) (a : α) : s.Mirrors t (pure a) (pure a) := by
  rintro b s' hr
  cases hr
  exact ⟨t, rfl, h⟩

theorem Mirrors.bind (h : s.Mirrors t x y)
    (hk : ∀ a s' t', x s = .ok (a, s') → y t = .ok (a, t') → s'.SameNodes t' →
      s'.Mirrors t' (k a) (l a)) : s.Mirrors t (x >>= k) (y >>= l) := by
  intro b s₂ hr
  obtain ⟨a, s₁, hx, hk₁⟩ := exists_of_bind hr
  obtain ⟨t₁, hy, hsame⟩ := h a s₁ hx
  obtain ⟨t₂, hl, hsame₂⟩ := hk a s₁ t₁ hx hy hsame b s₂ hk₁
  exact ⟨t₂, (bind_of_ok hy).trans hl, hsame₂⟩

/-- A question to which both stores have the same answer. -/
theorem mirrors_ask {q : Store → Except Fault α} (h : s.SameNodes t) (hq : q t = q s) :
    s.Mirrors t (ask q) (ask q) := by
  intro a s' hr
  obtain ⟨ha, rfl⟩ := ask_eq_ok.1 hr
  exact ⟨t, ask_eq_ok.2 ⟨hq.trans ha, rfl⟩, h⟩

/-- A question that goes on with its answer. -/
theorem Mirrors.ask_bind {q : Store → Except Fault α} (h : s.SameNodes t) (hq : q t = q s)
    (hk : ∀ a, q s = .ok a → s.Mirrors t (k a) (l a)) :
    s.Mirrors t (ask q >>= k) (ask q >>= l) := by
  refine (mirrors_ask h hq).bind fun a s' t' hs ht _ => ?_
  obtain ⟨ha, rfl⟩ := ask_eq_ok.1 hs
  obtain ⟨-, rfl⟩ := ask_eq_ok.1 ht
  exact hk a ha

theorem Mirrors.forget_bind {i j : Loss} {k l : Unit → Build α}
    (hk : (s.lose i).Mirrors (t.lose j) (k ()) (l ())) :
    s.Mirrors t (forget i >>= k) (forget j >>= l) := hk

/-- A case split that neither store remembers. -/
theorem Mirrors.remembered_bind {k l : Option Edge → Build α} (hs : s.computed[c]? = none)
    (ht : t.computed[c]? = none) (hk : s.Mirrors t (k none) (l none)) :
    s.Mirrors t (remembered c >>= k) (remembered c >>= l) := by
  intro a s' hr
  change k s.computed[c]? s = _ at hr
  show ∃ t', l t.computed[c]? t = _ ∧ _
  rw [hs] at hr
  rw [ht]
  exact hk a s' hr

end Mirrors

/-! ## Nodes are made without a look at the table -/

theorem SameNodes.complement_eq (h : s.SameNodes t) (e : Edge) :
    t.complement e = s.complement e := by
  unfold complement
  rw [h.nodes]

theorem SameNodes.node_eq (h : s.SameNodes t) (e : Edge) : t.node e = s.node e := by
  unfold node
  rw [h.nodes]

theorem SameNodes.through_eq (h : s.SameNodes t) (e f : Edge) : t.through e f = s.through e f := by
  unfold through
  rw [h.complement_eq]

theorem SameNodes.level_eq (h : s.SameNodes t) (e : Edge) : t.level e = s.level e := by
  unfold level var
  rw [h.node_eq]

theorem SameNodes.cofactors_eq (h : s.SameNodes t) (e : Edge) (v : Nat) :
    t.cofactors e v = s.cofactors e v := by
  unfold cofactors
  simp only [h.level_eq, h.node_eq, h.through_eq]

theorem SameNodes.checkTest_eq (h : s.SameNodes t) (c : Triple) :
    t.checkTest c = s.checkTest c := by
  unfold checkTest
  rw [h.complement_eq]

theorem SameNodes.top_eq (h : s.SameNodes t) (c : Triple) : t.top c = s.top c := by
  unfold top
  simp only [h.level_eq]

theorem SameNodes.split_eq (h : s.SameNodes t) (c : Triple) (v : Nat) :
    t.split c v = s.split c v := by
  unfold split
  simp only [h.cofactors_eq]

theorem mirrors_share (h : s.SameNodes t) (n : Node) : s.Mirrors t (share n) (share n) := by
  intro e s' hr
  cases hu : s.unique[n]? with
  | none =>
    have ht : t.unique[n]? = none := by rw [h.unique, hu]
    rw [share_of_none hu] at hr
    rw [share_of_none ht, h.nodes, h.bounded]
    split at hr
    · cases hr
    · rename_i hroom
      cases hr
      refine ⟨t.push n, if_neg hroom, congrArg (Array.push · n) h.nodes, ?_, h.bounded⟩
      show t.unique.insert n t.nodes.size = s.unique.insert n s.nodes.size
      rw [h.unique, h.nodes]
  | some i =>
    have ht : t.unique[n]? = some i := by rw [h.unique, hu]
    rw [share_of_some hu] at hr
    cases hr
    exact ⟨t, share_of_some ht, h⟩

theorem mirrors_shareTest (h : s.SameNodes t) (n : Node) :
    s.Mirrors t (shareTest n) (shareTest n) := by
  unfold shareTest
  split
  · exact mirrors_pure h _
  · exact mirrors_share h n

theorem mirrors_branch (h : s.SameNodes t) (v : Nat) (e f : Edge) :
    s.Mirrors t (branch v e f) (branch v e f) := by
  unfold branch
  by_cases hv : v = 0 ∨ lastVariable < v
  · rw [if_pos hv]
    rintro r s' hr
    cases hr
  · rw [if_neg hv]
    cases f.isNegated with
    | false => exact mirrors_shareTest h _
    | true =>
      refine Mirrors.ask_bind h (h.complement_eq e) fun e' _ => ?_
      refine Mirrors.ask_bind h (h.complement_eq f) fun f' _ => ?_
      exact (mirrors_shareTest h _).bind fun _ _ _ _ _ hsame => mirrors_pure hsame _

theorem mirrors_remember (h : s.SameNodes t) (c : Triple) (e : Edge) :
    s.Mirrors t (remember c e) (remember c e) := by
  rintro a s' hr
  cases hr
  exact ⟨_, rfl, h.nodes, h.unique, h.bounded⟩

/-! ## Stored answers -/

/-- **A case split whose answer is stored adds no node**, whatever the table has lost. -/
theorem gives_stored (hs : s.Valid) (h : s.Splits c φ ψ χ) (hw : c.weight ≤ fuel)
    (he : s.Denotes e (ite φ ψ χ)) (losses : List Bool → Loss) :
    s.Gives (chooseLosing losses fuel c) fun r t => r = e ∧ s.SameNodes t := by
  refine (gives_chooseLosing fuel losses s c φ ψ χ hs h hw).mono fun r t ht hst hr => ?_
  obtain rfl : r = e := ht.reduced.canonical hr.1 (he.grow hs.reduced hst)
  exact ⟨rfl, hr.2.sameNodes he.has⟩

/-- An open case split that no table knows: both computations split it in the same way, and join the
same answers. -/
theorem mirrors_answer (hs : s.Valid) (ht : t.Valid) (hsame : s.SameNodes t) (ho : c.Open)
    (h : s.Splits c φ ψ χ) (k k' : Bool → Triple → Build Edge)
    (hk : ∀ (b : Bool) (s t : Store) (d : Triple) (φ' ψ' χ' : Assignment → Bool), s.Valid →
      t.Valid → s.SameNodes t → s.Splits d φ' ψ' χ' → d.weight < c.weight →
        s.Gives (k b d) (s.Resolves φ' ψ' χ') ∧ t.Gives (k' b d) (t.Resolves φ' ψ' χ') ∧
          s.Mirrors t (k b d) (k' b d)) :
    s.Mirrors t (do
      let v ← ask (·.top c)
      let sides ← ask (·.split c v)
      let low ← k false sides.1
      let high ← k true sides.2
      let e ← branch v low high
      remember c e
      return e) (do
      let v ← ask (·.top c)
      let sides ← ask (·.split c v)
      let low ← k' false sides.1
      let high ← k' true sides.2
      let e ← branch v low high
      remember c e
      return e) := by
  obtain ⟨v, lo, hi, htop, hsplit, -, -, hwlo, hwhi, hside⟩ := h.split hs.reduced ho
  obtain ⟨φ₀, ψ₀, χ₀, h₀, -, -⟩ := hside false
  obtain ⟨φ₁, ψ₁, χ₁, h₁, -, -⟩ := hside true
  refine Mirrors.ask_bind hsame (hsame.top_eq c) fun v' hv' => ?_
  cases htop.symm.trans hv'
  refine Mirrors.ask_bind hsame (hsame.split_eq c v) fun sides hsides => ?_
  cases hsplit.symm.trans hsides
  obtain ⟨gs, gt, hlow⟩ := hk false s t lo _ _ _ hs ht hsame h₀ hwlo
  refine hlow.bind fun low s₁ t₁ hrs hrt hsame₁ => ?_
  obtain ⟨hs₁, hg, -⟩ := gs.of_run hrs
  obtain ⟨ht₁, -, -⟩ := gt.of_run hrt
  obtain ⟨-, -, hhigh⟩ := hk true s₁ t₁ hi _ _ _ hs₁ ht₁ hsame₁ (h₁.grow hs.reduced hg) hwhi
  refine hhigh.bind fun high s₂ t₂ _ _ hsame₂ => ?_
  refine (mirrors_branch hsame₂ v low high).bind fun e s₃ t₃ _ _ hsame₃ => ?_
  exact (mirrors_remember hsame₃ c e).bind fun _ _ _ _ _ hsame₄ => mirrors_pure hsame₄ e

/-- A case split without a stored answer leaves one that is not remembered. -/
theorem computed_of_not_stored {u : Triple} {negated : Bool} {φ' ψ' χ' κ : Assignment → Bool}
    (hs : s.Valid) (hu : s.Splits u φ' ψ' χ') (hκ : ∀ ρ, (negated != ite φ' ψ' χ' ρ) = κ ρ)
    (hstored : ¬∃ e, s.Denotes e κ) : s.computed[u]? = none := by
  cases hc : s.computed[u]? with
  | none => rfl
  | some e =>
    have he := (hs.computed u e hc).denotes hu.test hu.yes hu.no
    exact absurd ⟨_, he.finish hs.reduced hκ⟩ hstored

/-- **What the table remembers and what gets lost of it changes neither the answer to a case split
nor the nodes.** -/
theorem mirrors_chooseLosing : ∀ (fuel : Nat) (losses losses' : List Bool → Loss) (s t : Store)
    (c : Triple) (φ ψ χ : Assignment → Bool), s.Valid → t.Valid → s.SameNodes t →
      s.Splits c φ ψ χ → c.weight ≤ fuel →
        s.Mirrors t (chooseLosing losses fuel c) (chooseLosing losses' fuel c) := by
  intro fuel
  induction fuel with
  | zero =>
    intro losses losses' s t c φ ψ χ _ _ _ h hw
    have := h.weight_pos
    omega
  | succ fuel ih =>
    intro losses losses' s t c φ ψ χ hs ht hsame h hw
    by_cases hstored : ∃ e, s.Denotes e (ite φ ψ χ)
    · -- neither computation adds a node
      obtain ⟨e, he⟩ := hstored
      intro a s' hr
      obtain ⟨-, -, rfl, hs'⟩ := (gives_stored hs h hw he losses).of_run hr
      obtain ⟨a, t', hy', -, -, rfl, ht'⟩ := gives_stored ht (h.grow hs.reduced hsame.growsTo) hw
        (hsame.denotes hs.reduced he) losses'
      exact ⟨t', hy'.run_of_bounded ht'.bounded, hs'.symm.trans (hsame.trans ht')⟩
    · unfold chooseLosing
      refine Mirrors.ask_bind hsame (hsame.checkTest_eq c) fun _ _ => ?_
      cases hr : c.reduce with
      | settled e => exact absurd ⟨e, h.denotes_of_settled hs.reduced hr⟩ hstored
      | pending u negated =>
        obtain ⟨hopen, hle, φ', ψ', χ', hu, hκ⟩ := h.open_of_pending hs.reduced hr
        have hmiss : ∀ s' : Store, s'.Valid → s.SameNodes s' → s'.computed[u]? = none := by
          intro s' hs' hsame'
          refine computed_of_not_stored hs' (hu.grow hs.reduced hsame'.growsTo) hκ ?_
          rintro ⟨e, he⟩
          exact hstored ⟨e, hsame'.symm.denotes hs'.reduced he⟩
        refine Mirrors.forget_bind (Mirrors.remembered_bind
          (hmiss _ (hs.lose (losses [])) (s.sameNodes_lose _))
          (hmiss _ (ht.lose (losses' [])) (hsame.trans (t.sameNodes_lose _))) ?_)
        have hanswer := mirrors_answer (hs.lose (losses [])) (ht.lose (losses' []))
          ⟨hsame.nodes, hsame.unique, hsame.bounded⟩ hopen
          (hu.grow hs.reduced (s.sameNodes_lose _).growsTo)
          (fun b => chooseLosing (fun way => losses (b :: way)) fuel)
          (fun b => chooseLosing (fun way => losses' (b :: way)) fuel)
          (fun b s t d φ ψ χ hs ht hsame hd hwd =>
            ⟨gives_chooseLosing fuel _ s d φ ψ χ hs hd (by omega),
              gives_chooseLosing fuel _ t d φ ψ χ ht (hd.grow hs.reduced hsame.growsTo) (by omega),
              ih _ _ s t d φ ψ χ hs ht hsame hd (by omega)⟩)
        have := hanswer.bind (k := fun e => pure (if negated then -e else e))
          (l := fun e => pure (if negated then -e else e))
          fun e _ _ _ _ hsame => mirrors_pure hsame _
        simpa only [bind_assoc, pure_bind] using this

end Store

end Stimulus.Diagram

import Stimulus.Proofs.Diagram.Canonicity
import Stimulus.Proofs.Diagram.Storage
import Stimulus.Diagram.Choice

/-!
# Building diagrams

A store is valid (`Store.Valid`) if it is reduced, every remembered case split
has the answer that it should have, and a limit on the nodes is kept. `s.Gives x Q`
says that the computation `x` meets no fault on the store `s` but a full storage, only
makes the store grow, leaves it valid, and yields a result of which `Q` holds. It
composes along the steps of a computation (`Store.Gives.bind`), so that every operation
needs one statement about itself.

Here are the statements about single nodes: sharing a node, branching on a
variable that lies before both sides (`Store.Valid.gives_branch`), and literals. A
step that makes a node ends with an edge to what is new (`Store.Adds`), so where the
answer is stored already the nodes stay as they are.
-/

set_option autoImplicit false

namespace Stimulus.Diagram

/-! ## Keys of the tables -/

instance Node.transCmp : Std.TransCmp Node.compare :=
  inferInstanceAs (Std.TransCmp (compareLex (compareOn Node.var)
    (compareLex (compareOn fun n : Node => n.low.code) (compareOn fun n : Node => n.high.code))))

instance Node.lawfulEqCmp : Std.LawfulEqCmp Node.compare where
  eq_of_compare {a b} h := by
    obtain ⟨hv, h⟩ := Ordering.then_eq_eq.1 h
    obtain ⟨hl, hh⟩ := Ordering.then_eq_eq.1 h
    cases a
    cases b
    simp only [Node.mk.injEq]
    exact ⟨Std.LawfulEqOrd.eq_of_compare hv, Edge.ext_code (Std.LawfulEqOrd.eq_of_compare hl),
      Edge.ext_code (Std.LawfulEqOrd.eq_of_compare hh)⟩

instance Triple.transCmp : Std.TransCmp Triple.compare :=
  inferInstanceAs (Std.TransCmp (compareLex (compareOn fun t : Triple => t.test.code)
    (compareLex (compareOn fun t : Triple => t.yes.code)
      (compareOn fun t : Triple => t.no.code))))

instance Triple.lawfulEqCmp : Std.LawfulEqCmp Triple.compare where
  eq_of_compare {a b} h := by
    obtain ⟨hf, h⟩ := Ordering.then_eq_eq.1 h
    obtain ⟨hg, hh⟩ := Ordering.then_eq_eq.1 h
    cases a
    cases b
    simp only [Triple.mk.injEq]
    exact ⟨Edge.ext_code (Std.LawfulEqOrd.eq_of_compare hf),
      Edge.ext_code (Std.LawfulEqOrd.eq_of_compare hg),
      Edge.ext_code (Std.LawfulEqOrd.eq_of_compare hh)⟩

namespace Store

variable {s t : Store} {e f g h : Edge} {n : Node} {v : Nat} {φ ψ χ : Assignment → Bool}

/-! ## Valid stores -/

/-- The edge `e` answers the case split `c`. -/
def Answers (s : Store) (c : Triple) (e : Edge) : Prop :=
  ∃ φ ψ χ, s.Denotes c.test φ ∧ s.Denotes c.yes ψ ∧ s.Denotes c.no χ ∧
    s.Denotes e fun ρ => if φ ρ then ψ ρ else χ ρ

theorem Answers.grow {c : Triple} (ha : s.Answers c e) (hs : s.Reduced) (hst : s.GrowsTo t) :
    t.Answers c e := by
  obtain ⟨φ, ψ, χ, hf, hg, hh, he⟩ := ha
  exact ⟨φ, ψ, χ, hf.grow hs hst, hg.grow hs hst, hh.grow hs hst, he.grow hs hst⟩

theorem Answers.denotes {c : Triple} (ha : s.Answers c e) (hf : s.Denotes c.test φ)
    (hg : s.Denotes c.yes ψ) (hh : s.Denotes c.no χ) :
    s.Denotes e fun ρ => if φ ρ then ψ ρ else χ ρ := by
  obtain ⟨φ', ψ', χ', hf', hg', hh', he⟩ := ha
  rw [hf.unique hf', hg.unique hg', hh.unique hh']
  exact he

/-- Reduced stores in which every remembered answer is right. -/
structure Valid (s : Store) : Prop where
  /-- The nodes are reduced. -/
  reduced : s.Reduced
  /-- There are no more nodes than a limit allows. -/
  size_le : s.bounded = true → s.nodes.size ≤ maxNodes
  /-- The computed table holds answers. -/
  computed : ∀ c e, s.computed[c]? = some e → s.Answers c e

theorem reduced_empty : empty.Reduced where
  two_le_size := Nat.le_refl 2
  form i n hi hn := by
    rw [Array.getElem?_eq_none (show empty.nodes.size ≤ i from hi)] at hn
    cases hn
  unique_iff n i := by
    constructor
    · intro h
      have hnone : empty.unique[n]? = none := Std.TreeMap.getElem?_emptyc
      rw [hnone] at h
      cases h
    · rintro ⟨hi, hn⟩
      rw [Array.getElem?_eq_none (show empty.nodes.size ≤ i from hi)] at hn
      cases hn

theorem valid_empty : empty.Valid where
  reduced := reduced_empty
  size_le _ := show 2 ≤ maxNodes by decide
  computed c e h := by
    have hnone : empty.computed[c]? = none := Std.TreeMap.getElem?_emptyc
    rw [hnone] at h
    cases h

/-! ## Computations -/

/-- The computation meets no fault on `s` but a full storage, and it yields a valid store that `s`
grows to and a result of which `Q` holds. -/
def Gives {α : Type} (s : Store) (x : Build α) (Q : α → Store → Prop) : Prop :=
  ∃ a t, Yields s x a t ∧ t.Valid ∧ s.GrowsTo t ∧ Q a t

section Gives

variable {α β : Type} {x : Build α} {k : α → Build β} {P Q : α → Store → Prop}
  {R : β → Store → Prop}

theorem Gives.mono (hx : s.Gives x P) (hPQ : ∀ a t, t.Valid → s.GrowsTo t → P a t → Q a t) :
    s.Gives x Q := by
  obtain ⟨a, t, hy, ht, hst, hP⟩ := hx
  exact ⟨a, t, hy, ht, hst, hPQ a t ht hst hP⟩

theorem Valid.gives_pure {a : α} (hs : s.Valid) (hQ : Q a s) : s.Gives (pure a) Q :=
  ⟨a, s, .within rfl rfl rfl, hs, GrowsTo.refl s, hQ⟩

/-- What a computation gives, once it has gone through. -/
theorem Gives.of_run {a : α} (h : s.Gives x Q)
    (hr : x s = .ok (a, t)) : t.Valid ∧ s.GrowsTo t ∧ Q a t := by
  obtain ⟨a', t', hy, ht, hst, hQ⟩ := h
  obtain ⟨rfl, rfl, -⟩ := hy.eq_of_run hr
  exact ⟨ht, hst, hQ⟩

theorem Gives.bounded_of_run {a : α} (h : s.Gives x Q) (hr : x s = .ok (a, t)) :
    t.bounded = s.bounded := by
  obtain ⟨a', t', hy, -⟩ := h
  obtain ⟨rfl, rfl, hsame⟩ := hy.eq_of_run hr
  exact hsame

/-- What a computation gives is there in the end, unless it outgrows the storage. -/
theorem Gives.run_or_outgrows (h : s.Gives x Q) :
    (∃ a t, x s = .ok (a, t) ∧ t.bounded = s.bounded ∧ t.Valid ∧ s.GrowsTo t ∧ Q a t) ∨
      Outgrows s x := by
  obtain ⟨a, t, hy, ht, hst, hQ⟩ := h
  exact hy.run_or_outgrows.imp_left fun hr => ⟨a, t, hr.1, hr.2, ht, hst, hQ⟩

/-- One step after another. -/
theorem Gives.bind (hx : s.Gives x P)
    (hk : ∀ a t, t.Valid → s.GrowsTo t → P a t → t.Gives (k a) R) : s.Gives (x >>= k) R := by
  obtain ⟨a, t, hy, ht, hst, hP⟩ := hx
  obtain ⟨b, u, hy', hu, htu, hR⟩ := hk a t ht hst hP
  exact ⟨b, u, hy.bind hy' htu.size_le, hu, hst.trans htu, hR⟩

/-- The last step only rearranges the result. -/
theorem Gives.map {r : α → β} (hx : s.Gives x fun a t => R (r a) t) :
    s.Gives (x >>= fun a => pure (r a)) R :=
  hx.bind fun _ _ ht _ hR => ht.gives_pure hR

/-- A question that the limit does not matter to, answered at once. -/
theorem Gives.ask_bind {q : Store → Except Fault α} {a : α} (hq : q s = .ok a)
    (hk : s.Gives (k a) R) (hfree : q s.unbounded = q s := by rfl) : s.Gives (ask q >>= k) R := by
  obtain ⟨b, t, hy, ht, hst, hR⟩ := hk
  exact ⟨b, t, hy.of_eq (bind_of_ok (ask_eq_ok.2 ⟨hq, rfl⟩))
    (bind_of_ok (ask_eq_ok.2 ⟨hfree.trans hq, rfl⟩)) rfl, ht, hst, hR⟩

/-- A computation that gives on one store what another one gives on a store that this one grows
to. -/
theorem Gives.of_eq {y : Build α} (hy : t.Gives y Q) (hst : s.GrowsTo t) (hrun : x s = y t)
    (hfree : x s.unbounded = y t.unbounded) (hsame : t.bounded = s.bounded) : s.Gives x Q := by
  obtain ⟨a, u, hyields, hu, htu, hQ⟩ := hy
  exact ⟨a, u, hyields.of_eq hrun hfree hsame, hu, hst.trans htu, hQ⟩

/-- A check of the arguments, passed. -/
theorem Gives.lift_bind {y : Except Fault α} {a : α} (hy : y = .ok a) (hk : s.Gives (k a) R) :
    s.Gives ((liftM y : Build α) >>= k) R := by
  subst hy
  exact hk

/-- A check of the arguments, passed at the end. -/
theorem Valid.gives_lift {y : Except Fault α} {a : α} (hs : s.Valid) (hy : y = .ok a)
    (hQ : Q a s) : s.Gives (liftM y) Q := by
  subst hy
  exact hs.gives_pure hQ

theorem Valid.gives_ask {q : Store → Except Fault α} {a : α} (hs : s.Valid) (hq : q s = .ok a)
    (hQ : Q a s) (hfree : q s.unbounded = q s := by rfl) : s.Gives (ask q) Q :=
  ⟨a, s, .within (ask_eq_ok.2 ⟨hq, rfl⟩) (ask_eq_ok.2 ⟨hfree.trans hq, rfl⟩) rfl, hs,
    GrowsTo.refl s, hQ⟩

end Gives

/-! ## New nodes -/

/-- The same nodes at the same indexes, with the same limit. What the stores remember may
differ. -/
structure SameNodes (s t : Store) : Prop where
  nodes : t.nodes = s.nodes
  unique : t.unique = s.unique
  bounded : t.bounded = s.bounded

theorem SameNodes.refl (s : Store) : s.SameNodes s := ⟨rfl, rfl, rfl⟩

theorem SameNodes.trans {u : Store} (h : s.SameNodes t) (h' : t.SameNodes u) : s.SameNodes u :=
  ⟨h'.nodes.trans h.nodes, h'.unique.trans h.unique, h'.bounded.trans h.bounded⟩

theorem growsTo_of_nodes (h : t.nodes = s.nodes) : s.GrowsTo t := by
  intro i n hn
  rwa [h]

theorem SameNodes.growsTo (h : s.SameNodes t) : s.GrowsTo t := growsTo_of_nodes h.nodes

theorem Reduced.of_nodes (hs : s.Reduced) (hnodes : t.nodes = s.nodes)
    (hunique : t.unique = s.unique) : t.Reduced where
  two_le_size := by
    rw [hnodes]
    exact hs.two_le_size
  form i n hi hn := by
    rw [hnodes] at hn
    exact (growsTo_of_nodes hnodes).nodeForm (hs.form i n hi hn)
  unique_iff := by
    rw [hnodes, hunique]
    exact hs.unique_iff

theorem SameNodes.reduced (h : s.SameNodes t) (hs : s.Reduced) : t.Reduced :=
  hs.of_nodes h.nodes h.unique

theorem growsTo_unbounded (s : Store) : s.GrowsTo s.unbounded := growsTo_of_nodes rfl

/-- A valid store stays valid without its limit. -/
theorem Valid.unbounded (hs : s.Valid) : s.unbounded.Valid where
  reduced := hs.reduced.of_nodes rfl rfl
  size_le h := nomatch h
  computed c e h := (hs.computed c e h).grow hs.reduced s.growsTo_unbounded

/-- Either nothing is new, or the edge leads to something that is. -/
def Adds (s : Store) (e : Edge) (t : Store) : Prop :=
  s.SameNodes t ∨ s.nodes.size ≤ e.index

/-- Where the edge was there before, nothing is new. -/
theorem Adds.sameNodes (h : s.Adds e t) (he : s.Has e) : s.SameNodes t :=
  h.resolve_right (Nat.not_le_of_lt he.2)

theorem adds_refl (s : Store) (e : Edge) : s.Adds e s := Or.inl (.refl s)

theorem Adds.neg (h : s.Adds e t) : s.Adds (-e) t := by
  unfold Adds
  rwa [Edge.index_neg]

/-- One step after another, the second of which leads to no older edge. -/
theorem Adds.trans {u : Store} (h : s.Adds e t) (h' : t.Adds f u) (hef : e.index ≤ f.index) :
    s.Adds f u := by
  rcases h with hsame | hnew
  · rcases h' with hsame' | hnew'
    · exact Or.inl (hsame.trans hsame')
    · rw [hsame.nodes] at hnew'
      exact Or.inr hnew'
  · exact Or.inr (Nat.le_trans hnew hef)

/-! ## Single nodes -/

theorem Valid.gives_complement (hs : s.Valid) (he : s.Denotes e φ) :
    s.Gives (Diagram.complement e) fun e' t => e' = -e ∧ t.Denotes e' fun ρ => !φ ρ :=
  hs.gives_ask (complement_of_lt he.has.2) ⟨rfl, he.neg hs.reduced⟩

/-- The store with one more node. -/
def push (s : Store) (n : Node) : Store :=
  { s with nodes := s.nodes.push n, unique := s.unique.insert n s.nodes.size }

theorem size_push (s : Store) (n : Node) : (s.push n).nodes.size = s.nodes.size + 1 :=
  Array.size_push n

theorem growsTo_push (s : Store) (n : Node) : s.GrowsTo (s.push n) := by
  intro j k hj
  have hlt := (Array.getElem?_eq_some_iff.1 hj).1
  show (s.nodes.push n)[j]? = some k
  rw [Array.getElem?_push, if_neg (Nat.ne_of_lt hlt)]
  exact hj

/-- A node that could be stored: it has the form of a node at the next index. -/
theorem Reduced.push (hs : s.Reduced) (hn : s.NodeForm s.nodes.size n)
    (hnew : s.unique[n]? = none) : (s.push n).Reduced where
  two_le_size := by
    rw [size_push]
    exact Nat.le_succ_of_le hs.two_le_size
  form i m hi hm := by
    have hgrow := s.growsTo_push n
    change (s.nodes.push n)[i]? = some m at hm
    rw [Array.getElem?_push] at hm
    split at hm
    · rename_i heq
      cases hm
      rw [heq]
      exact hgrow.nodeForm hn
    · exact hgrow.nodeForm (hs.form i m hi hm)
  unique_iff m i := by
    show (s.unique.insert n s.nodes.size)[m]? = some i ↔ 2 ≤ i ∧ (s.nodes.push n)[i]? = some m
    rw [Std.TreeMap.getElem?_insert, Array.getElem?_push]
    -- the new node is looked up, or another one
    by_cases hm : n = m
    · subst hm
      rw [if_pos Std.ReflCmp.compare_self]
      constructor
      · intro h
        cases h
        exact ⟨hs.two_le_size, if_pos rfl⟩
      · rintro ⟨hi, h⟩
        split at h
        · rename_i heq
          rw [heq]
        · rw [(hs.unique_iff n i).2 ⟨hi, h⟩] at hnew
          cases hnew
    · rw [if_neg fun h => hm (Std.LawfulEqCmp.eq_of_compare h), hs.unique_iff]
      constructor
      · rintro ⟨hi, h⟩
        have hlt := (Array.getElem?_eq_some_iff.1 h).1
        exact ⟨hi, by rw [if_neg (by omega)]; exact h⟩
      · rintro ⟨hi, h⟩
        split at h
        · exact absurd (Option.some.inj h) hm
        · exact ⟨hi, h⟩

/-- A store with room for one more node that could be stored stays valid with it. -/
theorem Valid.push (hs : s.Valid) (hn : s.NodeForm s.nodes.size n) (hnew : s.unique[n]? = none)
    (hroom : s.bounded = true → s.nodes.size < maxNodes) : (s.push n).Valid where
  reduced := hs.reduced.push hn hnew
  size_le h := by
    rw [size_push]
    exact hroom h
  computed c e h := (hs.computed c e h).grow hs.reduced (s.growsTo_push n)

theorem share_of_some {i : Nat} (h : s.unique[n]? = some i) : share n s = .ok (.ofIndex i, s) := by
  cases s
  simp only [share, h]

/-- A new node is appended where there is room for it. -/
theorem share_of_none (h : s.unique[n]? = none) : share n s =
    if s.bounded ∧ maxNodes ≤ s.nodes.size then .error .storageExhausted
    else .ok (.ofIndex s.nodes.size, s.push n) := by
  cases s
  simp only [share, h]
  rfl

theorem size_share_le (h : share n s = .ok (e, t)) : t.nodes.size ≤ s.nodes.size + 1 := by
  cases hu : s.unique[n]? with
  | some i =>
    rw [share_of_some hu] at h
    cases h
    exact Nat.le_succ _
  | none =>
    rw [share_of_none hu] at h
    split at h
    · cases h
    · cases h
      exact Nat.le_of_eq (s.size_push n)

/-- Sharing gives the edge to a node, which is stored if it was not there. -/
theorem Valid.gives_share (hs : s.Valid) (hn : s.NodeForm s.nodes.size n) :
    s.Gives (share n) fun e t =>
      2 ≤ e.index ∧ e.isNegated = false ∧ t.nodes[e.index]? = some n ∧ s.Adds e t := by
  cases hu : s.unique[n]? with
  -- the node is there, and the table gives its index
  | some i =>
    obtain ⟨hi, hget⟩ := (hs.reduced.unique_iff n i).1 hu
    exact ⟨.ofIndex i, s, .within (share_of_some hu) (share_of_some (s := s.unbounded) hu) rfl, hs,
      GrowsTo.refl _, hi, Edge.isNegated_ofIndex i, hget, adds_refl _ _⟩
  | none =>
    have hfree : share n s.unbounded =
        .ok (.ofIndex s.nodes.size, (s.push n).unbounded) := by
      rw [share_of_none (s := s.unbounded) hu]
      rfl
    have hnew : ∀ t : Store, t.nodes = s.nodes.push n →
        2 ≤ (Edge.ofIndex s.nodes.size).index ∧ (Edge.ofIndex s.nodes.size).isNegated = false ∧
          t.nodes[(Edge.ofIndex s.nodes.size).index]? = some n ∧
          s.Adds (.ofIndex s.nodes.size) t := by
      intro t ht
      refine ⟨hs.reduced.two_le_size, Edge.isNegated_ofIndex _, ?_, Or.inr (Nat.le_refl _)⟩
      rw [ht]
      exact Array.getElem?_push_size
    by_cases hfull : s.bounded = true ∧ maxNodes ≤ s.nodes.size
    · have hform := s.growsTo_unbounded.nodeForm hn
      refine ⟨.ofIndex s.nodes.size, (s.push n).unbounded,
        .beyond hfull.1 ((share_of_none hu).trans (if_pos hfull)) hfree rfl ?_,
        hs.unbounded.push hform hu (fun h => nomatch h), s.growsTo_push n, hnew _ rfl⟩
      have hsize := s.size_push n
      show maxNodes < (s.push n).nodes.size
      omega
    · exact ⟨.ofIndex s.nodes.size, s.push n,
        .within ((share_of_none hu).trans (if_neg hfull)) hfree rfl,
        hs.push hn hu fun h => Nat.lt_of_not_le fun hle => hfull ⟨h, hle⟩, s.growsTo_push n,
        hnew _ rfl⟩

/-- The edge is the choice between two edges on a variable. It leads to no older node than they
do, and nothing is new unless the edge is. -/
structure Joins (s : Store) (v : Nat) (e f : Edge) (φ ψ : Assignment → Bool) (r : Edge)
    (t : Store) : Prop where
  denotes : t.Denotes r fun ρ => if ρ v then ψ ρ else φ ρ
  low_le : e.index ≤ r.index
  high_le : f.index ≤ r.index
  adds : s.Adds r t

/-- A test of a variable before both sides, with a high side free of complements. -/
theorem Valid.gives_shareTest (hs : s.Valid) (hv : 0 < v) (hv' : v ≤ lastVariable)
    (hl : s.Denotes e φ) (hh : s.Denotes f ψ) (hlu : s.Under v e) (hhu : s.Under v f)
    (hr : f.isNegated = false) : s.Gives (shareTest ⟨v, e, f⟩) (s.Joins v e f φ ψ) := by
  unfold shareTest
  by_cases heq : e = f
  · subst heq
    rw [if_pos rfl]
    refine hs.gives_pure ⟨hl.congr fun ρ => ?_, Nat.le_refl _, Nat.le_refl _, adds_refl s e⟩
    rw [hl.unique hh, ite_self]
  · rw [if_neg heq]
    have hform : s.NodeForm s.nodes.size ⟨v, e, f⟩ :=
      ⟨hv, hv', hr, heq, ⟨hl.has.1, hl.has.2⟩, ⟨hh.has.1, hh.has.2⟩, hlu, hhu⟩
    refine (hs.gives_share hform).mono fun r t ht hst ⟨hi, hneg, hn, hadds⟩ => ?_
    have hr : t.Has r := ⟨by omega, (Array.getElem?_eq_some_iff.1 hn).1⟩
    have hrt : r.isTerminal = false := by
      rw [← Bool.not_eq_true, Edge.isTerminal_iff_index]
      omega
    have hnode := ht.reduced.form _ _ hi hn
    refine ⟨?_, Nat.le_of_lt hnode.low_older.2, Nat.le_of_lt hnode.high_older.2, hadds⟩
    -- the shared edge is regular, so its sides are the given ones
    refine denotes_of_node ht.reduced hr hrt hn ?_ ?_
    · rw [Edge.along_of_pos hneg]
      exact hl.grow hs.reduced hst
    · rw [Edge.along_of_pos hneg]
      exact hh.grow hs.reduced hst

/-- Branching on a variable before both sides joins them. -/
theorem Valid.gives_join (hs : s.Valid) (hv : 0 < v) (hv' : v ≤ lastVariable)
    (hl : s.Denotes e φ) (hh : s.Denotes f ψ) (hlu : s.Under v e) (hhu : s.Under v f) :
    s.Gives (branch v e f) (s.Joins v e f φ ψ) := by
  have hrange : ¬ (v = 0 ∨ lastVariable < v) := by omega
  unfold branch
  rw [if_neg hrange]
  cases hf : f.isNegated with
  | false => exact hs.gives_shareTest hv hv' hl hh hlu hhu hf
  | true =>
    -- the node of the complemented sides, whose complement is the answer
    refine Gives.ask_bind (complement_of_lt hl.has.2)
      (Gives.ask_bind (complement_of_lt hh.has.2) ?_)
    have hreg : (-f).isNegated = false := by rw [Edge.isNegated_neg hh.has.1, hf]; rfl
    refine ((hs.gives_shareTest hv hv' (hl.neg hs.reduced) (hh.neg hs.reduced) hlu.neg hhu.neg
      hreg).mono fun r t ht _ hr => ?_).map
    have hlow := hr.low_le
    have hhigh := hr.high_le
    rw [Edge.index_neg] at hlow hhigh
    refine ⟨(hr.denotes.neg ht.reduced).congr fun ρ => ?_, ?_, ?_, hr.adds.neg⟩
    · cases ρ v <;> simp
    · rwa [Edge.index_neg]
    · rwa [Edge.index_neg]

/-- **Branching on a variable before both sides gives the choice between them.** -/
theorem Valid.gives_branch (hs : s.Valid) (hv : 0 < v) (hv' : v ≤ lastVariable)
    (hl : s.Denotes e φ) (hh : s.Denotes f ψ) (hlu : s.Under v e) (hhu : s.Under v f) :
    s.Gives (branch v e f) fun r t => t.Denotes r fun ρ => if ρ v then ψ ρ else φ ρ :=
  (hs.gives_join hv hv' hl hh hlu hhu).mono fun _ _ _ _ hr => hr.denotes

/-- A literal is the value of its variable. -/
theorem Valid.gives_literal (hs : s.Valid) (hv : 0 < v) (hv' : v ≤ lastVariable) :
    s.Gives (literal v) fun r t => t.Denotes r fun ρ => ρ v :=
  (hs.gives_branch hv hv' (denotes_zero hs.reduced) (denotes_one hs.reduced) (Or.inl rfl)
    (Or.inl rfl)).mono fun _ _ _ _ hr => hr.congr fun ρ => by cases ρ v <;> rfl

/-- A literal takes one node at most. -/
theorem size_literal_le (h : literal v s = .ok (e, t)) : t.nodes.size ≤ s.nodes.size + 1 := by
  unfold literal branch at h
  split at h
  · cases h
  · exact size_share_le h

/-- A number beyond the last variable has no literal. -/
theorem literal_of_lt (hv : lastVariable < v) (s : Store) :
    literal v s = .error (.badVariable v) := by
  unfold literal branch
  rw [if_pos (Or.inr hv)]
  rfl

end Store

end Stimulus.Diagram

import Mathlib.Data.List.Forall2
import Stimulus.Proofs.Diagram.Losses

/-!
# Case splits

On a valid store `choose f g h` meets no fault but a full storage and gives the edge
whose function is that of `g` where `f` holds and that of `h` elsewhere
(`Store.Valid.gives_choose`); the connectives follow, also over lists
(`Store.Valid.gives_conjAll`, `Store.Valid.gives_disjAll`).

Reducing a case split keeps its meaning (`Store.settles_reduce`). A case split
that is left open (`Triple.Open`) has a variable to split on that is not the last
one, or its branches would be settled (`Store.Splits.top`). Splitting leads to
smaller indexes, so the sum of the three indexes bounds the depth
(`Store.gives_chooseLosing`). The answers of the two sides ignore the variable of
the split and all earlier ones, hence they start after it. All of this holds
whatever the computed table loses on the way, and where the answer is stored already
nothing is added (`Store.Resolves`).
-/

set_option autoImplicit false

namespace Stimulus.Diagram

/-- The choice between two functions by a third one. -/
def ite (φ ψ χ : Assignment → Bool) : Assignment → Bool := fun ρ => if φ ρ then ψ ρ else χ ρ

/-- The edges that a case split is about, by the sum of their indexes. -/
def Triple.weight (c : Triple) : Nat := c.test.index + c.yes.index + c.no.index

/-- Case splits that no rule settles. -/
structure Triple.Open (c : Triple) : Prop where
  /-- The test is not constant. -/
  test : c.test.isTerminal = false
  /-- The first branch is not the test, in either polarity. -/
  yes_ne : c.yes.index ≠ c.test.index
  /-- The second branch is not the test, in either polarity. -/
  no_ne : c.no.index ≠ c.test.index
  /-- The branches are not both constant. -/
  branches : c.yes.isTerminal = true → c.no.isTerminal = false

/-- The case split with a complement moved out of the test by exchanging the branches. -/
def Triple.turn (c : Triple) : Triple := if c.test.isNegated then ⟨-c.test, c.no, c.yes⟩ else c

theorem Triple.weight_turn (c : Triple) : c.turn.weight = c.weight := by
  unfold turn
  split
  · simp only [weight, Edge.index_neg]
    omega
  · rfl

theorem Triple.Open.turn {c : Triple} (ho : c.Open) : c.turn.Open := by
  unfold Triple.turn
  split
  · refine ⟨by rw [Edge.isTerminal_neg, ho.test], ?_, ?_, fun hno => ?_⟩
    · rw [Edge.index_neg]
      exact ho.no_ne
    · rw [Edge.index_neg]
      exact ho.yes_ne
    · cases hy : c.yes.isTerminal with
      | false => rfl
      | true =>
        rw [ho.branches hy] at hno
        cases hno
  · exact ho

namespace Store

variable {s t : Store} {e f g h k : Edge} {n m : Node} {c u : Triple} {v : Nat}
  {φ ψ χ : Assignment → Bool}

/-- The three edges of a case split with their functions. -/
structure Splits (s : Store) (c : Triple) (φ ψ χ : Assignment → Bool) : Prop where
  test : s.Denotes c.test φ
  yes : s.Denotes c.yes ψ
  no : s.Denotes c.no χ

theorem Splits.grow (h : s.Splits c φ ψ χ) (hs : s.Reduced) (hst : s.GrowsTo t) :
    t.Splits c φ ψ χ :=
  ⟨h.test.grow hs hst, h.yes.grow hs hst, h.no.grow hs hst⟩

theorem Splits.weight_pos (h : s.Splits c φ ψ χ) : 3 ≤ c.weight := by
  have h1 := h.test.has.1
  have h2 := h.yes.has.1
  have h3 := h.no.has.1
  unfold Triple.weight
  omega

/-- There are more triples of edges than the sum of the indexes of one. -/
theorem Splits.weight_le (h : s.Splits c φ ψ χ) (hs : s.Reduced) :
    c.weight ≤ 2 * s.nodes.size * (2 * s.nodes.size) * (2 * s.nodes.size) := by
  have h1 := h.test.has.2
  have h2 := h.yes.has.2
  have h3 := h.no.has.2
  have hsz := hs.two_le_size
  have hsq : 4 * 4 ≤ 2 * s.nodes.size * (2 * s.nodes.size) := Nat.mul_le_mul (by omega) (by omega)
  have hcube := Nat.mul_le_mul_right (2 * s.nodes.size) hsq
  unfold Triple.weight
  omega

/-! ## Reduction -/

/-- Sharpening a branch keeps it on its side of the test, where the test has the value `b`. -/
theorem denotes_sharpen (hs : s.Reduced) (hf : s.Denotes f φ) (hg : s.Denotes g ψ) (b : Bool) :
    ∃ ψ', s.Denotes (Triple.sharpen f g (.ofBool b) (.ofBool !b)) ψ' ∧
      ∀ ρ, φ ρ = b → ψ' ρ = ψ ρ := by
  unfold Triple.sharpen
  by_cases h1 : g = f
  · subst h1
    rw [if_pos rfl]
    refine ⟨_, denotes_ofBool hs b, fun ρ hb => ?_⟩
    rw [hg.unique hf, hb]
  · rw [if_neg h1]
    by_cases h2 : g = -f
    · subst h2
      rw [if_pos rfl]
      refine ⟨_, denotes_ofBool hs !b, fun ρ hb => ?_⟩
      rw [hg.unique (hf.neg hs)]
      exact congrArg not hb.symm
    · rw [if_neg h2]
      exact ⟨ψ, hg, fun _ _ => rfl⟩

theorem index_sharpen_le (hg : s.Has g) (b b' : Bool) :
    (Triple.sharpen f g (.ofBool b) (.ofBool b')).index ≤ g.index := by
  have hone : ∀ b, (Edge.ofBool b).index = 1 := fun b => by cases b <;> rfl
  have h1 := hg.1
  unfold Triple.sharpen
  split
  · rw [hone]
    exact h1
  · split
    · rw [hone]
      exact h1
    · exact Nat.le_refl _

/-- A sharpened branch is neither the test nor its complement, unless the test is constant. -/
theorem sharpen_ne (hf : f.isTerminal = false) (b b' : Bool) :
    (Triple.sharpen f g (.ofBool b) (.ofBool b')).index = f.index → False := by
  have hone : ∀ b, (Edge.ofBool b).index = 1 := fun b => by cases b <;> rfl
  have hne : f.index ≠ 1 := fun h => by
    rw [(Edge.isTerminal_iff_index f).2 h] at hf
    cases hf
  intro h
  unfold Triple.sharpen at h
  split at h
  · exact hne (by rw [← h, hone])
  · rename_i h1
    split at h
    · exact hne (by rw [← h, hone])
    · rename_i h2
      rcases Edge.eq_or_eq_neg_of_index h with h | h
      · exact h1 h
      · exact h2 h

/-- The meaning of a reduced case split: an answer to it, or an open case split that is not larger
and whose answer, complemented if `negated`, is the wanted one. -/
def Settles (s : Store) (c : Triple) (κ : Assignment → Bool) : Reduction → Prop
  | .settled e => s.Denotes e κ
  | .pending u negated => u.Open ∧ u.weight ≤ c.weight ∧
      ∃ φ ψ χ, s.Splits u φ ψ χ ∧ ∀ ρ, (negated != ite φ ψ χ ρ) = κ ρ

theorem Splits.turn (h : s.Splits c φ ψ χ) (hs : s.Reduced) :
    ∃ φ' ψ' χ', s.Splits c.turn φ' ψ' χ' ∧ ite φ' ψ' χ' = ite φ ψ χ := by
  unfold Triple.turn
  split
  · refine ⟨_, χ, ψ, ⟨h.test.neg hs, h.no, h.yes⟩, funext fun ρ => ?_⟩
    unfold ite
    cases hb : φ ρ <;> simp [hb]
  · exact ⟨φ, ψ, χ, h, rfl⟩

/-- Moving the complements out of the test and the first branch. -/
theorem settles_orient (hs : s.Reduced) (ho : c.Open) (h : s.Splits c φ ψ χ) :
    s.Settles c (ite φ ψ χ) c.orient := by
  obtain ⟨φ', ψ', χ', hsp, hκ⟩ := h.turn hs
  have huo := ho.turn
  have huw := c.weight_turn
  unfold Triple.orient
  show s.Settles c (ite φ ψ χ) (if c.turn.yes.isNegated then _ else _)
  cases hn : c.turn.yes.isNegated with
  | false =>
    refine ⟨huo, Nat.le_of_eq huw, φ', ψ', χ', hsp, fun ρ => ?_⟩
    rw [← hκ, Bool.false_bne]
  | true =>
    -- both branches are complemented, and the answer back again
    refine ⟨⟨huo.test, ?_, ?_, fun hy => ?_⟩, ?_, φ', _, _,
      ⟨hsp.test, hsp.yes.neg hs, hsp.no.neg hs⟩, fun ρ => ?_⟩
    · rw [Edge.index_neg]
      exact huo.yes_ne
    · rw [Edge.index_neg]
      exact huo.no_ne
    · rw [Edge.isTerminal_neg] at hy ⊢
      exact huo.branches hy
    · rw [← huw]
      simp only [Triple.weight, Edge.index_neg]
      exact Nat.le_refl _
    · rw [← hκ]
      unfold ite
      cases φ' ρ <;> simp

theorem Settles.of_weight_le {d : Triple} {κ : Assignment → Bool} {r : Reduction}
    (h : s.Settles d κ r) (hw : d.weight ≤ c.weight) : s.Settles c κ r := by
  cases r with
  | settled e => exact h
  | pending u negated =>
    obtain ⟨hopen, hle, hu⟩ := h
    exact ⟨hopen, Nat.le_trans hle hw, hu⟩

/-- The rules for branches that are not the test, in either polarity. -/
theorem settles_branches (hs : s.Reduced) (h : s.Splits ⟨f, g, k⟩ φ ψ χ)
    (hf : f.isTerminal = false) (hg : g.index ≠ f.index) (hk : k.index ≠ f.index) :
    s.Settles ⟨f, g, k⟩ (ite φ ψ χ)
      (if g = k then .settled g
      else if g = .one ∧ k = .zero then .settled f
      else if g = .zero ∧ k = .one then .settled (-f)
      else Triple.orient ⟨f, g, k⟩) := by
  by_cases heq : g = k
  · rw [if_pos heq]
    subst heq
    refine h.yes.congr fun ρ => ?_
    rw [ite, h.yes.unique h.no, ite_self]
  rw [if_neg heq]
  by_cases h10 : g = .one ∧ k = .zero
  · rw [if_pos h10]
    obtain ⟨rfl, rfl⟩ := h10
    refine h.test.congr fun ρ => ?_
    rw [ite, h.yes.unique (denotes_one hs), h.no.unique (denotes_zero hs)]
    cases φ ρ <;> rfl
  rw [if_neg h10]
  by_cases h01 : g = .zero ∧ k = .one
  · rw [if_pos h01]
    obtain ⟨rfl, rfl⟩ := h01
    refine (h.test.neg hs).congr fun ρ => ?_
    rw [ite, h.yes.unique (denotes_zero hs), h.no.unique (denotes_one hs)]
    cases φ ρ <;> rfl
  rw [if_neg h01]
  refine settles_orient hs ⟨hf, hg, hk, fun hyes => ?_⟩ h
  -- two constant branches would have been one of the cases before
  rw [← Bool.not_eq_true]
  intro hno
  rcases (Edge.isTerminal_iff g).1 hyes with rfl | rfl <;>
    rcases (Edge.isTerminal_iff k).1 hno with rfl | rfl <;> simp at heq h10 h01

/-- **Reducing a case split keeps its meaning.** -/
theorem settles_reduce (hs : s.Reduced) (h : s.Splits c φ ψ χ) :
    s.Settles c (ite φ ψ χ) c.reduce := by
  unfold Triple.reduce
  by_cases h1 : c.test = .one
  · rw [if_pos h1]
    refine h.yes.congr fun ρ => ?_
    have hone := h1 ▸ h.test
    rw [ite, hone.unique (denotes_one hs), if_pos rfl]
  rw [if_neg h1]
  by_cases h0 : c.test = .zero
  · rw [if_pos h0]
    refine h.no.congr fun ρ => ?_
    have hzero := h0 ▸ h.test
    rw [ite, hzero.unique (denotes_zero hs)]
    rfl
  rw [if_neg h0]
  have hft : c.test.isTerminal = false := by
    rw [← Bool.not_eq_true, Edge.isTerminal_iff]
    exact fun h => h.elim h0 h1
  obtain ⟨ψ', hyes, hψ⟩ := denotes_sharpen hs h.test h.yes true
  obtain ⟨χ', hno, hχ⟩ := denotes_sharpen hs h.test h.no false
  -- each branch counts on its side of the test only
  have hκ : ite φ ψ' χ' = ite φ ψ χ := by
    funext ρ
    unfold ite
    cases hb : φ ρ with
    | true => exact hψ ρ hb
    | false => exact hχ ρ hb
  have hsharp : s.Splits ⟨c.test, Triple.sharpen c.test c.yes .one .zero,
      Triple.sharpen c.test c.no .zero .one⟩ φ ψ' χ' := ⟨h.test, hyes, hno⟩
  rw [← hκ]
  refine (settles_branches hs hsharp hft (sharpen_ne hft true false)
    (sharpen_ne hft false true)).of_weight_le ?_
  have hy : (Triple.sharpen c.test c.yes .one .zero).index ≤ c.yes.index :=
    index_sharpen_le h.yes.has true false
  have hn : (Triple.sharpen c.test c.no .zero .one).index ≤ c.no.index :=
    index_sharpen_le h.no.has false true
  simp only [Triple.weight]
  omega

theorem Splits.denotes_of_settled (h : s.Splits c φ ψ χ) (hs : s.Reduced)
    (hr : c.reduce = .settled e) : s.Denotes e (ite φ ψ χ) := by
  have hset := settles_reduce hs h
  rwa [hr] at hset

theorem Splits.open_of_pending {negated : Bool} (h : s.Splits c φ ψ χ) (hs : s.Reduced)
    (hr : c.reduce = .pending u negated) : u.Open ∧ u.weight ≤ c.weight ∧
      ∃ φ' ψ' χ', s.Splits u φ' ψ' χ' ∧ ∀ ρ, (negated != ite φ' ψ' χ' ρ) = ite φ ψ χ ρ := by
  have hset := settles_reduce hs h
  rwa [hr] at hset

/-- The answer to what is left of a case split, complemented where the reduction says so. -/
theorem Denotes.finish {negated : Bool} {κ κ' : Assignment → Bool} (he : s.Denotes e κ')
    (hs : s.Reduced) (hκ : ∀ ρ, (negated != κ' ρ) = κ ρ) :
    s.Denotes (if negated then -e else e) κ := by
  cases negated with
  | false => exact he.congr fun ρ => by rw [← hκ ρ, Bool.false_bne]
  | true => exact (he.neg hs).congr fun ρ => by rw [← hκ ρ, Bool.true_bne]

/-! ## Splitting -/

/-- The level of an edge is the first variable at which its function can change. -/
theorem level_of_node (ht : e.isTerminal = false) (hn : s.nodes[e.index]? = some n) :
    s.level e = .ok n.var := by
  unfold level
  rw [ht]
  show (s.node e).map Node.var = _
  rw [node_of_get? hn]
  rfl

theorem level_of_isTerminal (ht : e.isTerminal = true) : s.level e = .ok lastVariable := by
  unfold level
  rw [if_pos ht]

theorem Under.isTerminal_of_last (hs : s.Reduced) (he : s.Has e) (hu : s.Under lastVariable e) :
    e.isTerminal = true := by
  rcases hu with ht | ⟨n, hn, hlt⟩
  · exact ht
  · cases ht : e.isTerminal with
    | true => rfl
    | false =>
      have hle := (hs.form _ n (he.two_le ht) hn).var_le
      omega

/-- A node on the last variable is its literal. -/
theorem Reduced.eq_of_last (hs : s.Reduced) (he : s.Has e) (ht : e.isTerminal = false)
    (hn : s.nodes[e.index]? = some n) (hv : n.var = lastVariable) :
    n = ⟨lastVariable, .zero, .one⟩ := by
  have hform := hs.form _ n (he.two_le ht) hn
  have hterm : ∀ b, (n.side b).isTerminal = true := fun b =>
    Under.isTerminal_of_last hs (hform.has_side he b) (hv ▸ hform.side_under b)
  -- a regular constant, and the other one
  have hhigh : n.high = .one := by
    rcases (Edge.isTerminal_iff _).1 (hterm true) with h | h
    · have hreg := hform.high_regular
      rw [show n.high = .zero from h] at hreg
      cases hreg
    · exact h
  have hlow : n.low = .zero := by
    rcases (Edge.isTerminal_iff _).1 (hterm false) with h | h
    · exact h
    · exact absurd (show n.low = n.high from h.trans hhigh.symm) hform.low_ne_high
  cases n
  simp only at hv hlow hhigh
  rw [hv, hlow, hhigh]

/-- Two edges to nodes on the last variable lead to the same node. -/
theorem Reduced.index_eq_of_last (hs : s.Reduced) (he : s.Has e) (hf : s.Has f)
    (het : e.isTerminal = false) (hft : f.isTerminal = false) (hn : s.nodes[e.index]? = some n)
    (hm : s.nodes[f.index]? = some m) (hnv : n.var = lastVariable) (hmv : m.var = lastVariable) :
    e.index = f.index := by
  rw [hs.eq_of_last he het hn hnv] at hn
  rw [hs.eq_of_last hf hft hm hmv] at hm
  exact hs.index_inj (he.two_le het) (hf.two_le hft) hn hm

theorem Reduced.exists_level (hs : s.Reduced) (he : s.Has e) :
    ∃ l, s.level e = .ok l ∧ 0 < l ∧ l ≤ lastVariable ∧
      (e.isTerminal = false → ∃ n, s.nodes[e.index]? = some n ∧ n.var = l) := by
  cases ht : e.isTerminal with
  | true => exact ⟨_, level_of_isTerminal ht, by decide, Nat.le_refl _, fun h => by cases h⟩
  | false =>
    obtain ⟨n, hn, hf⟩ := hs.get? he ht
    exact ⟨n.var, level_of_node ht hn, hf.var_pos, hf.var_le, fun _ => ⟨n, hn, rfl⟩⟩

/-- An open case split has a variable to split on: the first one of its edges, which is not the
last of all variables. -/
theorem Splits.top (h : s.Splits c φ ψ χ) (hs : s.Reduced) (ho : c.Open) :
    ∃ v l₁ l₂ l₃, s.level c.test = .ok l₁ ∧ s.level c.yes = .ok l₂ ∧ s.level c.no = .ok l₃ ∧
      v = min l₁ (min l₂ l₃) ∧ 0 < v ∧ v < lastVariable ∧ s.top c = .ok v := by
  obtain ⟨l₁, h₁, hp₁, hl₁, hn₁⟩ := hs.exists_level h.test.has
  obtain ⟨l₂, h₂, hp₂, hl₂, hn₂⟩ := hs.exists_level h.yes.has
  obtain ⟨l₃, h₃, hp₃, hl₃, hn₃⟩ := hs.exists_level h.no.has
  have hlt : min l₁ (min l₂ l₃) < lastVariable := by
    refine Nat.lt_of_le_of_ne (by omega) fun heq => ?_
    -- all edges would be on the last variable, where there is one node besides the terminal
    have e₁ : l₁ = lastVariable := by omega
    have e₂ : l₂ = lastVariable := by omega
    have e₃ : l₃ = lastVariable := by omega
    obtain ⟨n, hn, hnv⟩ := hn₁ ho.test
    cases hy : c.yes.isTerminal with
    | false =>
      obtain ⟨m, hm, hmv⟩ := hn₂ hy
      exact ho.yes_ne (hs.index_eq_of_last h.yes.has h.test.has hy ho.test hm hn
        (hmv.trans e₂) (hnv.trans e₁))
    | true =>
      have hno := ho.branches hy
      obtain ⟨m, hm, hmv⟩ := hn₃ hno
      exact ho.no_ne (hs.index_eq_of_last h.no.has h.test.has hno ho.test hm hn
        (hmv.trans e₃) (hnv.trans e₁))
  refine ⟨_, l₁, l₂, l₃, h₁, h₂, h₃, rfl, by omega, hlt, ?_⟩
  unfold Store.top
  rw [h₁, h₂, h₃]
  show (if min l₁ (min l₂ l₃) = lastVariable then _ else _) = _
  rw [if_neg (Nat.ne_of_lt hlt)]
  rfl

/-- A cofactor of an edge: what is left of its function when a variable is fixed. -/
structure Cofactor (s : Store) (e : Edge) (φ : Assignment → Bool) (v : Nat) (b : Bool)
    (a : Edge) : Prop where
  /-- It denotes the function with the variable fixed. -/
  denotes : s.Denotes a fun ρ => φ (ρ.set v b)
  /-- It starts after the variable. -/
  under : s.Under v a
  /-- It leads to no later node than the edge. -/
  index_le : a.index ≤ e.index
  /-- It leads to an older node than an edge that starts at the variable. -/
  index_lt : s.level e = .ok v → a.index < e.index

/-- An edge that starts after a variable is its own cofactor. -/
theorem Denotes.cofactor_self (h : s.Denotes e φ) (hs : s.Reduced) {l : Nat}
    (hl : s.level e = .ok l) (hvl : v < l) (hu : s.Under v e) (b : Bool) :
    s.Cofactor e φ v b e := by
  refine ⟨h.congr fun ρ => (h.ignores hs hu (Nat.le_refl v) ρ b).symm, hu, Nat.le_refl _,
    fun heq => ?_⟩
  rw [hl] at heq
  cases heq
  omega

/-- The sides of a node are the cofactors at its variable. -/
theorem Denotes.cofactor_side (h : s.Denotes e φ) (hs : s.Reduced) (ht : e.isTerminal = false)
    (hn : s.nodes[e.index]? = some n) (b : Bool) :
    s.Cofactor e φ n.var b (e.along (n.side b)) := by
  have hf := hs.form _ n (h.has.two_le ht) hn
  have hlt : (e.along (n.side b)).index < e.index := by
    rw [Edge.index_along]
    exact hf.side_lt b
  exact ⟨h.side hs ht hn b, (hf.side_under b).along e, Nat.le_of_lt hlt, fun _ => hlt⟩

/-- The cofactors of an edge at a variable that is not after its start. -/
theorem Denotes.cofactors (h : s.Denotes e φ) (hs : s.Reduced) (hv : v < lastVariable) {l : Nat}
    (hl : s.level e = .ok l) (hvl : v ≤ l) :
    ∃ lo hi, s.cofactors e v = .ok (lo, hi) ∧
      s.Cofactor e φ v false lo ∧ s.Cofactor e φ v true hi := by
  have hbelow : v < l → s.Under v e → ∃ lo hi, s.cofactors e v = .ok (lo, hi) ∧
      s.Cofactor e φ v false lo ∧ s.Cofactor e φ v true hi := by
    intro hlt hu
    refine ⟨e, e, ?_, h.cofactor_self hs hl hlt hu _, h.cofactor_self hs hl hlt hu _⟩
    unfold Store.cofactors
    rw [hl]
    show (if v < l then _ else _) = _
    rw [if_pos hlt]
    rfl
  cases ht : e.isTerminal with
  | true =>
    rw [level_of_isTerminal ht] at hl
    cases hl
    exact hbelow hv (Or.inl ht)
  | false =>
    obtain ⟨n, hn, hf⟩ := hs.get? h.has ht
    have hlv := level_of_node ht hn
    rw [hl] at hlv
    cases hlv
    rcases Nat.lt_or_eq_of_le hvl with hlt | rfl
    · exact hbelow hlt (Or.inr ⟨n, hn, hlt⟩)
    · refine ⟨e.along n.low, e.along n.high, ?_, h.cofactor_side hs ht hn false,
        h.cofactor_side hs ht hn true⟩
      unfold Store.cofactors
      rw [hl]
      show (if n.var < n.var then _ else _) = _
      rw [if_neg (Nat.lt_irrefl _), node_of_get? hn]
      show (if n.var = n.var then _ else _) = _
      rw [if_pos rfl, through_of_has (hf.has_low h.has), through_of_has (hf.has_high h.has)]
      rfl

/-- One side of a case split: the cofactors of its edges. The answer starts after the variable, and
the side is smaller where an edge of the case split starts at the variable. -/
theorem side_of_cofactors {b : Bool} (hs : s.Reduced) (hf : s.Cofactor c.test φ v b f)
    (hg : s.Cofactor c.yes ψ v b g) (hk : s.Cofactor c.no χ v b k)
    (hat : s.level c.test = .ok v ∨ s.level c.yes = .ok v ∨ s.level c.no = .ok v) :
    Triple.weight ⟨f, g, k⟩ < c.weight ∧ ∃ φ' ψ' χ', s.Splits ⟨f, g, k⟩ φ' ψ' χ' ∧
      (∀ ρ, ite φ' ψ' χ' ρ = ite φ ψ χ (ρ.set v b)) ∧ ∀ u, u ≤ v → Ignores (ite φ' ψ' χ') u := by
  constructor
  · have h₁ := hf.index_le
    have h₂ := hg.index_le
    have h₃ := hk.index_le
    simp only [Triple.weight]
    rcases hat with hv | hv | hv
    · have := hf.index_lt hv
      omega
    · have := hg.index_lt hv
      omega
    · have := hk.index_lt hv
      omega
  · refine ⟨_, _, _, ⟨hf.denotes, hg.denotes, hk.denotes⟩, fun ρ => rfl, fun u hu ρ b => ?_⟩
    have i₁ := hf.denotes.ignores hs hf.under hu ρ b
    have i₂ := hg.denotes.ignores hs hg.under hu ρ b
    have i₃ := hk.denotes.ignores hs hk.under hu ρ b
    simp only [ite, i₁, i₂, i₃]

/-- Splitting an open case split at its top variable: two smaller case splits over the cofactors,
whose answers start after the variable. -/
theorem Splits.split (h : s.Splits c φ ψ χ) (hs : s.Reduced) (ho : c.Open) :
    ∃ v lo hi, s.top c = .ok v ∧ s.split c v = .ok (lo, hi) ∧ 0 < v ∧ v ≤ lastVariable ∧
      lo.weight < c.weight ∧ hi.weight < c.weight ∧
      ∀ b, ∃ φ' ψ' χ', s.Splits (if b then hi else lo) φ' ψ' χ' ∧
        (∀ ρ, ite φ' ψ' χ' ρ = ite φ ψ χ (ρ.set v b)) ∧ ∀ u, u ≤ v → Ignores (ite φ' ψ' χ') u := by
  obtain ⟨v, l₁, l₂, l₃, h₁, h₂, h₃, hvl, hpos, hlast, htop⟩ := h.top hs ho
  obtain ⟨f₀, f₁, hf, hf₀, hf₁⟩ := h.test.cofactors hs hlast h₁ (by omega)
  obtain ⟨g₀, g₁, hg, hg₀, hg₁⟩ := h.yes.cofactors hs hlast h₂ (by omega)
  obtain ⟨k₀, k₁, hk, hk₀, hk₁⟩ := h.no.cofactors hs hlast h₃ (by omega)
  have hat : s.level c.test = .ok v ∨ s.level c.yes = .ok v ∨ s.level c.no = .ok v := by
    rw [h₁, h₂, h₃]
    simp only [Except.ok.injEq]
    omega
  obtain ⟨hwlo, hlo⟩ := side_of_cofactors hs hf₀ hg₀ hk₀ hat
  obtain ⟨hwhi, hhi⟩ := side_of_cofactors hs hf₁ hg₁ hk₁ hat
  refine ⟨v, ⟨f₀, g₀, k₀⟩, ⟨f₁, g₁, k₁⟩, htop, ?_, hpos, Nat.le_of_lt hlast, hwlo, hwhi,
    fun b => ?_⟩
  · unfold Store.split
    rw [hf, hg, hk]
    rfl
  · cases b with
    | false => exact hlo
    | true => exact hhi

/-! ## The computed table -/

theorem Gives.remembered_bind {α : Type} {k : Option Edge → Build α} {R : α → Store → Prop}
    (hk : s.Gives (k s.computed[c]?) R) : s.Gives (remembered c >>= k) R :=
  hk.of_eq (GrowsTo.refl s) rfl rfl rfl

/-- The store that remembers one more answer. -/
def learn (s : Store) (c : Triple) (e : Edge) : Store :=
  { s with computed := s.computed.insert c e }

theorem Valid.gives_remember (hs : s.Valid) (h : s.Splits c φ ψ χ) (he : s.Denotes e (ite φ ψ χ)) :
    s.Gives (remember c e) fun _ t => s.SameNodes t := by
  have hsame : s.SameNodes (s.learn c e) := ⟨rfl, rfl, rfl⟩
  have hgrow := hsame.growsTo
  refine ⟨(), s.learn c e, .within rfl rfl rfl,
    ⟨hsame.reduced hs.reduced, hs.size_le, fun d r hd => ?_⟩, hgrow, hsame⟩
  change (s.computed.insert c e)[d]? = some r at hd
  rw [Std.TreeMap.getElem?_insert] at hd
  split at hd
  · rename_i hcmp
    have hcd : c = d := Std.LawfulEqCmp.eq_of_compare hcmp
    cases hd
    subst hcd
    have hs' := h.grow hs.reduced hgrow
    exact ⟨φ, ψ, χ, hs'.test, hs'.yes, hs'.no, he.grow hs.reduced hgrow⟩
  · exact (hs.computed d r hd).grow hs.reduced hgrow

/-! ## The answer -/

theorem checkTest_of_has (hf : s.Has c.test) : s.checkTest c = .ok () := by
  unfold checkTest
  split
  · rfl
  · rw [complement_of_lt hf.2]
    rfl

/-- The edge answers a case split, and nothing is new unless the edge is. -/
def Resolves (s : Store) (φ ψ χ : Assignment → Bool) (e : Edge) (t : Store) : Prop :=
  t.Denotes e (ite φ ψ χ) ∧ s.Adds e t

/-- The answer to an open case split: both sides are answered, joined at the top variable and
remembered. -/
theorem gives_answer (hs : s.Valid) (ho : c.Open) (h : s.Splits c φ ψ χ)
    (k : Bool → Triple → Build Edge)
    (hk : ∀ (b : Bool) (t : Store) (d : Triple) (φ' ψ' χ' : Assignment → Bool), t.Valid →
      t.Splits d φ' ψ' χ' → d.weight < c.weight → t.Gives (k b d) (t.Resolves φ' ψ' χ')) :
    s.Gives (do
      let v ← ask (·.top c)
      let sides ← ask (·.split c v)
      let low ← k false sides.1
      let high ← k true sides.2
      let e ← branch v low high
      remember c e
      return e) (s.Resolves φ ψ χ) := by
  obtain ⟨v, lo, hi, htop, hsplit, hpos, hlast, hwlo, hwhi, hside⟩ := h.split hs.reduced ho
  refine Gives.ask_bind htop (Gives.ask_bind hsplit ?_)
  obtain ⟨φ₀, ψ₀, χ₀, h₀, hκ₀, hi₀⟩ := hside false
  obtain ⟨φ₁, ψ₁, χ₁, h₁, hκ₁, hi₁⟩ := hside true
  refine (hk false _ lo _ _ _ hs h₀ hwlo).bind fun low t ht hst ⟨hlow, halow⟩ => ?_
  refine (hk true _ hi _ _ _ ht (h₁.grow hs.reduced hst) hwhi).bind
    fun high u hu htu ⟨hhigh, hahigh⟩ => ?_
  have hlow' := hlow.grow ht.reduced htu
  refine (hu.gives_join hpos hlast hlow' hhigh (hlow'.under hu.reduced fun x _ hx => hi₀ x hx)
    (hhigh.under hu.reduced fun x _ hx => hi₁ x hx)).bind fun e w hw huw he => ?_
  -- each side answers the split with the variable fixed to its value there
  have hκ : w.Denotes e (ite φ ψ χ) := by
    refine he.denotes.congr fun ρ => ?_
    cases hb : ρ v with
    | false => rw [if_neg (by simp), hκ₀ ρ, ← hb, Assignment.set_eq_self]
    | true => rw [if_pos rfl, hκ₁ ρ, ← hb, Assignment.set_eq_self]
  -- what the sides add leads to no later node than the answer does
  have hadds : s.Adds e w := halow.trans (hahigh.trans he.adds he.high_le) he.low_le
  have hc := (h.grow hs.reduced (hst.trans htu)).grow hu.reduced huw
  refine (hw.gives_remember hc hκ).bind fun _ x hx hwx hsame => ?_
  exact hx.gives_pure ⟨hκ.grow hw.reduced hwx, hadds.trans (.inl hsame) (Nat.le_refl _)⟩

/-- A case split is answered within as many splits as the sum of its indexes, whatever the table
loses on the way. -/
theorem gives_chooseLosing : ∀ (fuel : Nat) (losses : List Bool → Loss) (s : Store) (c : Triple)
    (φ ψ χ : Assignment → Bool), s.Valid → s.Splits c φ ψ χ → c.weight ≤ fuel →
      s.Gives (chooseLosing losses fuel c) (s.Resolves φ ψ χ) := by
  intro fuel
  induction fuel with
  | zero =>
    intro losses s c φ ψ χ _ h hw
    have := h.weight_pos
    omega
  | succ fuel ih =>
    intro losses s c φ ψ χ hs h hw
    unfold chooseLosing
    refine Gives.ask_bind (checkTest_of_has h.test.has) ?_
    cases hr : c.reduce with
    | settled e => exact hs.gives_pure ⟨h.denotes_of_settled hs.reduced hr, adds_refl s e⟩
    | pending u negated =>
      obtain ⟨hopen, hle, φ', ψ', χ', hu, hκ⟩ := h.open_of_pending hs.reduced hr
      have hfinish : ∀ (t : Store) (e : Edge), t.Valid → s.Resolves φ' ψ' χ' e t →
          t.Gives (pure (if negated then -e else e)) (s.Resolves φ ψ χ) := by
        intro t e ht hresolves
        obtain ⟨he, hadds⟩ := hresolves
        refine ht.gives_pure ⟨he.finish ht.reduced hκ, ?_⟩
        cases negated with
        | false => exact hadds
        | true => exact hadds.neg
      have hsame := s.sameNodes_lose (losses [])
      have hlost := hs.lose (losses [])
      have hu' := hu.grow hs.reduced hsame.growsTo
      refine Gives.forget_bind (Gives.remembered_bind ?_)
      cases hc : (s.lose (losses [])).computed[u]? with
      | some e =>
        exact hfinish _ e hlost
          ⟨(hlost.computed u e hc).denotes hu'.test hu'.yes hu'.no, .inl hsame⟩
      | none =>
        have hans := gives_answer hlost hopen hu'
          (fun b => chooseLosing (fun way => losses (b :: way)) fuel)
          fun b t d φ₀ ψ₀ χ₀ ht hd hwd => ih _ t d φ₀ ψ₀ χ₀ ht hd (by omega)
        have := hans.bind (k := fun e => pure (if negated then -e else e))
          fun e t ht _ he => hfinish t e ht ⟨he.1, .trans (.inl hsame) he.2 (Nat.le_refl _)⟩
        simpa only [bind_assoc, pure_bind] using this

variable (hs : s.Valid)
include hs

/-- **The case split of three functions.** -/
theorem Valid.gives_choose (hf : s.Denotes f φ) (hg : s.Denotes g ψ) (hh : s.Denotes h χ) :
    s.Gives (choose f g h) fun e t => t.Denotes e fun ρ => if φ ρ then ψ ρ else χ ρ := by
  have hresolve := gives_chooseLosing _ (fun _ => .none) s ⟨f, g, h⟩ φ ψ χ hs ⟨hf, hg, hh⟩
    (Splits.weight_le ⟨hf, hg, hh⟩ hs.reduced)
  rw [chooseLosing_none] at hresolve
  exact (hresolve.mono fun _ _ _ _ he => he.1).of_eq (GrowsTo.refl s) rfl rfl rfl

theorem Valid.gives_conj (hf : s.Denotes f φ) (hg : s.Denotes g ψ) :
    s.Gives (conj f g) fun e t => t.Denotes e fun ρ => φ ρ && ψ ρ :=
  (hs.gives_choose hf hg (denotes_zero hs.reduced)).mono fun _ _ _ _ he =>
    he.congr fun ρ => by cases φ ρ <;> rfl

theorem Valid.gives_disj (hf : s.Denotes f φ) (hg : s.Denotes g ψ) :
    s.Gives (disj f g) fun e t => t.Denotes e fun ρ => φ ρ || ψ ρ :=
  (hs.gives_choose hf (denotes_one hs.reduced) hg).mono fun _ _ _ _ he =>
    he.congr fun ρ => by cases φ ρ <;> rfl

theorem Valid.gives_differ (hf : s.Denotes f φ) (hg : s.Denotes g ψ) :
    s.Gives (differ f g) fun e t => t.Denotes e fun ρ => φ ρ != ψ ρ := by
  refine (hs.gives_complement hg).bind fun g' t ht hst ⟨_, hg'⟩ => ?_
  refine (ht.gives_choose (hf.grow hs.reduced hst) hg' (hg.grow hs.reduced hst)).mono
    fun _ _ _ _ he => he.congr fun ρ => ?_
  cases φ ρ <;> cases ψ ρ <;> rfl

theorem Valid.gives_agree (hf : s.Denotes f φ) (hg : s.Denotes g ψ) :
    s.Gives (agree f g) fun e t => t.Denotes e fun ρ => φ ρ == ψ ρ := by
  refine (hs.gives_complement hg).bind fun g' t ht hst ⟨_, hg'⟩ => ?_
  refine (ht.gives_choose (hf.grow hs.reduced hst) (hg.grow hs.reduced hst) hg').mono
    fun _ _ _ _ he => he.congr fun ρ => ?_
  cases φ ρ <;> cases ψ ρ <;> rfl

omit hs in
/-- A connective folded over a list from the left. -/
theorem gives_foldlM {join : Edge → Edge → Build Edge} {o : Bool → Bool → Bool}
    (hjoin : ∀ (s : Store) (e f : Edge) (φ ψ : Assignment → Bool), s.Valid → s.Denotes e φ →
      s.Denotes f ψ → s.Gives (join e f) fun r t => t.Denotes r fun ρ => o (φ ρ) (ψ ρ)) :
    ∀ (es : List Edge) (φs : List (Assignment → Bool)) (acc : Edge) (κ : Assignment → Bool)
      (s : Store), s.Valid → s.Denotes acc κ → List.Forall₂ s.Denotes es φs →
        s.Gives (es.foldlM join acc) fun r t =>
          t.Denotes r fun ρ => φs.foldl (fun b φ => o b (φ ρ)) (κ ρ) := by
  intro es
  induction es with
  | nil =>
    intro φs acc κ s hs hacc hes
    cases hes
    exact hs.gives_pure hacc
  | cons e es ih =>
    intro φs acc κ s hs hacc hes
    cases hes with
    | @cons _ φ _ φs he hes =>
      rw [List.foldlM_cons]
      refine (hjoin s acc e κ φ hs hacc he).bind fun r t ht hst hr => ?_
      exact ih φs r _ t ht hr (hes.imp fun _ _ h => h.grow hs.reduced hst)

omit hs in
theorem foldl_and_eq_all (φs : List (Assignment → Bool)) (ρ : Assignment) (b : Bool) :
    φs.foldl (fun b φ => b && φ ρ) b = (b && φs.all fun φ => φ ρ) := by
  induction φs generalizing b with
  | nil => exact (Bool.and_true b).symm
  | cons φ φs ih => rw [List.foldl_cons, ih, List.all_cons, Bool.and_assoc]

omit hs in
theorem foldl_or_eq_any (φs : List (Assignment → Bool)) (ρ : Assignment) (b : Bool) :
    φs.foldl (fun b φ => b || φ ρ) b = (b || φs.any fun φ => φ ρ) := by
  induction φs generalizing b with
  | nil => exact (Bool.or_false b).symm
  | cons φ φs ih => rw [List.foldl_cons, ih, List.any_cons, Bool.or_assoc]

theorem Valid.gives_conjAll {es : List Edge} {φs : List (Assignment → Bool)}
    (hes : List.Forall₂ s.Denotes es φs) :
    s.Gives (conjAll es) fun e t => t.Denotes e fun ρ => φs.all fun φ => φ ρ := by
  have hfold := gives_foldlM (fun s e f φ ψ hs he hf => Valid.gives_conj hs he hf) es φs _ _ s hs
    (denotes_one hs.reduced) hes
  refine hfold.mono fun r t _ _ hr => hr.congr fun ρ => ?_
  rw [foldl_and_eq_all, Bool.true_and]

theorem Valid.gives_disjAll {es : List Edge} {φs : List (Assignment → Bool)}
    (hes : List.Forall₂ s.Denotes es φs) :
    s.Gives (disjAll es) fun e t => t.Denotes e fun ρ => φs.any fun φ => φ ρ := by
  have hfold := gives_foldlM (fun s e f φ ψ hs he hf => Valid.gives_disj hs he hf) es φs _ _ s hs
    (denotes_zero hs.reduced) hes
  refine hfold.mono fun r t _ _ hr => hr.congr fun ρ => ?_
  rw [foldl_or_eq_any, Bool.false_or]

end Store

end Stimulus.Diagram

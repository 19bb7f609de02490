import Stimulus.Proofs.BitVector.Comparison
import Stimulus.Proofs.BitVector.Parts

/-!
# Computations that need no new node

A computation whose answer is stored has this answer on every later store and adds no
node to it (`Store.Recalls`). A case split is one if its answer has an edge
(`Store.Valid.recalls_choose`), and so is every computation that has gone through
before (`Store.Repeats.recalls`). A bit of a vector is selected by a constant index
without a new node (`Store.Valid.recalls_select`), as all that is computed on the way
is constant or the bit itself.
-/

set_option autoImplicit false

namespace Stimulus.Diagram.Store

variable {s t : Store} {e f g h : Edge} {φ ψ χ : Assignment → Bool}

/-- On every later store the computation has this result and adds no node. -/
def Recalls {α : Type} (s : Store) (x : Build α) (a : α) : Prop :=
  ∀ u, u.Valid → s.GrowsTo u → ∃ u', x u = .ok (a, u') ∧ u'.Valid ∧ u.SameNodes u'

section Recalls

variable {α β : Type} {x : Build α} {k : α → Build β} {a : α} {b : β}

theorem recalls_pure (s : Store) (a : α) : s.Recalls (pure a) a :=
  fun u hu _ => ⟨u, rfl, hu, .refl u⟩

theorem Recalls.bind (hx : s.Recalls x a) (hk : s.Recalls (k a) b) : s.Recalls (x >>= k) b := by
  intro u hu hsu
  obtain ⟨v, hr, hv, huv⟩ := hx u hu hsu
  obtain ⟨w, hr', hw, hvw⟩ := hk v hv (hsu.trans huv.growsTo)
  exact ⟨w, (bind_of_ok hr).trans hr', hw, huv.trans hvw⟩

/-- A computation that has gone through is recalled. -/
theorem Repeats.recalls (h : s.Repeats x a t) : t.Recalls x a := h.later

/-- The result of a computation on the store itself. -/
theorem Recalls.run (h : s.Recalls x a) (hs : s.Valid) : ∃ t, x s = .ok (a, t) ∧ s.SameNodes t := by
  obtain ⟨t, hr, -, hsame⟩ := h s hs (.refl s)
  exact ⟨t, hr, hsame⟩

end Recalls

/-! ## Case splits -/

/-- A case split whose answer has an edge. -/
theorem Valid.recalls_choose (hs : s.Valid) (hf : s.Denotes f φ) (hg : s.Denotes g ψ)
    (hh : s.Denotes h χ) (he : s.Denotes e fun ρ => if φ ρ then ψ ρ else χ ρ) :
    s.Recalls (choose f g h) e := by
  intro u hu hsu
  have hgrow : ∀ {f : Edge} {φ : Assignment → Bool}, s.Denotes f φ → u.Denotes f φ :=
    fun hf => hf.grow hs.reduced hsu
  have hc : u.Splits ⟨f, g, h⟩ φ ψ χ := ⟨hgrow hf, hgrow hg, hgrow hh⟩
  have hstored := gives_stored hu hc (hc.weight_le hu.reduced) (hgrow he) fun _ => .none
  rw [chooseLosing_none] at hstored
  obtain ⟨r, u', hy, hu', -, rfl, hsame⟩ :=
    hstored.of_eq (x := choose f g h) (GrowsTo.refl u) rfl rfl rfl
  exact ⟨u', hy.run_of_bounded hsame.bounded, hu', hsame⟩

theorem Valid.recalls_conj (hs : s.Valid) (hf : s.Denotes f φ) (hg : s.Denotes g ψ)
    (he : s.Denotes e fun ρ => φ ρ && ψ ρ) : s.Recalls (conj f g) e :=
  hs.recalls_choose hf hg (denotes_zero hs.reduced)
    (he.congr fun ρ => by cases φ ρ <;> rfl)

theorem Valid.recalls_disj (hs : s.Valid) (hf : s.Denotes f φ) (hg : s.Denotes g ψ)
    (he : s.Denotes e fun ρ => φ ρ || ψ ρ) : s.Recalls (disj f g) e :=
  hs.recalls_choose hf (denotes_one hs.reduced) hg
    (he.congr fun ρ => by cases φ ρ <;> rfl)

theorem Valid.recalls_agree (hs : s.Valid) (hf : s.Denotes f φ) (hg : s.Denotes g ψ)
    (he : s.Denotes e fun ρ => φ ρ == ψ ρ) : s.Recalls (agree f g) e := by
  have hnot : s.Recalls (Diagram.complement g) (-g) := fun u hu hsu =>
    ⟨u, ask_eq_ok.2 ⟨complement_of_lt (hsu.has hg.has).2, rfl⟩, hu, .refl u⟩
  refine hnot.bind (hs.recalls_choose hf hg (hg.neg hs.reduced) (he.congr fun ρ => ?_))
  cases φ ρ <;> cases ψ ρ <;> rfl

/-! ## Constant indexes -/

/-- Constants are compared without a new node. -/
theorem Valid.recalls_equalBits (hs : s.Valid) : ∀ (as bs : List Bool) (c : Bool), ∃ d,
    s.Recalls (BitVector.equalBits (as.map .ofBool) (bs.map .ofBool) (.ofBool c)) (.ofBool d) := by
  have hconst := denotes_ofBool hs.reduced
  intro as
  induction as with
  | nil => exact fun bs c => ⟨c, recalls_pure s _⟩
  | cons a as ih =>
    intro bs c
    cases bs with
    | nil => exact ⟨c, recalls_pure s _⟩
    | cons b bs =>
      obtain ⟨d, hd⟩ := ih bs (c && (a == b))
      exact ⟨d, (hs.recalls_agree (hconst a) (hconst b) (hconst (a == b))).bind
        ((hs.recalls_conj (hconst c) (hconst (a == b)) (hconst (c && (a == b)))).bind hd)⟩

theorem constantBits_eq_map (n m : Nat) :
    BitVector.constantBits n m = ((List.range m).map n.testBit).map .ofBool := by
  rw [List.map_map]
  rfl

/-- Two constant numbers are compared without a new node. -/
theorem Valid.recalls_equal (hs : s.Valid) {n i m : Nat} (hn : n < 2 ^ m) (hi : i < 2 ^ m) :
    s.Recalls (BitVector.equalBits (BitVector.constantBits n m) (BitVector.constantBits i m) .one)
      (.ofBool (n = i)) := by
  obtain ⟨d, hd⟩ := hs.recalls_equalBits ((List.range m).map n.testBit)
    ((List.range m).map i.testBit) true
  rw [← constantBits_eq_map, ← constantBits_eq_map] at hd
  -- which constant it is says the meaning of the comparison
  obtain ⟨t, hr, -⟩ := hd.run hs
  have hspells := spells_constantBits hs.reduced
  obtain ⟨ht, -, hequal⟩ := (gives_equalBits m _ _ _ _ _ _ s hs (hspells n m) (hspells i m)
    (denotes_one hs.reduced)).of_run hr
  have hd' : d = decide (n = i) := by
    have hvalue := congrFun ((denotes_ofBool ht.reduced d).unique hequal) fun _ => false
    rwa [Bool.true_and, Nat.mod_eq_of_lt hn, Nat.mod_eq_of_lt hi] at hvalue
  rwa [hd'] at hd

/-- All selections by a constant index are zero but the one at its position. -/
theorem Valid.recalls_selections (hs : s.Valid) {n m : Nat} (hn : n < 2 ^ m) :
    ∀ (as : List Edge) (i : Nat), (∀ a ∈ as, s.Has a) → ∃ es,
      s.Recalls (BitVector.selections (BitVector.constantBits n m) i as) es ∧
        ∀ e ∈ es, e = .zero ∨ i ≤ n ∧ as[n - i]? = some e := by
  have hlength : (BitVector.constantBits n m).length = m := by
    rw [constantBits_eq_map, List.length_map, List.length_map, List.length_range]
  intro as
  induction as with
  | nil => exact fun i _ => ⟨[], recalls_pure s _, fun _ he => absurd he List.not_mem_nil⟩
  | cons a as ih =>
    intro i has
    obtain ⟨ha, has⟩ := List.forall_mem_cons.1 has
    unfold BitVector.selections
    rw [Nat.one_shiftLeft, hlength]
    by_cases hi : i < 2 ^ m
    · rw [if_pos hi]
      obtain ⟨es, hes, hmem⟩ := ih (i + 1) has
      obtain ⟨φ, hφ⟩ := hs.reduced.denotes ha
      have hchosen : s.Recalls (conj (.ofBool (n = i)) a) (if n = i then a else .zero) := by
        refine hs.recalls_conj (denotes_ofBool hs.reduced _) hφ ?_
        by_cases heq : n = i
        · rw [if_pos heq, decide_eq_true heq]
          exact hφ
        · rw [if_neg heq, decide_eq_false heq]
          exact denotes_zero hs.reduced
      refine ⟨_ :: es, (hs.recalls_equal hn hi).bind (hchosen.bind
        (hes.bind (recalls_pure s _))), List.forall_mem_cons.2 ⟨?_, fun e he => ?_⟩⟩
      · split
        · rename_i heq
          exact Or.inr ⟨Nat.le_of_eq heq.symm, by rw [heq, Nat.sub_self]; rfl⟩
        · exact Or.inl rfl
      · rcases hmem e he with hzero | ⟨hle, hget⟩
        · exact Or.inl hzero
        · refine Or.inr ⟨Nat.le_of_succ_le hle, ?_⟩
          rwa [show n - i = n - (i + 1) + 1 by omega, List.getElem?_cons_succ]
    · rw [if_neg hi]
      exact ⟨[], recalls_pure s _, fun _ he => absurd he List.not_mem_nil⟩

/-- The disjunction of edges that are zero or one and the same edge. -/
theorem Valid.recalls_disjAll (hs : s.Valid) (hf : s.Has f) : ∀ (es : List Edge) (sofar : Edge),
    (sofar = .zero ∨ sofar = f) → (∀ e ∈ es, e = .zero ∨ e = f) →
      ∃ r, s.Recalls (es.foldlM disj sofar) r := by
  have hzero := denotes_zero hs.reduced
  obtain ⟨φ, hφ⟩ := hs.reduced.denotes hf
  intro es
  induction es with
  | nil => exact fun sofar _ _ => ⟨sofar, recalls_pure s _⟩
  | cons e es ih =>
    intro sofar hsofar hes
    obtain ⟨he, hes⟩ := List.forall_mem_cons.1 hes
    have hstep : ∃ r, (r = .zero ∨ r = f) ∧ s.Recalls (disj sofar e) r := by
      rcases hsofar with rfl | rfl <;> rcases he with rfl | rfl
      · exact ⟨_, Or.inl rfl, hs.recalls_disj hzero hzero hzero⟩
      · exact ⟨_, Or.inr rfl, hs.recalls_disj hzero hφ hφ⟩
      · exact ⟨_, Or.inr rfl, hs.recalls_disj hφ hzero (hφ.congr fun ρ => (Bool.or_false _).symm)⟩
      · exact ⟨_, Or.inr rfl, hs.recalls_disj hφ hφ (hφ.congr fun ρ => (Bool.or_self _).symm)⟩
    obtain ⟨r, hr, hdisj⟩ := hstep
    obtain ⟨r', hr'⟩ := ih r hr hes
    rw [List.foldlM_cons]
    exact ⟨r', hdisj.bind hr'⟩

/-- **A bit is selected by a constant index without a new node.** -/
theorem Valid.recalls_select (hs : s.Valid) {a index : BitVector} (ha : ∀ e ∈ a.bits, s.Has e)
    {n m : Nat} (hindex : index.bits = BitVector.constantBits n m) (hn : n < 2 ^ m)
    (hlt : n < a.width) : ∃ e, s.Recalls (BitVector.select a index) e := by
  have hget : a.bits[n]? = some (a.bits.get ⟨n, hlt⟩) := List.getElem?_eq_getElem hlt
  obtain ⟨es, hes, hmem⟩ := hs.recalls_selections hn a.bits 0 ha
  rw [← hindex] at hes
  obtain ⟨r, hr⟩ := hs.recalls_disjAll (ha _ (List.mem_of_getElem? hget)) es .zero (Or.inl rfl)
    fun e he => (hmem e he).imp_right fun ⟨_, he⟩ => Option.some.inj (he.symm.trans hget)
  exact ⟨r, hes.bind hr⟩

end Stimulus.Diagram.Store

import Mathlib.Data.Finset.Card
import Mathlib.Data.Set.Basic
import Mathlib.Order.Bounds.Defs
import Stimulus.Diagram.Reach
import Stimulus.Proofs.Diagram.Reduced

/-!
# Reachable indexes

A set of indexes is closed (`Store.Closed`) if it contains both children of every node in it, the
terminal apart. On a reduced store `descendants` ends, and the indexes that it collects are the
least closed set that contains those of the roots (`Store.Reduced.descendants_isLeast`).

Two invariants carry the search. Every child of a collected node is collected or still to visit
(`Settled`), so what is left at the end is closed. Every step takes one edge off the list, and
what it adds is paid for by the index that it collects (`unseen`), so the steps last. No step
changes which closed sets contain what is collected and what is to visit (`Bounding`), whatever
the polarities of the edges are.
-/

set_option autoImplicit false

namespace Stimulus.Diagram.Store

variable {s : Store} {e : Edge} {n : Node} {pending rest roots : List Edge}
  {seen : Std.TreeSet Nat} {S : Set Nat}

/-- Sets of indexes that contain the children of their nodes. -/
def Closed (s : Store) (S : Set Nat) : Prop :=
  ∀ i ∈ S, i ≠ 1 → ∀ n, s.nodes[i]? = some n → ∀ b, (n.side b).index ∈ S

/-! ## Invariants of the search -/

/-- Every child of a collected node is collected or still to visit. -/
def Settled (s : Store) (pending : List Edge) (seen : Std.TreeSet Nat) : Prop :=
  ∀ i ∈ seen, i ≠ 1 → ∀ n, s.nodes[i]? = some n → ∀ b,
    (n.side b).index ∈ seen ∨ ∃ e ∈ pending, e.index = (n.side b).index

/-- The closed sets that contain all that is collected or to visit. -/
def Bounding (s : Store) (pending : List Edge) (seen : Std.TreeSet Nat) : Set (Set Nat) :=
  {S | (∀ i ∈ seen, i ∈ S) ∧ (∀ e ∈ pending, e.index ∈ S) ∧ s.Closed S}

/-- The number of indexes that are not collected yet. -/
def unseen (s : Store) (seen : Std.TreeSet Nat) : Nat :=
  ((Finset.range s.nodes.size).filter fun i => i ∉ seen).card

theorem mem_insert {seen : Std.TreeSet Nat} {i j : Nat} : j ∈ seen.insert i ↔ j = i ∨ j ∈ seen := by
  rw [Std.TreeSet.mem_insert, Std.LawfulEqCmp.compare_eq_iff_eq, eq_comm]

theorem Has.unseen_insert (he : s.Has e) (hnew : e.index ∉ seen) :
    s.unseen seen = s.unseen (seen.insert e.index) + 1 := by
  have hmem : e.index ∈ (Finset.range s.nodes.size).filter fun i => i ∉ seen :=
    Finset.mem_filter.2 ⟨Finset.mem_range.2 he.2, hnew⟩
  have herase : ((Finset.range s.nodes.size).filter fun i => i ∉ seen).erase e.index =
      (Finset.range s.nodes.size).filter fun i => i ∉ seen.insert e.index := by
    ext i
    simp only [Finset.mem_erase, Finset.mem_filter, mem_insert, not_or]
    exact and_left_comm
  unfold unseen
  rw [← herase, Finset.card_erase_add_one hmem]

theorem settled_empty (s : Store) (pending : List Edge) : s.Settled pending ∅ :=
  fun _ hi => absurd hi Std.TreeSet.not_mem_emptyc

/-- At the end the collected indexes are closed, and contained in all sets that bound them. -/
theorem Settled.isLeast (h : s.Settled [] seen) : IsLeast (s.Bounding [] seen) {i | i ∈ seen} := by
  refine ⟨⟨fun _ hi => hi, fun _ he => absurd he List.not_mem_nil, fun i hi hi1 n hn b => ?_⟩,
    fun S hS i hi => hS.1 i hi⟩
  obtain hmem | ⟨e, he, -⟩ := h i hi hi1 n hn b
  · exact hmem
  · cases he

/-! ## One step -/

/-- An edge to a collected node is dropped. -/
theorem Settled.drop (h : s.Settled (e :: rest) seen) (hmem : e.index ∈ seen) :
    s.Settled rest seen := by
  intro i hi hi1 n hn b
  obtain hseen | ⟨f, hf, heq⟩ := h i hi hi1 n hn b
  · exact Or.inl hseen
  · rcases List.mem_cons.1 hf with rfl | hf
    · exact Or.inl (heq ▸ hmem)
    · exact Or.inr ⟨f, hf, heq⟩

theorem bounding_drop (hmem : e.index ∈ seen) :
    s.Bounding (e :: rest) seen = s.Bounding rest seen := by
  ext S
  refine and_congr_right fun hseen => and_congr_left fun _ => ?_
  rw [List.forall_mem_cons]
  exact and_iff_right (hseen _ hmem)

/-- The index of an edge is collected, and its children come on the list. -/
theorem Settled.insert (h : s.Settled (e :: rest) seen) {more : List Edge}
    (hmore : e.index ≠ 1 → ∀ n, s.nodes[e.index]? = some n → ∀ b,
      ∃ f ∈ more, f.index = (n.side b).index) :
    s.Settled (more ++ rest) (seen.insert e.index) := by
  intro i hi hi1 n hn b
  rcases mem_insert.1 hi with rfl | hi
  · obtain ⟨f, hf, heq⟩ := hmore hi1 n hn b
    exact Or.inr ⟨f, List.mem_append_left _ hf, heq⟩
  · obtain hseen | ⟨f, hf, heq⟩ := h i hi hi1 n hn b
    · exact Or.inl (mem_insert.2 (Or.inr hseen))
    · rcases List.mem_cons.1 hf with rfl | hf
      · exact Or.inl (mem_insert.2 (Or.inl heq.symm))
      · exact Or.inr ⟨f, List.mem_append_right _ hf, heq⟩

/-- The children are in every closed set that contains the node. -/
theorem bounding_insert {more : List Edge}
    (hmore : ∀ S, s.Closed S → e.index ∈ S → ∀ f ∈ more, f.index ∈ S) :
    s.Bounding (e :: rest) seen = s.Bounding (more ++ rest) (seen.insert e.index) := by
  ext S
  constructor
  · rintro ⟨hseen, hpending, hclosed⟩
    obtain ⟨he, hrest⟩ := List.forall_mem_cons.1 hpending
    refine ⟨fun i hi => ?_, List.forall_mem_append.2 ⟨hmore S hclosed he, hrest⟩, hclosed⟩
    rcases mem_insert.1 hi with rfl | hi
    · exact he
    · exact hseen i hi
  · rintro ⟨hseen, hpending, hclosed⟩
    exact ⟨fun i hi => hseen i (mem_insert.2 (Or.inr hi)),
      List.forall_mem_cons.2 ⟨hseen _ (mem_insert.2 (Or.inl rfl)),
        (List.forall_mem_append.1 hpending).2⟩, hclosed⟩

/-- The edges that a node puts on the list. -/
def children (e : Edge) (n : Node) : List Edge := [e.along n.low, e.along n.high]

theorem mem_children {f : Edge} : f ∈ children e n ↔ ∃ b, f = e.along (n.side b) := by
  rw [Bool.exists_bool]
  simp only [children, List.mem_cons, List.not_mem_nil, or_false]
  exact Iff.rfl

theorem Settled.insert_node (h : s.Settled (e :: rest) seen) (hn : s.nodes[e.index]? = some n) :
    s.Settled (children e n ++ rest) (seen.insert e.index) := by
  refine h.insert fun _ m hm b => ⟨_, mem_children.2 ⟨b, rfl⟩, ?_⟩
  obtain rfl : n = m := Option.some.inj (hn.symm.trans hm)
  exact Edge.index_along e _

theorem bounding_insert_node (h1 : e.index ≠ 1) (hn : s.nodes[e.index]? = some n) :
    s.Bounding (e :: rest) seen = s.Bounding (children e n ++ rest) (seen.insert e.index) := by
  refine bounding_insert fun S hclosed hS f hf => ?_
  obtain ⟨b, rfl⟩ := mem_children.1 hf
  rw [Edge.index_along]
  exact hclosed _ hS h1 n hn b

theorem reach_of_node {fuel : Nat} (hnew : e.index ∉ seen) (ht : e.isTerminal = false)
    (hn : s.nodes[e.index]? = some n) (hside : ∀ b, s.Has (n.side b)) :
    s.reach (fuel + 1) (e :: rest) seen =
      s.reach fuel (children e n ++ rest) (seen.insert e.index) := by
  have hlow : s.through e n.low = .ok (e.along n.low) := through_of_has (hside false) e
  have hhigh : s.through e n.high = .ok (e.along n.high) := through_of_has (hside true) e
  simp only [reach, Std.TreeSet.contains_iff_mem, hnew, ht, node_of_get? hn]
  show (s.through e n.low >>= fun low => s.through e n.high >>= fun high =>
    s.reach fuel (low :: high :: rest) (seen.insert e.index)) = _
  rw [hlow, hhigh]
  rfl

/-! ## The whole search -/

/-- **The search ends with the least closed set around what it starts from.** -/
theorem Reduced.reach_isLeast (hs : s.Reduced) : ∀ (fuel : Nat) (pending : List Edge)
    (seen : Std.TreeSet Nat), (∀ e ∈ pending, s.Has e) → s.Settled pending seen →
    pending.length + 2 * s.unseen seen ≤ fuel →
    ∃ found, s.reach fuel pending seen = .ok found ∧
      IsLeast (s.Bounding pending seen) {i | i ∈ found} := by
  intro fuel
  induction fuel with
  | zero =>
    intro pending seen _ hsettled hfuel
    obtain rfl : pending = [] := List.length_eq_zero_iff.1 (by omega)
    exact ⟨seen, rfl, hsettled.isLeast⟩
  | succ fuel ih =>
    intro pending seen hhas hsettled hfuel
    cases pending with
    | nil => exact ⟨seen, rfl, hsettled.isLeast⟩
    | cons e rest =>
      obtain ⟨he, hrest⟩ := List.forall_mem_cons.1 hhas
      rw [List.length_cons] at hfuel
      by_cases hmem : e.index ∈ seen
      · obtain ⟨found, hr, hleast⟩ := ih rest seen hrest (hsettled.drop hmem) (by omega)
        refine ⟨found, ?_, by rwa [bounding_drop hmem]⟩
        simp only [reach, Std.TreeSet.contains_iff_mem, hmem]
        exact hr
      · have hunseen := he.unseen_insert hmem
        cases ht : e.isTerminal with
        | true =>
          -- the terminal has no children
          have hone := (Edge.isTerminal_iff_index e).1 ht
          obtain ⟨found, hr, hleast⟩ := ih ([] ++ rest) (seen.insert e.index) hrest
            (hsettled.insert fun h1 => absurd hone h1) (by rw [List.nil_append]; omega)
          refine ⟨found, ?_, bounding_insert (fun _ _ _ f hf => absurd hf List.not_mem_nil) ▸ hleast⟩
          simp only [reach, Std.TreeSet.contains_iff_mem, hmem, ht]
          exact hr
        | false =>
          obtain ⟨n, hn, hf⟩ := hs.get? he ht
          have hside := hf.has_side he
          have hne : e.index ≠ 1 := fun h1 => by
            rw [← Edge.isTerminal_iff_index, ht] at h1
            cases h1
          have hchildren : ∀ f ∈ children e n, s.Has f := fun f hf => by
            obtain ⟨b, rfl⟩ := mem_children.1 hf
            exact (hside b).along e
          -- two children come on the list, for one edge and one index
          have hpaid : (children e n ++ rest).length + 2 * s.unseen (seen.insert e.index) ≤ fuel := by
            simp only [children, List.length_append, List.length_cons, List.length_nil]
            omega
          obtain ⟨found, hr, hleast⟩ := ih _ _ (List.forall_mem_append.2 ⟨hchildren, hrest⟩)
            (hsettled.insert_node hn) hpaid
          refine ⟨found, (reach_of_node hmem ht hn hside).trans hr, ?_⟩
          rwa [bounding_insert_node hne hn]

/-- **Descendants are the least closed set that contains the roots.** -/
theorem Reduced.descendants_isLeast (hs : s.Reduced) (hroots : ∀ e ∈ roots, s.Has e) :
    ∃ found, s.descendants roots = .ok found ∧
      IsLeast {S : Set Nat | (∀ e ∈ roots, e.index ∈ S) ∧ s.Closed S} {i | i ∈ found} := by
  have hunseen : s.unseen ∅ ≤ s.nodes.size := by
    have hcard := Finset.card_filter_le (Finset.range s.nodes.size) fun i =>
      i ∉ (∅ : Std.TreeSet Nat)
    rwa [Finset.card_range] at hcard
  obtain ⟨found, hr, hleast⟩ := hs.reach_isLeast _ roots ∅ hroots (settled_empty s roots)
    (Nat.add_le_add_left (Nat.mul_le_mul_left 2 hunseen) _)
  refine ⟨found, hr, ?_⟩
  -- nothing is collected before the search
  have heq : s.Bounding roots ∅ = {S : Set Nat | (∀ e ∈ roots, e.index ∈ S) ∧ s.Closed S} := by
    ext S
    exact and_iff_right fun i hi => absurd hi Std.TreeSet.not_mem_emptyc
  exact heq ▸ hleast

/-- The size of a diagram is the number of indexes in the least closed set that contains its
root. -/
theorem Reduced.diagramSize_eq_card (hs : s.Reduced) (he : s.Has e) :
    ∃ S : Finset Nat, s.diagramSize e = .ok S.card ∧
      IsLeast {S : Set Nat | e.index ∈ S ∧ s.Closed S} (S : Set Nat) := by
  obtain ⟨found, hr, hleast⟩ := hs.descendants_isLeast (List.forall_mem_singleton.2 he)
  have hnodup : found.toList.Nodup :=
    Std.TreeSet.distinct_toList.imp fun hne heq => hne (Std.LawfulEqCmp.compare_eq_iff_eq.2 heq)
  refine ⟨found.toList.toFinset, ?_, ?_⟩
  · unfold diagramSize
    rw [hr, List.toFinset_card_of_nodup hnodup, Std.TreeSet.length_toList]
    rfl
  · have hset : ((found.toList.toFinset : Finset Nat) : Set Nat) = {i | i ∈ found} := by
      ext i
      rw [List.coe_toFinset, Set.mem_ofPred_eq, Std.TreeSet.mem_toList]
      exact Iff.rfl
    rw [hset]
    simpa only [List.forall_mem_singleton] using hleast

end Stimulus.Diagram.Store

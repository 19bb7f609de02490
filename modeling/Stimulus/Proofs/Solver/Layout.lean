import Mathlib.Data.List.Nodup
import Mathlib.Data.List.Perm.Subperm
import Mathlib.Data.Set.Function
import Mathlib.Order.Interval.Set.Defs
import Stimulus.Solver.Layout

/-!
# Layouts leave no gap

In both layouts the numbers of the bits increase along an order of the bits: term
after term (`Layout.sequential_rank_lt`), or position after position
(`Layout.interleaved_rank_lt`). So no two bits share a number, and since all
numbers are below the number of bits, a plan uses up a run of variables without a
gap (`Layout.plan_perm`), one to one with the places of the bits
(`Layout.bijOn_number`).
-/

set_option autoImplicit false

namespace Stimulus.Layout

/-- The sum of some widths. -/
def total : List Nat → Nat
  | [] => 0
  | w :: widths => w + total widths

/-- The number of bits that come before bit `i` of the term `j`, among terms of
these widths. -/
def rank (layout : Layout) (widths : List Nat) (j i : Nat) : Nat :=
  match layout with
  | interleaved =>
    total (widths.map fun w => min w i) + ((widths.take j).filter fun w => decide (i < w)).length
  | sequential => total (widths.take j) + i

/-- The variables of every term, least significant bit first, when the first
free variable is `first`. -/
def plan (layout : Layout) (first : Nat) (widths : List Nat) : List (List Nat) :=
  widths.mapIdx fun j w => (List.range w).map fun i => first + layout.rank widths j i

variable {layout : Layout} {widths : List Nat} {i j i' j' w w' first : Nat}

/-! ## Sums of widths -/

theorem total_append (us vs : List Nat) : total (us ++ vs) = total us + total vs := by
  induction us with
  | nil => exact (Nat.zero_add _).symm
  | cons u us ih =>
    show u + total (us ++ vs) = u + total us + total vs
    rw [ih, Nat.add_assoc]

theorem take_succ_of_getElem? (hj : widths[j]? = some w) :
    widths.take (j + 1) = widths.take j ++ [w] := by
  rw [List.take_add_one, hj]
  rfl

theorem total_take_le (widths : List Nat) (j : Nat) : total (widths.take j) ≤ total widths := by
  conv_rhs => rw [← List.take_append_drop j widths, total_append]
  exact Nat.le_add_right _ _

theorem total_take_add (hj : widths[j]? = some w) :
    total (widths.take j) + w = total (widths.take (j + 1)) := by
  rw [take_succ_of_getElem? hj, total_append]
  rfl

theorem total_take_mono (widths : List Nat) (h : j ≤ j') :
    total (widths.take j) ≤ total (widths.take j') := by
  rw [← Nat.min_eq_left h, ← List.take_take]
  exact total_take_le _ j

/-! ## The sequential order -/

theorem sequential_rank_lt_total (hj : widths[j]? = some w) (hi : i < w) :
    rank sequential widths j i < total widths := by
  have h := total_take_add hj
  have h' := total_take_le widths (j + 1)
  show total (widths.take j) + i < total widths
  omega

/-- A later term has larger numbers. -/
theorem sequential_rank_lt (hj : widths[j]? = some w) (hi : i < w) (hjj : j < j') :
    rank sequential widths j i < rank sequential widths j' i' := by
  have h := total_take_add hj
  have h' := total_take_mono widths (show j + 1 ≤ j' from hjj)
  show total (widths.take j) + i < total (widths.take j') + i'
  omega

/-! ## The interleaved order -/

/-- The number of bits before the position `i` in all terms together. -/
def before (widths : List Nat) (i : Nat) : Nat := total (widths.map fun w => min w i)

/-- The number of terms that have a bit at the position `i`. -/
def reaching (widths : List Nat) (i : Nat) : Nat := (widths.filter fun w => decide (i < w)).length

theorem reaching_append (us vs : List Nat) (i : Nat) :
    reaching (us ++ vs) i = reaching us i + reaching vs i := by
  unfold reaching
  rw [List.filter_append, List.length_append]

theorem reaching_singleton (w i : Nat) : reaching [w] i = if i < w then 1 else 0 := by
  unfold reaching
  by_cases h : i < w <;> simp [h]

theorem reaching_take_le (widths : List Nat) (j i : Nat) :
    reaching (widths.take j) i ≤ reaching widths i := by
  conv_rhs => rw [← List.take_append_drop j widths, reaching_append]
  exact Nat.le_add_right _ _

theorem reaching_take_lt (hj : widths[j]? = some w) (hi : i < w) :
    reaching (widths.take j) i < reaching (widths.take (j + 1)) i := by
  rw [take_succ_of_getElem? hj, reaching_append, reaching_singleton, if_pos hi]
  exact Nat.lt_succ_self _

/-- One more position brings one bit for every term that reaches it. -/
theorem before_succ (widths : List Nat) (i : Nat) :
    before widths (i + 1) = before widths i + reaching widths i := by
  induction widths with
  | nil => rfl
  | cons w widths ih =>
    -- the first term has the bit or is shorter
    have hcons : ∀ k, before (w :: widths) k = min w k + before widths k := fun _ => rfl
    rw [hcons, hcons, ih, ← List.singleton_append, reaching_append, reaching_singleton]
    split <;> omega

theorem before_mono (widths : List Nat) (h : i ≤ i') : before widths i ≤ before widths i' := by
  induction h with
  | refl => exact Nat.le_refl _
  | step _ ih =>
    rw [Nat.succ_eq_add_one, before_succ]
    exact Nat.le_add_right_of_le ih

theorem before_le_total (widths : List Nat) (i : Nat) : before widths i ≤ total widths := by
  induction widths with
  | nil => exact Nat.le_refl _
  | cons w widths ih => exact Nat.add_le_add (Nat.min_le_left w i) ih

/-- A bit has a smaller number than all bits of later positions. -/
theorem interleaved_rank_lt_before (hj : widths[j]? = some w) (hi : i < w) :
    rank interleaved widths j i < before widths (i + 1) := by
  have h := reaching_take_lt hj hi
  have h' := reaching_take_le widths (j + 1) i
  rw [before_succ]
  show before widths i + reaching (widths.take j) i < before widths i + reaching widths i
  omega

/-- Bits are numbered position after position, and at each position term after term. -/
theorem interleaved_rank_lt (hj : widths[j]? = some w) (hi : i < w)
    (h : i < i' ∨ i = i' ∧ j < j') :
    rank interleaved widths j i < rank interleaved widths j' i' := by
  rcases h with hii | ⟨rfl, hjj⟩
  · -- all bits of the position `i` come before those of later positions
    have h1 := interleaved_rank_lt_before hj hi
    have h2 := before_mono widths (show i + 1 ≤ i' from hii)
    show _ < before widths i' + reaching (widths.take j') i'
    omega
  · -- at one position the term itself is counted for every later term
    have h1 := reaching_take_lt hj hi
    have h2 := reaching_take_le (widths.take j') (j + 1) i
    rw [List.take_take, Nat.min_eq_left (show j + 1 ≤ j' from hjj)] at h2
    show before widths i + reaching (widths.take j) i <
      before widths i + reaching (widths.take j') i
    omega

/-! ## Taking turns -/

/-- The variables that terms of these widths take at the position `i`, one after another from
`next` on. -/
def column (i next : Nat) : List Nat → List (List Nat)
  | [] => []
  | w :: widths =>
    if i < w then [next] :: column i (next + 1) widths else [] :: column i next widths

/-- The variables that terms of these widths have after `n` positions. -/
def turns (first : Nat) (widths : List Nat) : Nat → List (List Nat)
  | 0 => widths.map fun _ => []
  | n + 1 => List.zipWith (· ++ ·) (turns first widths n)
      (column n (first + before widths n) widths)

theorem column_cons (i next w : Nat) (widths : List Nat) : column i next (w :: widths) =
    (if i < w then [next] else []) :: column i (next + if i < w then 1 else 0) widths := by
  by_cases hi : i < w
  · simp only [column, if_pos hi]
  · simp only [column, if_neg hi, Nat.add_zero]

theorem getElem?_column (i next : Nat) (widths : List Nat) (j : Nat) :
    (column i next widths)[j]? =
      (widths[j]?).map fun w => if i < w then [next + reaching (widths.take j) i] else [] := by
  induction widths generalizing next j with
  | nil => rfl
  | cons w widths ih =>
    rw [column_cons]
    cases j with
    | zero => rfl
    | succ j =>
      -- the first term moves the counter on if it has the position
      rw [List.getElem?_cons_succ, List.getElem?_cons_succ, ih, List.take_succ_cons,
        ← List.singleton_append (l := widths.take j)]
      simp only [reaching_append, reaching_singleton, Nat.add_assoc]

/-- **The variables taken by turns are those of the interleaved numbers.** -/
theorem getElem?_turns (first : Nat) (widths : List Nat) (n j : Nat) :
    (turns first widths n)[j]? = (widths[j]?).map fun w =>
      (List.range (min w n)).map fun i => first + rank interleaved widths j i := by
  induction n with
  | zero =>
    unfold turns
    simp only [List.getElem?_map, Nat.min_zero, List.range_zero, List.map_nil]
  | succ n ih =>
    unfold turns
    rw [List.getElem?_zipWith, ih, getElem?_column]
    cases hj : widths[j]? with
    | none => rfl
    | some w =>
      simp only [Option.map_some, Option.some.injEq]
      by_cases hn : n < w
      · rw [if_pos hn, Nat.min_eq_right (Nat.le_of_lt hn), Nat.min_eq_right hn, List.range_succ,
          List.map_append, Nat.add_assoc]
        rfl
      · rw [if_neg hn, List.append_nil, Nat.min_eq_left (by omega), Nat.min_eq_left (by omega)]

/-- All bits come before a position that no term reaches. -/
theorem before_eq_total {n : Nat} (h : ∀ w ∈ widths, w ≤ n) : before widths n = total widths := by
  unfold before
  rw [List.map_congr_left fun w hw => Nat.min_eq_left (h w hw), List.map_id']

/-! ## Plans -/

theorem rank_lt_total (hj : widths[j]? = some w) (hi : i < w) :
    layout.rank widths j i < total widths := by
  cases layout with
  | sequential => exact sequential_rank_lt_total hj hi
  | interleaved =>
    exact Nat.lt_of_lt_of_le (interleaved_rank_lt_before hj hi) (before_le_total widths _)

/-- No two bits share a number. -/
theorem rank_inj (hj : widths[j]? = some w) (hi : i < w) (hj' : widths[j']? = some w')
    (hi' : i' < w') (h : layout.rank widths j i = layout.rank widths j' i') : j = j' ∧ i = i' := by
  cases layout with
  | sequential =>
    rcases Nat.lt_trichotomy j j' with hlt | rfl | hgt
    · have : rank sequential widths j i < rank sequential widths j' i' :=
        sequential_rank_lt hj hi hlt
      omega
    · exact ⟨rfl, Nat.add_left_cancel h⟩
    · have : rank sequential widths j' i' < rank sequential widths j i :=
        sequential_rank_lt hj' hi' hgt
      omega
  | interleaved =>
    rcases Nat.lt_trichotomy i i' with hlt | rfl | hgt
    · have : rank interleaved widths j i < rank interleaved widths j' i' :=
        interleaved_rank_lt hj hi (Or.inl hlt)
      omega
    · rcases Nat.lt_trichotomy j j' with hlt | rfl | hgt
      · have := interleaved_rank_lt hj hi (Or.inr ⟨rfl, hlt⟩)
        omega
      · exact ⟨rfl, rfl⟩
      · have := interleaved_rank_lt hj' hi' (Or.inr ⟨rfl, hgt⟩)
        omega
    · have : rank interleaved widths j' i' < rank interleaved widths j i :=
        interleaved_rank_lt hj' hi' (Or.inl hgt)
      omega

theorem length_plan (layout : Layout) (first : Nat) (widths : List Nat) :
    (layout.plan first widths).length = widths.length := by
  unfold plan
  rw [List.length_mapIdx]

theorem getElem?_plan (layout : Layout) (first : Nat) (widths : List Nat) (j : Nat) :
    (layout.plan first widths)[j]? =
      (widths[j]?).map fun w => (List.range w).map fun i => first + layout.rank widths j i := by
  unfold plan
  rw [List.getElem?_mapIdx]

/-- **A plan by turns ends with the last position.** -/
theorem turns_eq_plan {n : Nat} (h : ∀ w ∈ widths, w ≤ n) :
    turns first widths n = interleaved.plan first widths := by
  apply List.ext_getElem?
  intro j
  rw [getElem?_turns, getElem?_plan]
  cases hj : widths[j]? with
  | none => rfl
  | some w => rw [Option.map_some, Option.map_some, Nat.min_eq_left (h w (List.mem_of_getElem? hj))]

/-- A plan of term after term. -/
theorem sequential_plan_cons (first w : Nat) (widths : List Nat) :
    sequential.plan first (w :: widths) =
      List.range' first w :: sequential.plan (first + w) widths := by
  apply List.ext_getElem?
  intro j
  rw [getElem?_plan]
  cases j with
  | zero =>
    rw [List.getElem?_cons_zero, List.getElem?_cons_zero, Option.map_some, Option.some.injEq,
      List.range'_eq_map_range]
    exact List.map_congr_left fun i _ => congrArg (first + ·) (Nat.zero_add i)
  | succ j =>
    rw [List.getElem?_cons_succ, List.getElem?_cons_succ, getElem?_plan]
    congr 1
    funext v
    refine List.map_congr_left fun i _ => ?_
    show first + (w + total (widths.take j) + i) = first + w + (total (widths.take j) + i)
    omega

/-- Every term gets as many variables as it has bits. -/
theorem map_length_plan (layout : Layout) (first : Nat) (widths : List Nat) :
    (layout.plan first widths).map List.length = widths := by
  apply List.ext_getElem?
  intro j
  rw [List.getElem?_map, getElem?_plan]
  cases widths[j]? with
  | none => rfl
  | some w =>
    show some ((List.range w).map _).length = some w
    rw [List.length_map, List.length_range]

theorem length_flatten_eq_total (vars : List (List Nat)) :
    vars.flatten.length = total (vars.map List.length) := by
  induction vars with
  | nil => rfl
  | cons vs vars ih =>
    rw [List.flatten_cons, List.length_append, ih]
    rfl

theorem nodup_flatten_plan (layout : Layout) (first : Nat) (widths : List Nat) :
    (layout.plan first widths).flatten.Nodup := by
  rw [List.nodup_flatten]
  constructor
  · -- the bits of one term
    intro vs hvs
    obtain ⟨j, hj⟩ := List.getElem?_of_mem hvs
    rw [getElem?_plan] at hj
    obtain ⟨w, hw, rfl⟩ := Option.map_eq_some_iff.1 hj
    refine List.Nodup.map_on (fun i hi i' hi' h => ?_) List.nodup_range
    exact (rank_inj hw (List.mem_range.1 hi) hw (List.mem_range.1 hi') (Nat.add_left_cancel h)).2
  · -- those of two terms
    rw [List.pairwise_iff_getElem]
    intro j j' hj hj' hlt v hv hv'
    have hget := List.getElem?_eq_getElem hj
    have hget' := List.getElem?_eq_getElem hj'
    rw [getElem?_plan] at hget hget'
    obtain ⟨w, hw, hvs⟩ := Option.map_eq_some_iff.1 hget
    obtain ⟨w', hw', hvs'⟩ := Option.map_eq_some_iff.1 hget'
    rw [← hvs] at hv
    rw [← hvs'] at hv'
    obtain ⟨i, hi, rfl⟩ := List.mem_map.1 hv
    obtain ⟨i', hi', h⟩ := List.mem_map.1 hv'
    have := (rank_inj hw' (List.mem_range.1 hi') hw (List.mem_range.1 hi)
      (Nat.add_left_cancel h)).1
    omega

/-- The places of the bits of terms of these widths: a term, and a position in it. -/
def places (widths : List Nat) : Set (Nat × Nat) := {p | ∃ w, widths[p.1]? = some w ∧ p.2 < w}

/-- The variable at a place. -/
def number (layout : Layout) (first : Nat) (widths : List Nat) (p : Nat × Nat) : Nat :=
  first + layout.rank widths p.1 p.2

/-- The variables of a plan are those of the places. -/
theorem mem_flatten_plan {v : Nat} : v ∈ (layout.plan first widths).flatten ↔
    ∃ p ∈ places widths, layout.number first widths p = v := by
  rw [List.mem_flatten]
  constructor
  · rintro ⟨vs, hvs, hv⟩
    obtain ⟨j, hj⟩ := List.getElem?_of_mem hvs
    rw [getElem?_plan] at hj
    obtain ⟨w, hw, rfl⟩ := Option.map_eq_some_iff.1 hj
    obtain ⟨i, hi, rfl⟩ := List.mem_map.1 hv
    exact ⟨(j, i), ⟨w, hw, List.mem_range.1 hi⟩, rfl⟩
  · rintro ⟨⟨j, i⟩, ⟨w, hw, hi⟩, rfl⟩
    have hj : (layout.plan first widths)[j]? =
        some ((List.range w).map fun i => first + layout.rank widths j i) := by
      rw [getElem?_plan, hw]
      rfl
    exact ⟨_, List.mem_of_getElem? hj, List.mem_map.2 ⟨i, List.mem_range.2 hi, rfl⟩⟩

/-- **A plan uses up a run of variables, each of them once.** -/
theorem plan_perm (layout : Layout) (first : Nat) (widths : List Nat) :
    (layout.plan first widths).flatten.Perm (List.range' first (total widths)) := by
  have hsub : (layout.plan first widths).flatten ⊆ List.range' first (total widths) := by
    intro v hv
    obtain ⟨p, ⟨w, hw, hi⟩, rfl⟩ := mem_flatten_plan.1 hv
    have hlt : layout.rank widths p.1 p.2 < total widths := rank_lt_total hw hi
    rw [List.mem_range'_1]
    unfold number
    omega
  have hlength : (List.range' first (total widths)).length =
      (layout.plan first widths).flatten.length := by
    rw [List.length_range', length_flatten_eq_total, map_length_plan]
  -- as many different numbers as the run has leave none of it out
  exact (List.subperm_of_subset (nodup_flatten_plan layout first widths) hsub).perm_of_length_le
    (Nat.le_of_eq hlength)

/-- **The variables at the places are a run of variables without a gap.** -/
theorem bijOn_number (layout : Layout) (first : Nat) (widths : List Nat) :
    Set.BijOn (layout.number first widths) (places widths)
      (Set.Ico first (first + total widths)) := by
  refine ⟨?_, ?_, ?_⟩
  · rintro ⟨j, i⟩ ⟨w, hw, hi⟩
    exact ⟨Nat.le_add_right _ _, Nat.add_lt_add_left (rank_lt_total hw hi) first⟩
  · rintro ⟨j, i⟩ ⟨w, hw, hi⟩ ⟨j', i'⟩ ⟨w', hw', hi'⟩ h
    obtain ⟨rfl, rfl⟩ := rank_inj hw hi hw' hi' (Nat.add_left_cancel h)
    rfl
  · intro v hv
    exact mem_flatten_plan.1 ((plan_perm layout first widths).mem_iff.2
      (List.mem_range'_1.2 hv))

end Stimulus.Layout

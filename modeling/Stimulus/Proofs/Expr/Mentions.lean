import Stimulus.Expr.Basic

/-!
# First mentions

`Field.collect seen fs` are the fields `seen` and then those of `fs` that are new,
each at its first place. Collecting one list after another collects both
(`Field.collect_append`), and nothing is collected twice (`Field.nodup_collect`). What was
collected from a part of a list may stand for the part (`Field.collect_firstMentions`).
-/

set_option autoImplicit false

namespace Stimulus

namespace Field

variable {seen seen' fs gs : List Field} {f : Field}

/-- Some fields and then the new ones of a list, each at its first place. -/
def collect (seen fs : List Field) : List Field := seen ++ firstMentions seen fs

/-- Only the set of the fields seen counts. -/
theorem firstMentions_congr (h : ∀ f, f ∈ seen ↔ f ∈ seen') (fs : List Field) :
    firstMentions seen fs = firstMentions seen' fs := by
  induction fs generalizing seen seen' with
  | nil => rfl
  | cons f fs ih =>
    unfold firstMentions
    by_cases hf : f ∈ seen
    · rw [if_pos hf, if_pos ((h f).1 hf)]
      exact ih h
    · rw [if_neg hf, if_neg fun hf' => hf ((h f).2 hf')]
      refine congrArg (f :: ·) (ih fun g => ?_)
      rw [List.mem_cons, List.mem_cons, h g]

theorem firstMentions_of_mem (h : f ∈ seen) (fs : List Field) :
    firstMentions seen (f :: fs) = firstMentions seen fs :=
  if_pos h

theorem firstMentions_of_not_mem (h : f ∉ seen) (fs : List Field) :
    firstMentions seen (f :: fs) = f :: firstMentions (f :: seen) fs :=
  if_neg h

/-- Fields that are known may as well be left out of the list. -/
theorem firstMentions_filter {known : List Field} {p : Field → Bool}
    (hp : ∀ f, p f = true ↔ f ∉ known) (seen fs : List Field) :
    firstMentions seen (fs.filter p) = firstMentions (seen ++ known) fs := by
  induction fs generalizing seen with
  | nil => rfl
  | cons f fs ih =>
    by_cases hf : f ∈ known
    · rw [List.filter_cons_of_neg fun h => (hp f).1 h hf,
        firstMentions_of_mem (List.mem_append_right seen hf), ih]
    · rw [List.filter_cons_of_pos ((hp f).2 hf)]
      by_cases hseen : f ∈ seen
      · rw [firstMentions_of_mem hseen, firstMentions_of_mem (List.mem_append_left known hseen), ih]
      · have hnew : f ∉ seen ++ known := fun h => (List.mem_append.1 h).elim hseen hf
        rw [firstMentions_of_not_mem hseen, firstMentions_of_not_mem hnew, ih]
        rfl

theorem mem_of_mem_firstMentions (h : f ∈ firstMentions seen fs) : f ∈ fs := by
  induction fs generalizing seen with
  | nil => exact h
  | cons g fs ih =>
    by_cases hg : g ∈ seen
    · rw [firstMentions_of_mem hg] at h
      exact List.mem_cons_of_mem g (ih h)
    · rw [firstMentions_of_not_mem hg] at h
      rcases List.mem_cons.1 h with rfl | h
      · exact List.mem_cons_self
      · exact List.mem_cons_of_mem g (ih h)

theorem collect_nil (seen : List Field) : collect seen [] = seen := List.append_nil seen

theorem collect_cons_of_mem (h : f ∈ seen) (fs : List Field) :
    collect seen (f :: fs) = collect seen fs := by
  unfold collect
  rw [firstMentions_of_mem h]

theorem collect_cons_of_not_mem (h : f ∉ seen) (fs : List Field) :
    collect seen (f :: fs) = collect (seen ++ [f]) fs := by
  unfold collect
  -- the new field is put first in the list of those seen, and last here
  rw [firstMentions_of_not_mem h, List.append_assoc]
  refine congrArg (seen ++ f :: ·) (firstMentions_congr (fun g => ?_) fs)
  rw [List.mem_cons, List.mem_append, List.mem_singleton, or_comm]

/-- Collecting one list after another. -/
theorem collect_append (seen fs gs : List Field) :
    collect seen (fs ++ gs) = collect (collect seen fs) gs := by
  induction fs generalizing seen with
  | nil => rw [List.nil_append, collect_nil]
  | cons f fs ih =>
    rw [List.cons_append]
    by_cases hf : f ∈ seen
    · rw [collect_cons_of_mem hf, collect_cons_of_mem hf, ih]
    · rw [collect_cons_of_not_mem hf, collect_cons_of_not_mem hf, ih]

/-- The new fields of two lists are those of the first, and then what is new in the second. -/
theorem firstMentions_append (seen fs gs : List Field) :
    firstMentions seen (fs ++ gs) =
      firstMentions seen fs ++ firstMentions (collect seen fs) gs := by
  have h := collect_append seen fs gs
  simp only [collect, List.append_assoc] at h
  exact List.append_cancel_left h

theorem mem_collect : f ∈ collect seen fs ↔ f ∈ seen ∨ f ∈ fs := by
  induction fs generalizing seen with
  | nil => rw [collect_nil, List.mem_nil_iff, or_false]
  | cons g fs ih =>
    rw [List.mem_cons]
    by_cases hg : g ∈ seen
    · rw [collect_cons_of_mem hg, ih]
      constructor
      · exact Or.imp_right Or.inr
      · rintro (h | rfl | h)
        · exact Or.inl h
        · exact Or.inl hg
        · exact Or.inr h
    · rw [collect_cons_of_not_mem hg, ih, List.mem_append, List.mem_singleton, or_assoc]

theorem nodup_collect (h : seen.Nodup) (fs : List Field) : (collect seen fs).Nodup := by
  induction fs generalizing seen with
  | nil => rwa [collect_nil]
  | cons f fs ih =>
    by_cases hf : f ∈ seen
    · rw [collect_cons_of_mem hf]
      exact ih h
    · rw [collect_cons_of_not_mem hf]
      refine ih (List.nodup_append.2 ⟨h, List.nodup_cons.2 ⟨List.not_mem_nil, List.nodup_nil⟩, ?_⟩)
      intro a ha b hb hab
      rw [List.mem_singleton] at hb
      exact hf (hb ▸ hab ▸ ha)

/-- Fields that were all seen bring nothing new. -/
theorem collect_of_subset (h : ∀ f ∈ fs, f ∈ seen) : collect seen fs = seen := by
  induction fs with
  | nil => exact collect_nil seen
  | cons f fs ih =>
    rw [collect_cons_of_mem (h f List.mem_cons_self)]
    exact ih fun g hg => h g (List.mem_cons_of_mem f hg)

/-- What is collected from the first fields of a list comes first. -/
theorem collect_mono (h : fs <+: gs) (seen : List Field) : collect seen fs <+: collect seen gs := by
  obtain ⟨rest, rfl⟩ := h
  rw [collect_append]
  exact List.prefix_append _ _

/-- Repetitions of fields, and fields that were seen, may be left out. -/
theorem collect_firstMentions (h : ∀ f ∈ seen', f ∈ seen) (fs : List Field) :
    collect seen (firstMentions seen' fs) = collect seen fs := by
  induction fs generalizing seen seen' with
  | nil => rfl
  | cons f fs ih =>
    by_cases hf' : f ∈ seen'
    · rw [firstMentions_of_mem hf', collect_cons_of_mem (h f hf')]
      exact ih h
    · rw [firstMentions_of_not_mem hf']
      by_cases hf : f ∈ seen
      · rw [collect_cons_of_mem hf, collect_cons_of_mem hf]
        exact ih (List.forall_mem_cons.2 ⟨hf, h⟩)
      · rw [collect_cons_of_not_mem hf, collect_cons_of_not_mem hf]
        refine ih (List.forall_mem_cons.2 ⟨by simp, fun g hg => ?_⟩)
        exact List.mem_append_left _ (h g hg)

/-- Some lists, each without its repetitions, collect the same. -/
theorem collect_flatMap {α : Type} (g : α → List Field) (as : List α) (seen : List Field) :
    collect seen (as.flatMap fun a => collect [] (g a)) = collect seen (as.flatMap g) := by
  induction as generalizing seen with
  | nil => rfl
  | cons a as ih =>
    rw [List.flatMap_cons, List.flatMap_cons, collect_append, collect_append, ih]
    congr 1
    exact collect_firstMentions (fun f hf => absurd hf List.not_mem_nil) (g a)

end Field

/-- The fields that an expression mentions, at every place. -/
def Expr.mentions (e : Expr) : List Field := e.preorder.filterMap Expr.field?

/-- The fields that a range mentions. -/
def Range.mentions (r : Range) : List Field := r.preorder.filterMap Expr.field?

/-- The fields that some ranges mention. -/
def Ranges.mentions (rs : Ranges) : List Field := rs.preorder.filterMap Expr.field?

theorem Expr.mentions_binary (op : Operator) (lhs rhs : Expr) :
    (Expr.binary op lhs rhs).mentions = lhs.mentions ++ rhs.mentions :=
  List.filterMap_append

theorem Expr.mentions_bit (base index : Expr) :
    (Expr.bit base index).mentions = base.mentions ++ index.mentions :=
  List.filterMap_append

theorem Expr.mentions_slice (base high low : Expr) :
    (Expr.slice base high low).mentions = base.mentions ++ high.mentions ++ low.mentions := by
  show (base.preorder ++ high.preorder ++ low.preorder).filterMap field? = _
  rw [List.filterMap_append, List.filterMap_append]
  rfl

theorem Expr.mentions_inside (value : Expr) (ranges : Ranges) :
    (Expr.inside value ranges).mentions = value.mentions ++ ranges.mentions :=
  List.filterMap_append

theorem Range.mentions_interval (low high : Expr) :
    (Range.interval low high).mentions = low.mentions ++ high.mentions :=
  List.filterMap_append

theorem Ranges.mentions_cons (range : Range) (rest : Ranges) :
    (Ranges.cons range rest).mentions = range.mentions ++ rest.mentions :=
  List.filterMap_append

/-- The fields of an expression are those that it mentions. -/
theorem Expr.fields_eq (e : Expr) : e.fields = Field.collect [] e.mentions := rfl

end Stimulus

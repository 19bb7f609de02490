import Mathlib.Data.List.Nodup
import Stimulus.Lowering

/-!
# Tables of terms

A table keeps terms in a list and the position of each field's term in an index beside it.
The two are changed one after the other and agree as long as no field gets a second term
(`TermTable.Agrees.append`). Where they agree, the index finds exactly the fields with terms
(`TermTable.Agrees.contains_iff`), and what stands at its position is the term of a field
(`TermTable.Agrees.termAt`).
-/

set_option autoImplicit false

namespace Stimulus

/-! ## The order of fields -/

theorem Field.compare_eq (f g : Field) : compare f g = compare f.id g.id := rfl

instance : Std.TransOrd Field where
  eq_swap {f g} := by
    rw [Field.compare_eq, Field.compare_eq]
    exact Std.OrientedOrd.eq_swap
  isLE_trans {f g k} := by
    rw [Field.compare_eq, Field.compare_eq, Field.compare_eq]
    exact Std.TransOrd.isLE_trans

instance : Std.LawfulEqOrd Field where
  compare_self {f} := by
    rw [Field.compare_eq]
    exact Std.ReflOrd.compare_self
  eq_of_compare {f g} h := by
    rw [Field.compare_eq, Std.compare_eq_iff_eq] at h
    cases f
    cases g
    cases h
    rfl

namespace TermTable

variable {t : TermTable} {p : Field × BitVector} {more : List (Field × BitVector)} {f : Field}
  {i : Nat}

/-! ## Lists of terms -/

/-- The fields with terms. -/
def fields (t : TermTable) : List Field := t.terms.toList.map Prod.fst

theorem toList_append (t : TermTable) (more : List (Field × BitVector)) :
    (t.append more).terms.toList = t.terms.toList ++ more := by
  unfold append
  induction more generalizing t with
  | nil => exact (List.append_nil _).symm
  | cons p more ih =>
    rw [List.foldl_cons, ih, push, Array.toList_push, List.append_assoc]
    rfl

theorem fields_append (t : TermTable) (more : List (Field × BitVector)) :
    (t.append more).fields = t.fields ++ more.map Prod.fst := by
  rw [fields, toList_append, List.map_append, fields]

/-! ## Agreement -/

/-- The index has the fields with terms, each with the position of its term. -/
def Agrees (t : TermTable) : Prop :=
  ∀ (f : Field) (i : Nat), t.index[f]? = some i ↔ t.fields[i]? = some f

theorem agrees_empty : Agrees .empty := by
  intro f i
  have hindex : TermTable.empty.index[f]? = none := Std.TreeMap.getElem?_emptyc
  have hfields : TermTable.empty.fields[i]? = none := List.getElem?_nil
  rw [hindex, hfields]
  constructor <;> intro h <;> cases h

/-- A position that only `p` may have. -/
theorem getElem?_fields_push (t : TermTable) (p : Field × BitVector) (i : Nat) :
    (t.push p).fields[i]? = if i = t.terms.size then some p.1 else t.fields[i]? := by
  have hfields : (t.push p).fields = t.fields ++ [p.1] := fields_append t [p]
  have hlength : t.fields.length = t.terms.size := by
    rw [fields, List.length_map, Array.length_toList]
  rw [hfields]
  rcases Nat.lt_trichotomy i t.terms.size with hlt | heq | hgt
  · rw [if_neg (Nat.ne_of_lt hlt), List.getElem?_append_left (hlength.symm ▸ hlt)]
  · rw [if_pos heq, heq, ← hlength, List.getElem?_concat_length]
  · rw [if_neg (Nat.ne_of_gt hgt), List.getElem?_eq_none, List.getElem?_eq_none]
    · omega
    · rw [List.length_append, List.length_singleton]
      omega

/-- **One more field enters the index with the position that its term gets.** -/
theorem Agrees.push (h : t.Agrees) (hp : p.1 ∉ t.fields) : (t.push p).Agrees := by
  intro f i
  have hindex : (t.push p).index[f]? = if p.1 = f then some t.terms.size else t.index[f]? := by
    rw [TermTable.push, Std.TreeMap.getElem?_insert]
    simp only [Std.compare_eq_iff_eq]
  rw [hindex, getElem?_fields_push]
  by_cases hf : p.1 = f
  · subst hf
    rw [if_pos rfl]
    by_cases hi : i = t.terms.size
    · rw [if_pos hi, hi]
      exact ⟨fun _ => rfl, fun _ => rfl⟩
    · -- the field stands at no other position
      rw [if_neg hi]
      constructor
      · intro hsize
        exact absurd (Option.some.inj hsize).symm hi
      · intro hmem
        exact absurd (List.mem_of_getElem? hmem) hp
  · rw [if_neg hf, h f i]
    split
    · rename_i hi
      have hnone : t.fields[i]? = none := by
        rw [List.getElem?_eq_none_iff, fields, List.length_map, Array.length_toList]
        exact Nat.le_of_eq hi.symm
      rw [hnone, Option.some_inj]
      constructor
      · intro h
        cases h
      · intro heq
        exact absurd heq hf
    · rfl

theorem Agrees.append (h : t.Agrees) (hmore : (t.fields ++ more.map Prod.fst).Nodup) :
    (t.append more).Agrees := by
  unfold TermTable.append
  induction more generalizing t with
  | nil => exact h
  | cons p more ih =>
    rw [List.map_cons, List.append_cons] at hmore
    have hp : p.1 ∉ t.fields := by
      intro hmem
      have hfirst := (List.nodup_append.1 hmore).1
      exact (List.nodup_append.1 hfirst).2.2 _ hmem _ (List.mem_singleton.2 rfl) rfl
    have hfields : (t.push p).fields = t.fields ++ [p.1] := fields_append t [p]
    exact ih (h.push hp) (hfields ▸ hmore)

theorem Agrees.contains_iff (h : t.Agrees) : t.index.contains f = true ↔ f ∈ t.fields := by
  rw [Std.TreeMap.contains_eq_isSome_getElem?, Option.isSome_iff_exists, List.mem_iff_getElem?]
  exact exists_congr fun i => h f i

/-- The position of a field in the index is that of its term. -/
theorem Agrees.termAt (h : t.Agrees) (hp : p ∈ t.terms.toList) :
    ∃ i, t.index[p.1]? = some i ∧ t.termAt i = .ok p.2 := by
  obtain ⟨i, hi⟩ := List.getElem?_of_mem hp
  have hfield : t.fields[i]? = some p.1 := by
    rw [fields, List.getElem?_map, hi]
    rfl
  refine ⟨i, (h p.1 i).2 hfield, ?_⟩
  rw [Array.getElem?_toList] at hi
  rw [TermTable.termAt, hi]

end TermTable

end Stimulus

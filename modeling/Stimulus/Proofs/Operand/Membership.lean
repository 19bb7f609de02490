import Mathlib.Data.List.Forall2
import Stimulus.Proofs.Operand.Outlines

/-!
# Membership tests of operands

A membership test is made of an operand for the value and operands for the ranges. An operand is a
range if it has an expression or is a list of two operands that have one (`Operand.Reads`), and is
refused for the first thing that is wrong with it otherwise (`Operand.Refused`): a list for its
length before anything else. A list of operands is read from left to right, so it is refused for the
first operand that is (`Operand.toRanges_eq_error_iff`).

The main statement is `Statement.inside_exact`: which tests are made, of which expression, and which
error the others are refused with.
-/

set_option autoImplicit false

namespace Stimulus

/-! ## Steps that may fail -/

section Steps

variable {ε α β : Type} {x : Except ε α} {k : α → Except ε β} {f : α → Except ε β} {e : ε}

theorem pure_eq_ok_iff {a b : α} : (pure a : Except ε α) = .ok b ↔ a = b := by
  simp [pure, Except.pure]

theorem pure_ne_error {a : α} : (pure a : Except ε α) ≠ .error e := by
  simp [pure, Except.pure]

theorem bind_eq_ok_iff {b : β} : x >>= k = .ok b ↔ ∃ a, x = .ok a ∧ k a = .ok b := by
  constructor
  · exact exists_of_bind_eq_ok
  · rintro ⟨a, rfl, h⟩
    exact h

theorem bind_eq_error_iff :
    x >>= k = .error e ↔ x = .error e ∨ ∃ a, x = .ok a ∧ k a = .error e := by
  cases x with
  | error e' =>
    show Except.error e' = .error e ↔ _
    simp
  | ok a =>
    show k a = .error e ↔ _
    simp

theorem mapM_eq_ok_iff (xs : List α) (ys : List β) :
    xs.mapM f = .ok ys ↔ List.Forall₂ (fun x y => f x = .ok y) xs ys := by
  induction xs generalizing ys with
  | nil => cases ys <;> simp [pure_eq_ok_iff]
  | cons x xs ih =>
    simp only [List.mapM_cons, bind_eq_ok_iff, pure_eq_ok_iff, ih]
    constructor
    · rintro ⟨y, hy, ys', hys, rfl⟩
      exact .cons hy hys
    · intro h
      cases h with
      | cons hy hys => exact ⟨_, hy, _, hys, rfl⟩

/-- Every element is related to something exactly if some list is related to the whole. -/
theorem exists_forall₂_iff {R : α → β → Prop} {xs : List α} :
    (∃ ys, List.Forall₂ R xs ys) ↔ ∀ x ∈ xs, ∃ y, R x y := by
  induction xs with
  | nil => simp
  | cons x xs ih =>
    rw [List.forall_mem_cons, ← ih]
    constructor
    · rintro ⟨_, h⟩
      cases h with
      | cons hy hys => exact ⟨⟨_, hy⟩, _, hys⟩
    · rintro ⟨⟨y, hy⟩, ys, hys⟩
      exact ⟨y :: ys, .cons hy hys⟩

/-- A list is refused for its first element that is. -/
theorem mapM_eq_error_iff (xs : List α) :
    xs.mapM f = .error e ↔ ∃ before x after, xs = before ++ x :: after ∧
      (∀ y ∈ before, ∃ b, f y = .ok b) ∧ f x = .error e := by
  induction xs with
  | nil => simp [pure_ne_error]
  | cons x xs ih =>
    -- putting the results together does not fail
    simp only [List.mapM_cons, bind_eq_error_iff, pure_ne_error, and_false, exists_false, or_false,
      ih]
    constructor
    · rintro (hx | ⟨y, hy, before, z, after, rfl, hbefore, hz⟩)
      · exact ⟨[], x, xs, rfl, by simp, hx⟩
      · refine ⟨x :: before, z, after, rfl, fun w hw => ?_, hz⟩
        rcases List.mem_cons.1 hw with rfl | hw
        · exact ⟨y, hy⟩
        · exact hbefore w hw
    · rintro ⟨before, z, after, hxs, hbefore, hz⟩
      cases before with
      | nil =>
        cases hxs
        exact .inl hz
      | cons w before =>
        cases hxs
        obtain ⟨y, hy⟩ := hbefore x (List.mem_cons_self)
        exact .inr ⟨y, hy, before, z, after, rfl,
          fun v hv => hbefore v (List.mem_cons_of_mem x hv), hz⟩

end Steps

/-! ## Lists of ranges -/

theorem Ranges.ofList_eq_error_iff {rs : List Range} {e : Error} :
    ofList rs = .error e ↔ rs = [] ∧ e = .emptyRangeList := by
  cases rs with
  | nil => simp [ofList, eq_comm]
  | cons r rs => simp [ofList]

theorem Ranges.exists_ofList_iff {rs : List Range} :
    (∃ ranges, ofList rs = .ok ranges) ↔ rs ≠ [] := by
  cases rs with
  | nil => simp [ofList]
  | cons r rs => simp [ofList]

namespace Operand

variable {label : Field → String} {o : Operand} {r : Range} {e : Error}

/-! ## One operand -/

/-- The range that an operand is: a point if it has an expression, and an interval if it is a list
of two operands that have one. -/
inductive Reads (label : Field → String) : Operand → Range → Prop
  | point {o : Operand} {value : Expr} : o.toExpr label = .ok value → Reads label o (.point value)
  | interval {low high : Operand} {l h : Expr} : low.toExpr label = .ok l →
    high.toExpr label = .ok h → Reads label (.list [low, high]) (.interval l h)

/-- The first thing that is wrong with an operand as a range. -/
inductive Refused (label : Field → String) : Operand → Error → Prop
  | operand {o : Operand} {e : Error} : (∀ items, o ≠ .list items) → o.toExpr label = .error e →
    Refused label o e
  | length {items : List Operand} : items.length ≠ 2 →
    Refused label (.list items) (.malformedRange items.length)
  | low {low high : Operand} {e : Error} : low.toExpr label = .error e →
    Refused label (.list [low, high]) e
  | high {low high : Operand} {l : Expr} {e : Error} : low.toExpr label = .ok l →
    high.toExpr label = .error e → Refused label (.list [low, high]) e

/-- An operand is no list, a list of another length, or a pair. -/
theorem not_list_or_length_or_pair (o : Operand) : (∀ items, o ≠ .list items) ∨
    (∃ items, items.length ≠ 2 ∧ o = .list items) ∨ ∃ low high, o = .list [low, high] := by
  by_cases ho : ∃ items, o = .list items
  · obtain ⟨items, rfl⟩ := ho
    by_cases hlength : items.length = 2
    · obtain ⟨low, high, rfl⟩ := List.length_eq_two.1 hlength
      exact .inr (.inr ⟨low, high, rfl⟩)
    · exact .inr (.inl ⟨items, hlength, rfl⟩)
  · exact .inl (not_exists.1 ho)

theorem toRange_of_not_list (h : ∀ items, o ≠ .list items) :
    o.toRange label = do return .point (← o.toExpr label) := by
  cases o with
  | list items => exact absurd rfl (h items)
  | expr | int | member | field | custom | deferred | float | text => rfl

theorem toRange_of_length {items : List Operand} (h : items.length ≠ 2) :
    (list items).toRange label = .error (.malformedRange items.length) := by
  match items with
  | [] | [_] | _ :: _ :: _ :: _ => rfl
  | [_, _] => exact absurd rfl h

theorem toRange_pair (low high : Operand) : (list [low, high]).toRange label = do
    let l ← low.toExpr label
    let h ← high.toExpr label
    return .interval l h := rfl

theorem toRange_pair_eq_ok_iff {low high : Operand} :
    (list [low, high]).toRange label = .ok r ↔
      ∃ l h, low.toExpr label = .ok l ∧ high.toExpr label = .ok h ∧ r = .interval l h := by
  simp only [toRange_pair, bind_eq_ok_iff, pure_eq_ok_iff]
  constructor
  · rintro ⟨l, hl, h, hh, rfl⟩
    exact ⟨l, h, hl, hh, rfl⟩
  · rintro ⟨l, h, hl, hh, rfl⟩
    exact ⟨l, hl, h, hh, rfl⟩

theorem toRange_pair_eq_error_iff {low high : Operand} :
    (list [low, high]).toRange label = .error e ↔
      low.toExpr label = .error e ∨
        ∃ l, low.toExpr label = .ok l ∧ high.toExpr label = .error e := by
  simp only [toRange_pair, bind_eq_error_iff, pure_ne_error, and_false, exists_false, or_false]

/-- **An operand is read as the range that it is.** -/
theorem toRange_eq_ok_iff : o.toRange label = .ok r ↔ o.Reads label r := by
  constructor
  · intro hr
    obtain hlist | ⟨items, hlength, rfl⟩ | ⟨low, high, rfl⟩ := o.not_list_or_length_or_pair
    · rw [toRange_of_not_list hlist] at hr
      obtain ⟨value, hvalue, hpoint⟩ := exists_of_bind_eq_ok hr
      cases hpoint
      exact .point hvalue
    · rw [toRange_of_length hlength] at hr
      cases hr
    · obtain ⟨l, h, hl, hh, rfl⟩ := toRange_pair_eq_ok_iff.1 hr
      exact .interval hl hh
  · intro h
    cases h with
    | point hvalue =>
      rw [toRange_of_not_list, hvalue]
      · rfl
      · rintro items rfl
        cases hvalue
    | interval hl hh => exact toRange_pair_eq_ok_iff.2 ⟨_, _, hl, hh, rfl⟩

/-- **An operand is refused for the first thing that is wrong with it.** -/
theorem toRange_eq_error_iff : o.toRange label = .error e ↔ o.Refused label e := by
  constructor
  · intro hr
    obtain hlist | ⟨items, hlength, rfl⟩ | ⟨low, high, rfl⟩ := o.not_list_or_length_or_pair
    · rw [toRange_of_not_list hlist] at hr
      rcases bind_eq_error_iff.1 hr with herror | ⟨value, -, hpure⟩
      · exact .operand hlist herror
      · cases hpure
    · rw [toRange_of_length hlength] at hr
      cases hr
      exact .length hlength
    · rcases toRange_pair_eq_error_iff.1 hr with hlow | ⟨l, hl, hhigh⟩
      · exact .low hlow
      · exact .high hl hhigh
  · intro h
    cases h with
    | operand hlist herror =>
      rw [toRange_of_not_list hlist, herror]
      rfl
    | length hlength => exact toRange_of_length hlength
    | low hlow => exact toRange_pair_eq_error_iff.2 (.inl hlow)
    | high hl hhigh => exact toRange_pair_eq_error_iff.2 (.inr ⟨_, hl, hhigh⟩)

theorem exists_reads_iff : (∃ r, o.Reads label r) ↔ (∃ value, o.toExpr label = .ok value) ∨
    ∃ low high l h, o = .list [low, high] ∧ low.toExpr label = .ok l ∧
      high.toExpr label = .ok h := by
  constructor
  · rintro ⟨r, hr⟩
    cases hr with
    | point hvalue => exact .inl ⟨_, hvalue⟩
    | interval hl hh => exact .inr ⟨_, _, _, _, rfl, hl, hh⟩
  · rintro (⟨value, hvalue⟩ | ⟨low, high, l, h, rfl, hl, hh⟩)
    · exact ⟨_, .point hvalue⟩
    · exact ⟨_, .interval hl hh⟩

/-! ## Lists of operands -/

variable {operands : List Operand} {ranges : Ranges}

theorem toRanges_eq_ok_iff : toRanges label operands = .ok ranges ↔
    ∃ rs, List.Forall₂ (Reads label) operands rs ∧ Ranges.ofList rs = .ok ranges := by
  have hreads : ∀ rs, operands.mapM (toRange label) = .ok rs ↔
      List.Forall₂ (Reads label) operands rs := by
    intro rs
    rw [mapM_eq_ok_iff]
    simp only [toRange_eq_ok_iff]
  show operands.mapM (toRange label) >>= Ranges.ofList = _ ↔ _
  simp only [bind_eq_ok_iff, hreads]

/-- **Operands are refused for the first one that is**, and for nothing else unless there are
none. -/
theorem toRanges_eq_error_iff : toRanges label operands = .error e ↔
    (operands = [] ∧ e = .emptyRangeList) ∨
      ∃ before o after, operands = before ++ o :: after ∧ (∀ p ∈ before, ∃ r, p.Reads label r) ∧
        o.Refused label e := by
  show operands.mapM (toRange label) >>= Ranges.ofList = _ ↔ _
  rw [bind_eq_error_iff, mapM_eq_error_iff, or_comm]
  simp only [toRange_eq_ok_iff, toRange_eq_error_iff]
  refine or_congr_left ?_
  constructor
  · rintro ⟨rs, hrs, herror⟩
    obtain ⟨rfl, rfl⟩ := Ranges.ofList_eq_error_iff.1 herror
    have hlength := ((mapM_eq_ok_iff operands []).1 hrs).length_eq
    exact ⟨List.length_eq_zero_iff.1 hlength, rfl⟩
  · rintro ⟨rfl, rfl⟩
    exact ⟨[], rfl, rfl⟩

/-! ## Parts of an operand -/

/-- The operands that are asked for their expressions when an operand is read as a range. -/
def parts : Operand → List Operand
  | list [low, high] => [low, high]
  | o => [o]

/-- No operand but one that presents it has the error of a test without ranges. -/
theorem eq_of_toExpr_eq_emptyRangeList (h : o.toExpr label = .error .emptyRangeList) :
    o = .custom (.error .emptyRangeList) := by
  cases o with
  | int v =>
    rcases bind_eq_error_iff.1 h with h | ⟨l, -, h⟩
    · cases Literal.eq_of_ofInt_eq_error h
    · cases h
  | custom presented =>
    obtain rfl : presented = .error .emptyRangeList := h
    rfl
  | expr | member | field | list | deferred | float | text => cases h

theorem mem_parts_of_refused (h : o.Refused label .emptyRangeList) :
    .custom (.error .emptyRangeList) ∈ o.parts := by
  cases h with
  | @operand _ _ hlist herror =>
    rw [eq_of_toExpr_eq_emptyRangeList herror]
    exact List.mem_singleton_self _
  | low hlow =>
    rw [eq_of_toExpr_eq_emptyRangeList hlow]
    exact List.mem_cons_self
  | high _ hhigh =>
    rw [eq_of_toExpr_eq_emptyRangeList hhigh]
    exact List.mem_cons_of_mem _ List.mem_cons_self

/-- A part of an operand that is a range has an expression. -/
theorem Reads.exists_toExpr {p : Operand} (h : o.Reads label r) (hp : p ∈ o.parts) :
    ∃ value, p.toExpr label = .ok value := by
  cases h with
  | @point o value hvalue =>
    cases o with
    | list items => cases hvalue
    | expr | int | member | field | custom | deferred | float | text =>
      rw [List.mem_singleton.1 hp]
      exact ⟨value, hvalue⟩
  | @interval low high l h hl hh =>
    rcases List.mem_pair.1 hp with rfl | rfl
    · exact ⟨l, hl⟩
    · exact ⟨h, hh⟩

end Operand

/-! ## Tests -/

namespace Statement

variable {label : Field → String} {value : Operand} {operands : List Operand}

theorem record_empty (label : Field → String) (o : Operand) :
    empty.record label o = do return ⟨[← o.toExpr label]⟩ := by
  simp only [record, Assembly.record]
  cases o.toExpr label with
  | error e => rfl
  | ok v => rfl

/-- The value is looked at before the ranges, and the test is made of both. -/
theorem inside_eq (label : Field → String) (value : Operand) (operands : List Operand) :
    inside label value operands = do
      let v ← value.toExpr label
      let ranges ← Operand.toRanges label operands
      return .inside v ranges := by
  rw [inside, record_empty]
  cases value.toExpr label with
  | error e => rfl
  | ok v =>
    cases Operand.toRanges label operands with
    | error e => rfl
    | ok ranges => rfl

theorem inside_eq_ok_iff {e : Expr} : inside label value operands = .ok e ↔
    ∃ v rs ranges, value.toExpr label = .ok v ∧ List.Forall₂ (Operand.Reads label) operands rs ∧
      Ranges.ofList rs = .ok ranges ∧ e = .inside v ranges := by
  simp only [inside_eq, bind_eq_ok_iff, pure_eq_ok_iff, Operand.toRanges_eq_ok_iff]
  constructor
  · rintro ⟨v, hv, ranges, ⟨rs, hrs, hlist⟩, rfl⟩
    exact ⟨v, rs, ranges, hv, hrs, hlist, rfl⟩
  · rintro ⟨v, rs, ranges, hv, hrs, hlist, rfl⟩
    exact ⟨v, hv, ranges, ⟨rs, hrs, hlist⟩, rfl⟩

theorem inside_eq_error_iff {e : Error} : inside label value operands = .error e ↔
    value.toExpr label = .error e ∨ (∃ v, value.toExpr label = .ok v) ∧
      ((operands = [] ∧ e = .emptyRangeList) ∨ ∃ before o after, operands = before ++ o :: after ∧
        (∀ p ∈ before, ∃ r, p.Reads label r) ∧ o.Refused label e) := by
  rw [← Operand.toRanges_eq_error_iff, ← exists_and_right]
  simp only [inside_eq, bind_eq_error_iff, pure_ne_error, and_false, exists_false, or_false]

theorem exists_inside_iff : (∃ e, inside label value operands = .ok e) ↔
    (∃ v, value.toExpr label = .ok v) ∧ operands ≠ [] ∧
      ∀ o ∈ operands, ∃ r, o.Reads label r := by
  rw [← exists_forall₂_iff]
  simp only [inside_eq_ok_iff]
  constructor
  · rintro ⟨_, v, rs, ranges, hv, hrs, hlist, -⟩
    refine ⟨⟨v, hv⟩, ?_, rs, hrs⟩
    rintro rfl
    cases hrs
    cases hlist
  · rintro ⟨⟨v, hv⟩, hne, rs, hrs⟩
    have hrs' : rs ≠ [] := by
      rintro rfl
      cases hrs
      exact hne rfl
    obtain ⟨ranges, hlist⟩ := Ranges.exists_ofList_iff.2 hrs'
    exact ⟨_, v, rs, ranges, hv, hrs, hlist, rfl⟩

/-- **Membership tests are made of exactly the operands that they are described for.** A test is made
if the value has an expression and there are ranges, each of which has an expression or is a list of
two operands that have one. It is the test of the value in these ranges: points and intervals, in
order.

A test that is not made is refused for the value first, and then for the first operand that is no
range: a list for its length, or for its low or its high end, in this order. That there are no
ranges is said only if there are no operands, unless an operand presents this very error as its
own. So lists elsewhere, promises, floating-point numbers and texts are never part of a test: all
parts of it are leaves. -/
theorem inside_exact (label : Field → String) (value : Operand) (operands : List Operand) :
    (∀ e, inside label value operands = .ok e ↔ ∃ v rs ranges, value.toExpr label = .ok v ∧
      List.Forall₂ (Operand.Reads label) operands rs ∧ Ranges.ofList rs = .ok ranges ∧
        e = .inside v ranges) ∧
    ((∃ e, inside label value operands = .ok e) ↔ (∃ v, value.toExpr label = .ok v) ∧
      operands ≠ [] ∧ ∀ o ∈ operands, (∃ e, o.toExpr label = .ok e) ∨
        ∃ low high l h, o = .list [low, high] ∧ low.toExpr label = .ok l ∧
          high.toExpr label = .ok h) ∧
    (∀ e, inside label value operands = .error e ↔ value.toExpr label = .error e ∨
      (∃ v, value.toExpr label = .ok v) ∧ ((operands = [] ∧ e = .emptyRangeList) ∨
        ∃ before o after, operands = before ++ o :: after ∧
          (∀ p ∈ before, ∃ r, p.Reads label r) ∧ o.Refused label e)) ∧
    ((∀ o ∈ value :: operands.flatMap Operand.parts, o ≠ .custom (.error .emptyRangeList)) →
      inside label value operands = .error .emptyRangeList → operands = []) ∧
    ((∃ e, inside label value operands = .ok e) →
      ∀ o ∈ value :: operands.flatMap Operand.parts, ∃ l : Leaf, l.operand = o) := by
  refine ⟨fun _ => inside_eq_ok_iff, ?_, fun _ => inside_eq_error_iff, fun hown h => ?_,
    fun h o ho => ?_⟩
  · simp only [exists_inside_iff, Operand.exists_reads_iff]
  · rcases inside_eq_error_iff.1 h with hvalue | ⟨-, ⟨hnil, -⟩ | ⟨before, o, after, rfl, -, ho⟩⟩
    · exact absurd (Operand.eq_of_toExpr_eq_emptyRangeList hvalue) (hown value List.mem_cons_self)
    · exact hnil
    · refine absurd rfl (hown _ (List.mem_cons_of_mem value (List.mem_flatMap.2
        ⟨o, ?_, Operand.mem_parts_of_refused ho⟩)))
      exact List.mem_append_right before List.mem_cons_self
  · obtain ⟨hvalue, -, hreads⟩ := exists_inside_iff.1 h
    have hexpr : ∃ e, o.toExpr label = .ok e := by
      rcases List.mem_cons.1 ho with rfl | ho
      · exact hvalue
      · obtain ⟨p, hp, ho⟩ := List.mem_flatMap.1 ho
        obtain ⟨r, hr⟩ := hreads p hp
        exact hr.exists_toExpr ho
    obtain ⟨e, he⟩ := hexpr
    obtain ⟨l, hl, -⟩ := Operand.toExpr_eq_ok.1 he
    exact ⟨l, hl⟩

end Statement

end Stimulus

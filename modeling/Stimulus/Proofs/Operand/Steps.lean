import Stimulus.Operand.Statement

/-!
# Steps of a statement

What a step does is said once, for every statement. A step is refused for its operand or for the
number of operands that are there (`Step.refusal`), and a step that is refused leaves the statement
as it was, although it works on the statement in place (`Step.settled`). A sequence of steps gives
the results of all its steps (`performAll`), and the refused ones might as well be left out
(`performAll_successes`).
-/

set_option autoImplicit false

namespace Stimulus

namespace Assembly

variable {s : Statement} {n : Nat}

/-! ## Operands taken off -/

theorem perform_takeLast_of_lt (h : s.depth < n) :
    (takeLast n).perform s = (.error (.missingOperands n s.depth), s) := by
  simp [takeLast, h]

theorem perform_takeLast_of_le (h : n ≤ s.depth) :
    (takeLast n).perform s = (.ok (s.stack.take n), ⟨s.stack.drop n⟩) := by
  simp [takeLast, Nat.not_lt.2 h]

/-- As many operands are taken off as are asked for. -/
theorem perform_takeExactly_of_le (h : n ≤ s.depth) :
    ∃ taken : Vector Expr n, s.stack.take n = taken.toList ∧
      (takeExactly n).perform s = (.ok taken, ⟨s.stack.drop n⟩) := by
  have hlen : (s.stack.take n).length = n := List.length_take_of_le h
  refine ⟨⟨(s.stack.take n).toArray, hlen⟩, rfl, ?_⟩
  simp [takeExactly, perform_takeLast_of_le h, hlen]

theorem perform_combineLast_of_lt (combine : Vector Expr n → Expr) (h : s.depth < n) :
    (combineLast n combine).perform s = (.error (.missingOperands n s.depth), s) := by
  simp [combineLast, takeExactly, perform_takeLast_of_lt h]

theorem perform_combineLast_of_le (combine : Vector Expr n → Expr) (h : n ≤ s.depth) :
    ∃ taken : Vector Expr n, s.stack.take n = taken.toList ∧
      (combineLast n combine).perform s = (.ok (), ⟨combine taken :: s.stack.drop n⟩) := by
  obtain ⟨taken, htaken, hperform⟩ := perform_takeExactly_of_le h
  exact ⟨taken, htaken, by simp [combineLast, push, hperform]⟩

end Assembly

namespace Statement

/-! ## Single steps -/

/-- What can be done to a statement. A label names the fields in the error of a refused operand. -/
inductive Step where
  | record (label : Field → String) (o : Operand)
  | takeLast (n : Nat)
  | apply (op : Operator)
  | applyBit
  | applySlice
  | applyInside (ranges : Ranges)

namespace Step

variable {step : Step} {s : Statement} {e : Error}

/-- The step itself, which gives the operands that it takes off for good. -/
def run : Step → Assembly (List Expr)
  | record label o => do
    Assembly.record label o
    return []
  | takeLast n => Assembly.takeLast n
  | apply op => do
    Assembly.apply op
    return []
  | applyBit => do
    Assembly.applyBit
    return []
  | applySlice => do
    Assembly.applySlice
    return []
  | applyInside ranges => do
    Assembly.applyInside ranges
    return []

/-- The number of operands that a step takes off. -/
def needs : Step → Nat
  | record .. => 0
  | takeLast n => n
  | apply _ | applyBit => 2
  | applySlice => 3
  | applyInside _ => 1

/-- The error with which a step is refused: that of its operand, or operands that are missing. -/
def refusal (s : Statement) : Step → Option Error
  | record label o =>
    match o.toExpr label with
    | .ok _ => none
    | .error e => some e
  | step => if s.depth < step.needs then some (.missingOperands step.needs s.depth) else none

/-- A step is refused with an error, if there is one, and then changes nothing, or it is
completed. -/
def Settled (x : Assembly (List Expr)) (s : Statement) (refusal : Option Error) : Prop :=
  (∃ e, refusal = some e ∧ x.perform s = (.error e, s)) ∨
    refusal = none ∧ ∃ taken t, x.perform s = (.ok taken, t)

/-- Steps that combine operands differ only in what they combine them to. -/
theorem settled_combineLast {n : Nat} (combine : Vector Expr n → Expr) (s : Statement) :
    Settled (do Assembly.combineLast n combine; return []) s
      (if s.depth < n then some (.missingOperands n s.depth) else none) := by
  by_cases h : s.depth < n
  · exact Or.inl ⟨_, if_pos h, by simp [Assembly.perform_combineLast_of_lt combine h]⟩
  · obtain ⟨taken, -, hperform⟩ := Assembly.perform_combineLast_of_le combine (Nat.not_lt.1 h)
    exact Or.inr ⟨if_neg h, [], ⟨combine taken :: s.stack.drop n⟩, by simp [hperform]⟩

/-- **A step is refused and changes nothing, or it is completed.** -/
theorem settled (step : Step) (s : Statement) : Settled step.run s (step.refusal s) := by
  cases step with
  | record label o =>
    cases ho : o.toExpr label with
    | error e => exact Or.inl ⟨e, by simp [refusal, ho], by simp [run, Assembly.record, ho]⟩
    | ok e =>
      exact Or.inr ⟨by simp [refusal, ho], [], ⟨e :: s.stack⟩, by
        simp [run, Assembly.record, Assembly.push, ho]⟩
  | takeLast n =>
    by_cases h : s.depth < n
    · exact Or.inl ⟨_, if_pos h, Assembly.perform_takeLast_of_lt h⟩
    · exact Or.inr ⟨if_neg h, _, _, Assembly.perform_takeLast_of_le (Nat.not_lt.1 h)⟩
  | apply op => exact settled_combineLast _ s
  | applyBit => exact settled_combineLast _ s
  | applySlice => exact settled_combineLast _ s
  | applyInside ranges => exact settled_combineLast _ s

theorem perform_error_iff : (step.run.perform s).1 = .error e ↔ step.refusal s = some e := by
  rcases settled step s with ⟨e', hrefusal, hperform⟩ | ⟨hrefusal, taken, t, hperform⟩
  · simp [hrefusal, hperform]
  · simp [hrefusal, hperform]

/-- A step that fails leaves the statement as it was. -/
theorem eq_of_perform_error {t : Statement} (h : step.run.perform s = (.error e, t)) : t = s := by
  rcases settled step s with ⟨e', -, hperform⟩ | ⟨-, taken, t', hperform⟩
  · rw [hperform] at h
    cases h
    rfl
  · rw [hperform] at h
    cases h

end Step

/-! ## Sequences of steps -/

/-- The results of some steps, one after another, and the statement after them. -/
def performAll : List Step → Statement → List (Except Error (List Expr)) × Statement
  | [], s => ([], s)
  | step :: rest, s =>
    let (r, s) := step.run.perform s
    let (results, s) := performAll rest s
    (r :: results, s)

/-- Those of some steps that are completed where they stand. -/
def successes : List Step → Statement → List Step
  | [], _ => []
  | step :: rest, s =>
    match step.run.perform s with
    | (.ok _, s) => step :: successes rest s
    | (.error _, s) => successes rest s

theorem performAll_append (p q : List Step) (s : Statement) :
    performAll (p ++ q) s =
      ((performAll p s).1 ++ (performAll q (performAll p s).2).1,
        (performAll q (performAll p s).2).2) := by
  induction p generalizing s with
  | nil => rfl
  | cons step rest ih => simp [performAll, ih]

/-- **Refused steps might as well be left out**: the others give the same results and lead to the
same statement. -/
theorem performAll_successes (steps : List Step) (s : Statement) :
    performAll (successes steps s) s =
      ((performAll steps s).1.filter Except.isOk, (performAll steps s).2) := by
  induction steps generalizing s with
  | nil => rfl
  | cons step rest ih =>
    rcases step.settled s with ⟨e, -, hperform⟩ | ⟨-, taken, t, hperform⟩
    · -- a refused step is left out, and the rest starts from the same statement without it
      have hresult : (Except.error e : Except Error (List Expr)).isOk = false := rfl
      simp [successes, performAll, hperform, ih, hresult]
    · have hresult : (Except.ok taken : Except Error (List Expr)).isOk = true := rfl
      simp [successes, performAll, hperform, ih, hresult]

end Statement

end Stimulus

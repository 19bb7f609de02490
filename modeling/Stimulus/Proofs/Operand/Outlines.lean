import Stimulus.Expr.Formula
import Stimulus.Proofs.Expr.Shape
import Stimulus.Proofs.Literal
import Stimulus.Proofs.Operand.Steps

/-!
# Statements and formulas

An expression can be written as a formula or assembled in a statement, operand by operand. What both
start from is an outline (`Outline`): operators, selections and membership tests over operands that
have an expression. The operands that have one are exactly the leaves of outlines
(`Operand.toExpr_eq_ok`). The steps of an outline in post-order put one operand onto any statement,
the expression that the formula is (`Statement.turns_steps`, `Outline.formula_eq_tree`).

The operands of a step come off in the reverse order of their recording. The induction is therefore
on what a sequence of steps makes of the last operands, whatever lies below them
(`Statement.Turns`).
-/

set_option autoImplicit false

namespace Stimulus

/-! ## Leaves -/

/-- The operands that have an expression. -/
inductive Leaf where
  | int (v : Int32)
  | member (m : Member)
  | field (f : Field)
  | expr (e : Expr)
  /-- Something that presents an expression when it is asked for one. -/
  | custom (e : Expr)

namespace Leaf

/-- The leaf as an operand. -/
def operand : Leaf → Operand
  | int v => .int v.toInt
  | member m => .member m
  | field f => .field f
  | expr e => .expr e
  | custom e => .custom (.ok e)

/-- The leaf in a formula. -/
def formula : Leaf → Expr
  | int v => v
  | member m => m
  | field f => f
  | expr e => e
  | custom e => e

end Leaf

/-- **The operands that have an expression are the leaves**, and the expression is the one that the
leaf is in a formula. -/
theorem Operand.toExpr_eq_ok {label : Field → String} {o : Operand} {e : Expr} :
    o.toExpr label = .ok e ↔ ∃ l : Leaf, l.operand = o ∧ l.formula = e := by
  constructor
  · intro h
    cases o with
    | expr e' =>
      cases h
      exact ⟨.expr e, rfl, rfl⟩
    | int v =>
      obtain ⟨l, hl, hliteral⟩ := exists_of_bind_eq_ok h
      cases hliteral
      obtain ⟨w, rfl, rfl⟩ := Literal.ofInt_plain_eq_ok hl
      exact ⟨.int w, rfl, rfl⟩
    | member m =>
      cases h
      exact ⟨.member m, rfl, rfl⟩
    | field f =>
      cases h
      exact ⟨.field f, rfl, rfl⟩
    | custom presented =>
      obtain rfl : presented = .ok e := h
      exact ⟨.custom e, rfl, rfl⟩
    | list items => cases h
    | deferred later => cases h
    | float x => cases h
    | text s => cases h
  · rintro ⟨l, rfl, rfl⟩
    cases l with
    | int v => simp only [Leaf.operand, toExpr, Expr.ofInt, Literal.ofInt_plain]; rfl
    | member m => rfl
    | field f => rfl
    | expr e => rfl
    | custom e => rfl

/-! ## Outlines -/

/-- Operators, selections of bits and membership tests over operands that have an expression. -/
inductive Outline where
  | leaf (l : Leaf)
  | binary (op : Operator) (lhs rhs : Outline)
  | bit (base index : Outline)
  | slice (base high low : Outline)
  | inside (value : Outline) (ranges : Ranges)

namespace Outline

/-- The expression, node by node. -/
def tree : Outline → Expr
  | leaf l => l.formula
  | binary op lhs rhs => .binary op lhs.tree rhs.tree
  | bit base index => .bit base.tree index.tree
  | slice base high low => .slice base.tree high.tree low.tree
  | inside value ranges => .inside value.tree ranges

/-- The expression as it is written. -/
def formula : Outline → Expr
  | leaf l => l.formula
  | binary op lhs rhs => op.formula lhs.formula rhs.formula
  | bit base index => .bit base.formula index.formula
  | slice base high low => .slice base.formula high.formula low.formula
  | inside value ranges => .inside value.formula ranges

/-- The steps that assemble the expression: operands are recorded from left to right, and what
combines them comes after them. -/
def steps (label : Field → String) : Outline → List Statement.Step
  | leaf l => [.record label l.operand]
  | binary op lhs rhs => lhs.steps label ++ rhs.steps label ++ [.apply op]
  | bit base index => base.steps label ++ index.steps label ++ [.applyBit]
  | slice base high low =>
    base.steps label ++ high.steps label ++ low.steps label ++ [.applySlice]
  | inside value ranges => value.steps label ++ [.applyInside ranges]

theorem formula_eq_tree (t : Outline) : t.formula = t.tree := by
  induction t with
  | leaf l => rfl
  | binary op lhs rhs ihl ihr =>
    simp only [formula, tree, ihl, ihr]
    -- every sign stands for the operator that it is named for
    cases op <;> rfl
  | bit base index ihb ihi => simp only [formula, tree, ihb, ihi]
  | slice base high low ihb ihh ihl => simp only [formula, tree, ihb, ihh, ihl]
  | inside value ranges ih => simp only [formula, tree, ih]

end Outline

/-! ## Assembly -/

namespace Statement

variable {p q : List Step} {before between after : List Expr} {label : Field → String}

/-- The steps are all completed and put `after` in place of the last operands `before`, whatever
lies below them. -/
def Turns (steps : List Step) (before after : List Expr) : Prop :=
  ∀ rest, performAll steps ⟨before ++ rest⟩ =
    (List.replicate steps.length (.ok []), ⟨after ++ rest⟩)

theorem Turns.append (hp : Turns p before between) (hq : Turns q between after) :
    Turns (p ++ q) before after := by
  intro rest
  rw [performAll_append, hp rest, hq rest, List.length_append,
    List.replicate_append_replicate]

/-- Operands below the last ones may be counted among them. -/
theorem Turns.above (h : Turns p [] after) (below : List Expr) :
    Turns p below (after ++ below) := by
  intro rest
  rw [List.append_assoc]
  exact h (below ++ rest)

theorem turns_record {o : Operand} {e : Expr} (h : o.toExpr label = .ok e) :
    Turns [.record label o] [] [e] := by
  intro rest
  simp [performAll, Step.run, Assembly.record, Assembly.push, h]

/-- The operands of a step come off the last one first. -/
theorem turns_combineLast {n : Nat} (step : Step) (combine : Vector Expr n → Expr)
    (hrun : step.run = do Assembly.combineLast n combine; return []) (taken : Vector Expr n) :
    Turns [step] taken.toList [combine taken] := by
  intro rest
  have hlen : taken.toList.length = n := taken.length_toList
  have hdepth : n ≤ (⟨taken.toList ++ rest⟩ : Statement).depth := by
    simp [depth]
  obtain ⟨taken', htake, hperform⟩ := Assembly.perform_combineLast_of_le combine hdepth
  obtain rfl : taken' = taken := by
    apply Vector.toList_inj.1
    rw [← htake, List.take_left' hlen]
  simp [performAll, hrun, hperform, List.drop_left' hlen]

/-- **The steps of an outline put its expression onto the statement.** -/
theorem turns_steps (t : Outline) : Turns (t.steps label) [] [t.tree] := by
  induction t with
  | leaf l => exact turns_record (Operand.toExpr_eq_ok.2 ⟨l, rfl, rfl⟩)
  | binary op lhs rhs ihl ihr =>
    have hoperands := ihl.append (ihr.above [lhs.tree])
    exact hoperands.append (turns_combineLast (.apply op) _ rfl #v[rhs.tree, lhs.tree])
  | bit base index ihb ihi =>
    have hoperands := ihb.append (ihi.above [base.tree])
    exact hoperands.append (turns_combineLast .applyBit _ rfl #v[index.tree, base.tree])
  | slice base high low ihb ihh ihl =>
    have hbounds := ihb.append (ihh.above [base.tree])
    have hoperands := hbounds.append (ihl.above [high.tree, base.tree])
    exact hoperands.append
      (turns_combineLast .applySlice _ rfl #v[low.tree, high.tree, base.tree])
  | inside value ranges ih =>
    exact ih.append (turns_combineLast (.applyInside ranges) _ rfl #v[value.tree])

theorem finish_eq_ok {s : Statement} {e : Expr} : s.finish = .ok e ↔ s.stack = [e] := by
  rcases s with ⟨_ | ⟨e', _ | ⟨e'', rest⟩⟩⟩
  · simp [finish]
  · simp [finish]
  · simp [finish]

/-- **Statements are exact and free of half-done steps.** The operands that have an expression are
the leaves of outlines. The steps of an outline are all completed and put one operand onto any
statement, the expression of the outline node by node and as a formula; a statement that was empty
then finishes with it. A step fails exactly if it is refused, for its operand or for missing
operands, and then leaves the statement as it was. So of any steps the refused ones might as well be
left out. A statement finishes exactly if a single operand is left. -/
theorem exact_and_atomic :
    (∀ label o e, o.toExpr label = .ok e ↔ ∃ l : Leaf, l.operand = o ∧ l.formula = e) ∧
    (∀ (t : Outline) label s, performAll (t.steps label) s =
      (List.replicate (t.steps label).length (.ok []), ⟨t.tree :: s.stack⟩)) ∧
    (∀ t : Outline, t.formula = t.tree) ∧
    (∀ (t : Outline) label, (performAll (t.steps label) empty).2.finish = .ok t.tree) ∧
    (∀ (step : Step) s e, (step.run.perform s).1 = .error e ↔ step.refusal s = some e) ∧
    (∀ (step : Step) s e t, step.run.perform s = (.error e, t) → t = s) ∧
    (∀ steps s, performAll (successes steps s) s =
      ((performAll steps s).1.filter Except.isOk, (performAll steps s).2)) ∧
    ∀ s : Statement, (∃ e, s.finish = .ok e) ↔ s.depth = 1 := by
  refine ⟨fun _ _ _ => Operand.toExpr_eq_ok, fun t label s => turns_steps t s.stack,
    Outline.formula_eq_tree, fun t label => ?_, fun _ _ _ => Step.perform_error_iff,
    fun _ _ _ _ => Step.eq_of_perform_error, performAll_successes, fun s => ?_⟩
  · exact finish_eq_ok.2 (congrArg (fun r => r.2.stack) (turns_steps t []))
  · simp only [finish_eq_ok, depth, List.length_eq_one_iff]

end Statement

end Stimulus

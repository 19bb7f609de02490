import Stimulus.Lowering

/-!
# Properties of steps

A property of computations is inherited if single steps have it and sequences of
steps keep it. For a solver (`Solver.Inherited`) the single steps are computations on
the store, taking variables, and looks at anything but the source; so fresh terms
have the property. Lowering (`Lowering.Inherited`) adds its errors and the list of
terms; so the terms of fields have such a property, all of lowering, by induction over
expressions (`Lowering.Inherited.lower`), and the constraints of a scope
(`Lowering.Inherited.lowerAll`).
-/

set_option autoImplicit false

namespace Stimulus

open Diagram

/-! ## Steps of the solver -/

namespace Solver

/-- A property that single steps of a solver have and sequences keep. -/
structure Inherited (P : {α : Type} → Solving α → Prop) : Prop where
  /-- A result without a step. -/
  pure : ∀ {α : Type} (a : α), P (Pure.pure a : Solving α)
  /-- One step after another. -/
  bind : ∀ {α β : Type} {x : Solving α} {k : α → Solving β}, P x → (∀ a, P (k a)) → P (x >>= k)
  /-- A result that is there or not. -/
  lift : ∀ {α : Type} (y : Except Fault α), P (liftM y : Solving α)
  /-- A computation on the store. -/
  build : ∀ {α : Type} (y : Build α), P (build y)
  /-- More variables. -/
  advance : ∀ n, P (modify fun s : Solver => { s with numVars := s.numVars + n })
  /-- A look at anything but the source. -/
  look : ∀ {β : Type} {k : Solver → Solving β}, (∀ s, P (k s)) →
    (∀ s g, k { s with source := g } = k s) → P (get >>= k)

variable {P : {α : Type} → Solving α → Prop} (h : Inherited P)
include h

theorem Inherited.mapM {α β : Type} {f : α → Solving β} (hf : ∀ a, P (f a)) (as : List α) :
    P (as.mapM f) := by
  induction as with
  | nil => exact h.pure []
  | cons a as ih =>
    rw [List.mapM_cons]
    exact h.bind (hf a) fun b => h.bind ih fun bs => h.pure (b :: bs)

theorem Inherited.freshVariable (shape : Shape) : P (freshVariable shape) :=
  h.look (fun _ => h.bind (h.advance _) fun _ => h.build _) fun _ _ => rfl

theorem Inherited.foldlM {α β : Type} {f : β → α → Solving β} (hf : ∀ b a, P (f b a))
    (as : List α) (b : β) : P (as.foldlM f b) := by
  induction as generalizing b with
  | nil => exact h.pure b
  | cons a as ih =>
    rw [List.foldlM_cons]
    exact h.bind (hf b a) ih

theorem Inherited.extend (i : Nat) (draft : Draft) : P (draft.extend i) := by
  unfold Draft.extend
  split
  · exact h.bind (h.bind (h.advance 1) fun _ => h.look (fun _ => h.build _) fun _ _ => rfl)
      fun _ => h.pure _
  · exact h.pure draft

theorem Inherited.freshVariables (shapes : List Shape) : P (freshVariables shapes) := by
  refine h.look (fun s => ?_) fun _ _ => rfl
  cases s.layout with
  | interleaved =>
    exact h.bind (h.foldlM (fun drafts i => h.mapM (h.extend i) drafts) _ _) fun drafts =>
      h.mapM (fun draft => h.lift draft.finish) drafts
  | sequential => exact h.mapM h.freshVariable shapes

end Solver

/-! ## Steps of lowering -/

namespace Lowering

/-- A property that single steps of lowering have and sequences keep, where `Q` is one for steps of
the solver. -/
structure Inherited (Q : {α : Type} → Solving α → Prop) (P : {α : Type} → Lower α → Prop) :
    Prop where
  /-- Steps of the solver inherit as well. -/
  solver : Solver.Inherited Q
  /-- A step of the solver. -/
  solving : ∀ {α : Type} {y : Solving α}, Q y → P (solving y)
  /-- A result without a step. -/
  pure : ∀ {α : Type} (a : α), P (Pure.pure a : Lower α)
  /-- One step after another. -/
  bind : ∀ {α β : Type} {x : Lower α} {k : α → Lower β}, P x → (∀ a, P (k a)) → P (x >>= k)
  /-- The error of a field without a name. -/
  unbound : ∀ {α : Type}, P (throw .unboundField : Lower α)
  /-- The error of widths that do not fit. -/
  mismatch : ∀ {α : Type} (c : WidthError), P (throw (.widthMismatch c) : Lower α)
  /-- More terms. -/
  allocate : ∀ more, P (allocate more)
  /-- A look at anything but the source. -/
  look : ∀ {β : Type} {k : Lowering → Lower β}, (∀ l, P (k l)) →
    (∀ l g, k ⟨{ l.solver with source := g }, l.table⟩ = k l) → P (get >>= k)

variable {ws : Workspace} {Q : {α : Type} → Solving α → Prop} {P : {α : Type} → Lower α → Prop}

section

variable (h : Inherited Q P)
include h

theorem Inherited.build {α : Type} (y : Build α) : P (Lowering.solving (Solver.build y)) :=
  h.solving (h.solver.build y)

theorem Inherited.newTerm (f : Field) : P (newTerm ws f) := by
  unfold Lowering.newTerm
  split
  · exact h.bind (h.solving (h.solver.freshVariable _)) fun t =>
      h.bind (h.allocate _) fun _ => h.pure t
  · exact h.unbound

theorem Inherited.fieldTerm (f : Field) : P (fieldTerm ws f) := by
  refine h.look (fun l => ?_) fun _ _ => rfl
  cases l.index[f]? with
  | some i => exact h.solving (h.solver.lift (l.table.termAt i))
  | none => exact h.newTerm f

theorem Inherited.declare (fs : List Field) : P (declare ws fs) := by
  unfold Lowering.declare
  split
  · refine h.look (fun l => ?_) fun _ _ => rfl
    exact h.bind (h.solving (h.solver.freshVariables _)) fun _ => h.allocate _
  · exact h.unbound

theorem Inherited.ok {α : Type} {y : Except Error α} {a : α} (hy : y = .ok a) :
    P (liftM y : Lower α) := by
  subst hy
  exact h.pure a

/-- A bound of a range of bits may only fail for its width. -/
theorem Inherited.bound (e : Expr) (t : BitVector) : P (liftM (bound ws e t) : Lower Nat) := by
  unfold Lowering.bound
  cases t.toConstant? with
  | none => exact h.mismatch _
  | some n =>
    dsimp only
    split
    · exact h.mismatch _
    · exact h.pure n

theorem Inherited.selectBit (base index : BitVector) : P (selectBit base index) := by
  unfold Lowering.selectBit
  cases index.toConstant? with
  | none => exact h.build _
  | some i =>
    -- an index beyond the width is an error, and the selection is not reached
    dsimp only
    split
    · exact h.bind (h.mismatch _) fun _ => h.build _
    · exact h.build _

theorem Inherited.selectSlice (base : BitVector) (high low : Nat) :
    P (selectSlice base high low) := by
  unfold Lowering.selectSlice
  split
  · exact h.bind (h.mismatch _) fun _ => h.pure _
  · exact h.pure _

theorem Inherited.extend (sofar : Option BitVector) (t : BitVector) : P (extend sofar t) := by
  cases sofar with
  | none => exact h.pure t
  | some a => exact h.build _

mutual

/-- **Lowering an expression has every inherited property.** -/
theorem Inherited.lower : ∀ e : Expr, P (lower ws e)
  | .literal _ => h.pure _
  | .field f => h.fieldTerm f
  | .binary _ lhs rhs =>
    h.bind (Inherited.lower lhs) fun _ => h.bind (Inherited.lower rhs) fun _ => h.build _
  | .bit base index =>
    h.bind (Inherited.lower base) fun a => h.bind (Inherited.lower index) fun i => h.selectBit a i
  | .slice base high low =>
    h.bind (Inherited.lower base) fun a =>
      h.bind (Inherited.lower high) fun t => h.bind (h.bound high t) fun i =>
        h.bind (Inherited.lower low) fun u => h.bind (h.bound low u) fun j => h.selectSlice a i j
  | .inside value ranges =>
    h.bind (Inherited.lower value) fun a => Inherited.lowerRanges a none ranges

theorem Inherited.lowerRange (a : BitVector) : ∀ range : Range, P (lowerRange ws a range)
  | .point point => h.bind (Inherited.lower point) fun _ => h.build _
  | .interval low high =>
    h.bind (Inherited.lower low) fun _ => h.bind (Inherited.lower high) fun _ =>
      h.bind (h.build _) fun _ => h.bind (h.build _) fun _ => h.build _

theorem Inherited.lowerRanges (a : BitVector) (sofar : Option BitVector) :
    ∀ ranges : Ranges, P (lowerRanges ws a sofar ranges)
  | .single range => h.bind (Inherited.lowerRange a range) fun t => h.extend sofar t
  | .cons range rest =>
    h.bind (Inherited.lowerRange a range) fun t => h.bind (h.extend sofar t) fun b =>
      Inherited.lowerRanges a (some b) rest

end

theorem Inherited.lowerAll (es : List Expr) (sofar : BitVector) : P (lowerAll ws es sofar) := by
  induction es generalizing sofar with
  | nil => exact h.pure sofar
  | cons e rest ih => exact h.bind (h.lower e) fun _ => h.bind (h.build _) fun b => ih b

end

end Lowering

end Stimulus

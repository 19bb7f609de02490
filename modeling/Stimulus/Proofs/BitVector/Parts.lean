import Stimulus.BitVector.Apply
import Stimulus.Proofs.Diagram.Lossy

/-!
# Operations in parts

Operations on diagrams and bit-vectors consist of case splits, literals, complements and
checks of their arguments (`Composed`). Nothing else in them looks at the computed table,
so entries of it may get lost between any two of these parts, and within the case splits.
-/

set_option autoImplicit false

namespace Stimulus.Diagram

/-- The computation consists of case splits, literals, complements and checks, between any two of
which entries of the computed table may get lost. -/
def Composed {α : Type} (x : Build α) : Prop := Loses x x

section Composed

variable {α β : Type} {x : Build α} {k : α → Build β}

theorem composed_pure (a : α) : Composed (pure a : Build α) := Loses.lift (.ok a)

theorem composed_throw (fault : Fault) : Composed (throw fault : Build α) :=
  Loses.lift (.error fault)

theorem composed_lift (y : Except Fault α) : Composed (liftM y : Build α) := Loses.lift y

theorem Composed.bind (hx : Composed x) (hk : ∀ a, Composed (k a)) : Composed (x >>= k) :=
  Loses.bind hx hk

/-- The last step only rearranges the result. -/
theorem Composed.map (hx : Composed x) (r : α → β) : Composed (x >>= fun a => pure (r a)) :=
  hx.bind fun a => composed_pure (r a)

theorem composed_mapM {f : α → Build β} (hf : ∀ a, Composed (f a)) (as : List α) :
    Composed (as.mapM f) := by
  induction as with
  | nil => exact composed_pure []
  | cons a as ih =>
    rw [List.mapM_cons]
    exact (hf a).bind fun b => ih.map (b :: ·)

theorem composed_foldlM {f : β → α → Build β} (hf : ∀ b a, Composed (f b a)) (as : List α) :
    ∀ b, Composed (as.foldlM f b) := by
  induction as with
  | nil => exact composed_pure
  | cons a as ih =>
    intro b
    rw [List.foldlM_cons]
    exact (hf b a).bind ih

end Composed

variable {f g h : Edge}

theorem composed_complement (f : Edge) : Composed (complement f) := Loses.complement f

theorem composed_literal (v : Nat) : Composed (literal v) := Loses.literal v

theorem composed_choose (f g h : Edge) : Composed (choose f g h) := by
  have hlost := Loses.choose (fun _ => .none) f g h
  rwa [chooseForgetting_none] at hlost

theorem composed_conj (f g : Edge) : Composed (conj f g) := composed_choose f g .zero

theorem composed_disj (f g : Edge) : Composed (disj f g) := composed_choose f .one g

theorem composed_differ (f g : Edge) : Composed (differ f g) :=
  (composed_complement g).bind fun g' => composed_choose f g' g

theorem composed_agree (f g : Edge) : Composed (agree f g) :=
  (composed_complement g).bind fun g' => composed_choose f g g'

theorem composed_conjAll (fs : List Edge) : Composed (conjAll fs) :=
  composed_foldlM composed_conj fs .one

theorem composed_disjAll (fs : List Edge) : Composed (disjAll fs) :=
  composed_foldlM composed_disj fs .zero

end Stimulus.Diagram

namespace Stimulus.BitVector

open Diagram

variable {a b : BitVector} {xs ys : List Edge}

theorem composed_checkWidths (a b : BitVector) : Composed (liftM (checkWidths a b) : Build Unit) :=
  composed_lift _

theorem composed_zipWithM {f : Edge → Edge → Build Edge} (hf : ∀ x y, Composed (f x y))
    (xs ys : List Edge) : Composed (zipWithM f xs ys) := by
  induction xs generalizing ys with
  | nil => exact composed_pure []
  | cons x xs ih =>
    cases ys with
    | nil => exact composed_pure []
    | cons y ys => exact (hf x y).bind fun z => (ih ys).map (z :: ·)

theorem composed_addBits (xs ys : List Edge) (carry : Edge) :
    Composed (addBits xs ys carry) := by
  induction xs generalizing ys carry with
  | nil => exact composed_pure []
  | cons x xs ih =>
    cases ys with
    | nil => exact composed_pure []
    | cons y ys =>
      refine (composed_differ x y).bind fun part => (composed_differ part carry).bind fun sum => ?_
      refine (composed_disj y carry).bind fun either => (composed_conj y carry).bind fun both => ?_
      exact (composed_choose x either both).bind fun next => (ih ys next).map (sum :: ·)

theorem composed_mulBits (as : List Edge) : ∀ (bs : List Edge) (shift : Nat) (sum : List Edge),
    Composed (mulBits as shift bs sum) := by
  intro bs
  induction bs with
  | nil => exact fun _ => composed_pure
  | cons b bs ih =>
    intro shift sum
    unfold mulBits
    split
    · exact ih (shift + 1) sum
    · refine (composed_mapM (fun a => composed_conj a b) _).bind fun partials => ?_
      exact (composed_addBits _ _ _).bind (ih (shift + 1))

theorem composed_lessBits (xs ys : List Edge) (less : Edge) : Composed (lessBits xs ys less) := by
  induction xs generalizing ys less with
  | nil => exact composed_pure less
  | cons x xs ih =>
    cases ys with
    | nil => exact composed_pure less
    | cons y ys =>
      refine (composed_differ x y).bind fun differs => ?_
      exact (composed_choose differs y less).bind (ih ys)

theorem composed_equalBits (xs ys : List Edge) (acc : Edge) : Composed (equalBits xs ys acc) := by
  induction xs generalizing ys acc with
  | nil => exact composed_pure acc
  | cons x xs ih =>
    cases ys with
    | nil => exact composed_pure acc
    | cons y ys =>
      exact (composed_agree x y).bind fun same => (composed_conj acc same).bind (ih ys)

theorem composed_flipTop (xs : List Edge) : Composed (flipTop xs) := by
  induction xs with
  | nil => exact composed_pure []
  | cons x xs ih =>
    cases xs with
    | nil => exact (composed_complement x).map fun y => [y]
    | cons y xs => exact ih.map (x :: ·)

theorem composed_selections (index as : List Edge) : ∀ position : Nat,
    Composed (selections index position as) := by
  induction as with
  | nil => exact fun _ => composed_pure []
  | cons a as ih =>
    intro position
    unfold selections
    split
    · refine (composed_equalBits _ _ _).bind fun here => ?_
      exact (composed_conj here a).bind fun chosen => (ih (position + 1)).map (chosen :: ·)
    · exact composed_pure []

theorem composed_divideBits (divisor opposite digits : List Edge) :
    ∀ quotient remainder : List Edge,
      Composed (divideBits divisor opposite digits quotient remainder) := by
  induction digits with
  | nil => exact fun quotient remainder => composed_pure (quotient, remainder)
  | cons digit digits ih =>
    intro quotient remainder
    refine (composed_lessBits _ _ _).bind fun less => ?_
    refine (composed_addBits _ _ _).bind fun difference => ?_
    exact (composed_zipWithM (composed_choose less) _ _).bind (ih _)

theorem composed_shiftBits (move : Nat → List Edge → List Edge) (amounts : List Edge) :
    ∀ (k : Nat) (bits : List Edge) (overflow : Edge),
      Composed (shiftBits move k amounts bits overflow) := by
  induction amounts with
  | nil => exact fun k bits overflow => composed_pure (bits, overflow)
  | cons amount amounts ih =>
    intro k bits overflow
    unfold shiftBits
    split
    · exact (composed_zipWithM (composed_choose amount) _ _).bind fun bits => ih _ bits overflow
    · exact (composed_disj overflow amount).bind fun overflow => ih _ bits overflow

theorem composed_bitChoose (c : Edge) (a b : BitVector) : Composed (choose c a b) :=
  (composed_checkWidths a b).bind fun _ => (composed_zipWithM (composed_choose c) _ _).map _

theorem composed_bitwise {f : Edge → Edge → Build Edge} (hf : ∀ x y, Composed (f x y))
    (a b : BitVector) : Composed (bitwise f a b) :=
  (composed_checkWidths a b).bind fun _ => (composed_zipWithM hf _ _).map _

theorem composed_variable (first width : Nat) (signed : Bool) :
    Composed («variable» first width signed) := by
  unfold «variable»
  split
  · refine (composed_throw _).bind fun _ => ?_
    exact (composed_mapM composed_literal _).bind fun _ => composed_lift _
  · exact (composed_mapM composed_literal _).bind fun bits => composed_lift _

theorem composed_add (a b : BitVector) : Composed (a.add b) :=
  (composed_checkWidths a b).bind fun _ => (composed_addBits _ _ _).map _

theorem composed_sub (a b : BitVector) : Composed (a.sub b) :=
  (composed_checkWidths a b).bind fun _ => (composed_mapM composed_complement _).bind fun _ =>
    (composed_addBits _ _ _).map _

theorem composed_neg (a : BitVector) : Composed a.neg :=
  (composed_mapM composed_complement _).bind fun _ => (composed_addBits _ _ _).map _

theorem composed_mul (a b : BitVector) : Composed (a.mul b) :=
  (composed_checkWidths a b).bind fun _ => (composed_mulBits _ _ _ _).map _

theorem composed_negateWhere (negative : Edge) (a : BitVector) :
    Composed (negateWhere negative a) :=
  (composed_neg a).bind fun negated => composed_bitChoose negative negated a

theorem composed_udivmod (a b : BitVector) : Composed (udivmod a b) :=
  (composed_checkWidths a b).bind fun _ => (composed_mapM composed_complement _).bind fun _ =>
    (composed_divideBits _ _ _ _ _).map _

theorem composed_sdivmod (a b : BitVector) : Composed (sdivmod a b) :=
  (composed_checkWidths a b).bind fun _ => (composed_negateWhere _ a).bind fun dividend =>
    (composed_negateWhere _ b).bind fun divisor => (composed_udivmod dividend divisor).bind fun r =>
      (composed_differ _ _).bind fun opposite => (composed_negateWhere opposite r.1).bind fun _ =>
        (composed_negateWhere _ r.2).map _

theorem composed_shift (move : Nat → List Edge → List Edge) (a amount : BitVector) :
    Composed (shift move a amount) :=
  (composed_shiftBits move _ 0 _ _).bind fun r => (composed_complement r.2).bind fun inside =>
    (composed_mapM (composed_conj inside) r.1).map _

theorem composed_eq (a b : BitVector) : Composed (eq a b) :=
  (composed_checkWidths a b).bind fun _ => composed_equalBits _ _ _

theorem composed_ult (a b : BitVector) : Composed (ult a b) :=
  (composed_checkWidths a b).bind fun _ => composed_lessBits _ _ _

theorem composed_slt (a b : BitVector) : Composed (slt a b) :=
  (composed_checkWidths a b).bind fun _ => (composed_flipTop _).bind fun _ =>
    (composed_flipTop _).bind fun _ => composed_lessBits _ _ _

theorem composed_select (a index : BitVector) : Composed (select a index) :=
  (composed_selections _ _ 0).bind composed_disjAll

theorem composed_truth (a : BitVector) : Composed a.truth := by
  unfold BitVector.truth
  split
  · exact composed_pure _
  · exact composed_disjAll _

theorem composed_less (signed : Bool) (a b : BitVector) : Composed (less signed a b) := by
  cases signed with
  | false => exact composed_ult a b
  | true => exact composed_slt a b

theorem composed_lessEq (signed : Bool) (a b : BitVector) : Composed (lessEq signed a b) := by
  cases signed with
  | false => exact (composed_ult b a).map _
  | true => exact (composed_slt b a).map _

theorem composed_divmod (signed : Bool) (a b : BitVector) : Composed (divmod signed a b) := by
  cases signed with
  | false => exact composed_udivmod a b
  | true => exact composed_sdivmod a b

theorem composed_applyAligned (op : Operator) (a b : BitVector) (signed : Bool) :
    Composed (applyAligned op a b signed) := by
  cases op with
  | eq | ne => exact (composed_eq a b).map _
  | lt => exact (composed_less signed a b).map _
  | le => exact (composed_lessEq signed a b).map _
  | gt => exact (composed_less signed b a).map _
  | ge => exact (composed_lessEq signed b a).map _
  | add => exact composed_add a b
  | sub => exact composed_sub a b
  | mul => exact composed_mul a b
  | div | mod => exact (composed_divmod signed a b).map _
  | and => exact composed_bitwise composed_conj a b
  | or => exact composed_bitwise composed_disj a b
  | xor => exact composed_bitwise composed_differ a b
  | shiftLeft => exact composed_shift moveUp a b
  | shiftRight => exact composed_shift moveDown a b

/-- **Every operation consists of such parts.** -/
theorem composed_apply (op : Operator) (a b : BitVector) : Composed (apply op a b) := by
  unfold apply
  split
  · exact composed_shift moveUp a b
  · exact composed_shift moveDown a b
  · exact composed_applyAligned _ _ _ _

end Stimulus.BitVector

import Stimulus.Proofs.Expr.Comparison
import Stimulus.Proofs.Expr.Mentions
import Stimulus.Proofs.Expr.Shape

/-!
# Ranges by their ends

A range is known by its two ends, where a point is an interval from itself to itself
(`Range.ends`). What a value is compared with, which errors there are and which fields are mentioned
all depend on the set of the ends only, so lists of ranges with the same ends (`Ranges.Same`) cover
the same values (`Ranges.Same.covers_eq`).

Where the value and the ends have one signedness, a range covers the value exactly if the integer of
the value lies in it (`Range.covers_iff_contains`).
-/

set_option autoImplicit false

namespace Stimulus

open Quantity

/-- **The value of an expression is in the range of its type**, if those of its fields are. -/
theorem Expr.inRange_meaning {fields : Field → Quantity} : ∀ (e : Expr),
    (∀ f ∈ e.mentions, (fields f).InRange) → (e.meaning fields).InRange
  | .literal l, _ => ⟨l.width_pos, l.raw_lt_two_pow⟩
  | .field f, h => h f List.mem_cons_self
  | .binary op lhs rhs, h => by
    rw [mentions_binary] at h
    exact (lhs.inRange_meaning fun f hf => h f (List.mem_append_left _ hf)).inRange_apply op _
  | .bit _ _, _ => inRange_flag _
  | .slice _ _ _, _ => ⟨Nat.succ_pos _, Nat.mod_lt _ (Nat.two_pow_pos _)⟩
  | .inside _ _, _ => inRange_flag _

/-- Both ends of a range. -/
def Range.ends : Range → Expr × Expr
  | .point value => (value, value)
  | .interval low high => (low, high)

/-- The integer is that of the point, or lies in the interval, which is empty if its ends are in
the wrong order. -/
def Range.Contains (fields : Field → Quantity) (i : Int) : Range → Prop
  | .point value => i = (value.meaning fields).toInt
  | .interval low high => (low.meaning fields).toInt ≤ i ∧ i ≤ (high.meaning fields).toInt

/-- The ranges have the same ends, in any order, any number of times, and with points written as
points or as intervals. -/
def Ranges.Same (rs rs' : Ranges) : Prop :=
  ∀ p, p ∈ rs.toList.map Range.ends ↔ p ∈ rs'.toList.map Range.ends

variable {fields : Field → Quantity} {v p q : Quantity} {r : Range} {rs rs' whole : Ranges}
  {ws : Workspace} {f : Field}

/-! ## Values -/

/-- A quantity is equal to another one if it is neither less nor greater. -/
theorem Quantity.holds_eq (p q : Quantity) :
    (apply .eq p q).holds = ((apply .ge p q).holds && (apply .le p q).holds) := by
  show (flag (decide _)).holds = ((flag (decide _)).holds && (flag (decide _)).holds)
  rw [holds_flag, holds_flag, holds_flag, ← Bool.decide_and, decide_eq_decide]
  omega

/-- What a range covers depends on its ends. -/
theorem Range.covers_eq (fields : Field → Quantity) (v : Quantity) (r : Range) :
    r.covers fields v = ((apply .ge v (r.ends.1.meaning fields)).holds &&
      (apply .le v (r.ends.2.meaning fields)).holds) := by
  cases r with
  | point value => exact holds_eq v (value.meaning fields)
  | interval low high => rfl

theorem Ranges.covers_eq_any : ∀ rs : Ranges,
    rs.covers fields v = rs.toList.any (Range.covers fields v)
  | .single _ => (Bool.or_false _).symm
  | .cons r rest => congrArg (r.covers fields v || ·) rest.covers_eq_any

/-- **Ranges with the same ends cover the same values.** -/
theorem Ranges.Same.covers_eq (h : rs.Same rs') : rs.covers fields v = rs'.covers fields v := by
  have hany : ∀ rs : Ranges, rs.covers fields v = (rs.toList.map Range.ends).any fun p =>
      (apply .ge v (p.1.meaning fields)).holds && (apply .le v (p.2.meaning fields)).holds := by
    intro rs
    rw [Ranges.covers_eq_any, List.any_map]
    exact congrArg rs.toList.any (funext (Range.covers_eq fields v))
  rw [hany rs, hany rs', Bool.eq_iff_iff, List.any_eq_true, List.any_eq_true]
  exact exists_congr fun p => and_congr_left fun _ => h p

theorem Ranges.Same.symm (h : rs.Same rs') : rs'.Same rs := fun p => (h p).symm

theorem Ranges.covers_of_append (h : whole.toList = rs.toList ++ rs'.toList) :
    whole.covers fields v = (rs.covers fields v || rs'.covers fields v) := by
  rw [covers_eq_any, covers_eq_any, covers_eq_any, h, List.any_append]

theorem Range.contains_iff {i : Int} : r.Contains fields i ↔
    (r.ends.1.meaning fields).toInt ≤ i ∧ i ≤ (r.ends.2.meaning fields).toInt := by
  cases r with
  | point value =>
    show i = (value.meaning fields).toInt ↔
      (value.meaning fields).toInt ≤ i ∧ i ≤ (value.meaning fields).toInt
    omega
  | interval low high => exact Iff.rfl

/-- A comparison of quantities of one signedness is one of their integers. -/
theorem Quantity.InRange.holds_apply {op : Operator} (hp : p.InRange) (hq : q.InRange)
    (hop : op.isComparison = true) (hsigned : p.signed = q.signed) :
    (apply op p q).holds = op.relates p.toInt q.toInt := by
  rw [apply_comparison hop hp hq, holds_flag, against_of_signed_eq hsigned,
    against_of_signed_eq hsigned.symm]

/-- **With one signedness, a range covers the values whose integers lie in it.** -/
theorem Range.covers_iff_contains (hv : v.InRange) (hlow : (r.ends.1.meaning fields).InRange)
    (hhigh : (r.ends.2.meaning fields).InRange)
    (hlows : (r.ends.1.meaning fields).signed = v.signed)
    (hhighs : (r.ends.2.meaning fields).signed = v.signed) :
    r.covers fields v = true ↔ r.Contains fields v.toInt := by
  rw [covers_eq, hv.holds_apply hlow rfl hlows.symm, hv.holds_apply hhigh rfl hhighs.symm,
    Bool.and_eq_true, contains_iff]
  exact and_congr decide_eq_true_iff decide_eq_true_iff

/-! ## Errors -/

theorem exists_bind_eq_ok {ε α β : Type} {x : Except ε α} {k : α → Except ε β} :
    (∃ b, x >>= k = .ok b) ↔ ∃ a, x = .ok a ∧ ∃ b, k a = .ok b := by
  constructor
  · rintro ⟨b, h⟩
    obtain ⟨a, ha, hb⟩ := exists_of_bind_eq_ok h
    exact ⟨a, ha, b, hb⟩
  · rintro ⟨a, rfl, hb⟩
    exact hb

/-- A range has an error if one of its ends has. -/
theorem Range.check_ok_iff : (∃ u, r.check ws = .ok u) ↔
    (∃ shape, r.ends.1.shape ws = .ok shape) ∧ ∃ shape, r.ends.2.shape ws = .ok shape := by
  cases r with
  | point value =>
    show (∃ u, (value.shape ws >>= fun _ => pure ()) = .ok u) ↔ _
    rw [exists_bind_eq_ok]
    exact ⟨fun ⟨a, ha, _⟩ => ⟨⟨a, ha⟩, a, ha⟩, fun ⟨⟨a, ha⟩, _⟩ => ⟨a, ha, (), rfl⟩⟩
  | interval low high =>
    show (∃ u, (low.shape ws >>= fun _ => high.shape ws >>= fun _ => pure ()) = .ok u) ↔ _
    rw [exists_bind_eq_ok]
    constructor
    · rintro ⟨a, ha, h⟩
      obtain ⟨b, hb, -⟩ := exists_bind_eq_ok.1 h
      exact ⟨⟨a, ha⟩, b, hb⟩
    · rintro ⟨⟨a, ha⟩, b, hb⟩
      exact ⟨a, ha, exists_bind_eq_ok.2 ⟨b, hb, (), rfl⟩⟩

theorem Ranges.check_ok_iff : ∀ rs : Ranges,
    (∃ u, rs.check ws = .ok u) ↔ ∀ r ∈ rs.toList, ∃ u, r.check ws = .ok u
  | .single r => by
    rw [Ranges.toList, List.forall_mem_singleton]
    rfl
  | .cons r rest => by
    rw [Ranges.toList, List.forall_mem_cons, ← rest.check_ok_iff, ← exists_and_right]
    exact exists_bind_eq_ok

/-- A test has an error if the value or one of the ends has. -/
theorem Expr.inside_shape_ok_iff {value : Expr} :
    (∃ shape, (Expr.inside value rs).shape ws = .ok shape) ↔
      (∃ shape, value.shape ws = .ok shape) ∧ ∀ r ∈ rs.toList,
        (∃ shape, r.ends.1.shape ws = .ok shape) ∧ ∃ shape, r.ends.2.shape ws = .ok shape := by
  simp only [← Range.check_ok_iff, ← Ranges.check_ok_iff]
  constructor
  · rintro ⟨shape, h⟩
    obtain ⟨a, ha, h⟩ := exists_of_bind_eq_ok h
    obtain ⟨u, hu, -⟩ := exists_of_bind_eq_ok h
    exact ⟨⟨a, ha⟩, u, hu⟩
  · rintro ⟨⟨a, ha⟩, u, hu⟩
    exact exists_bind_eq_ok.2 ⟨a, ha, exists_bind_eq_ok.2 ⟨u, hu, _, rfl⟩⟩

/-! ## Fields -/

theorem Range.mem_mentions :
    f ∈ r.mentions ↔ f ∈ r.ends.1.mentions ∨ f ∈ r.ends.2.mentions := by
  cases r with
  | point value => exact (or_self_iff).symm
  | interval low high =>
    rw [Range.mentions_interval, List.mem_append]
    rfl

theorem Ranges.mem_mentions : ∀ rs : Ranges, f ∈ rs.mentions ↔ ∃ r ∈ rs.toList, f ∈ r.mentions
  | .single r => by
    simp only [Ranges.toList, List.mem_singleton, exists_eq_left]
    rfl
  | .cons r rest => by
    rw [Ranges.mentions_cons, List.mem_append, rest.mem_mentions]
    simp only [Ranges.toList, List.mem_cons, or_and_right, exists_or, exists_eq_left]

/-- A test mentions the fields of the value and of all ends. -/
theorem Expr.forall_mentions_inside {value : Expr} {P : Field → Prop} :
    (∀ f ∈ (Expr.inside value rs).mentions, P f) ↔ (∀ f ∈ value.mentions, P f) ∧
      ∀ r ∈ rs.toList, (∀ f ∈ r.ends.1.mentions, P f) ∧ ∀ f ∈ r.ends.2.mentions, P f := by
  simp only [Expr.mentions_inside, List.forall_mem_append, Ranges.mem_mentions, Range.mem_mentions]
  refine and_congr_right fun _ => ⟨fun h r hr => ?_, ?_⟩
  · exact ⟨fun f hf => h f ⟨r, hr, Or.inl hf⟩, fun f hf => h f ⟨r, hr, Or.inr hf⟩⟩
  · rintro h f ⟨r, hr, hf | hf⟩
    · exact (h r hr).1 f hf
    · exact (h r hr).2 f hf

end Stimulus

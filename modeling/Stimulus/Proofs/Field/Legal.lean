import Stimulus.Field.Workspace
import Stimulus.Proofs.Enumeration
import Stimulus.Proofs.Expr.Shape

/-!
# Fields hold legal values

A slot is legal (`Slot.Legal`) if its integer is a value of its own enumeration,
where it has one; its raw value is within its width by construction. A legal slot
shows a value of its type (`Slot.Legal.shows`). New slots are legal, and so are slots
after an assignment, which succeeds exactly for the values that the type takes
(`Slot.assign_iff`). A workspace with legal fields keeps them legal when one slot is
put in place of another and when a field is declared.
-/

set_option autoImplicit false

namespace Stimulus

open TwosComplement

/-! ## Integers of a type -/

/-- The integers of a width, with or without a sign. -/
def Representable (value : Int) (width : Nat) (signed : Bool) : Prop :=
  if signed then -(2 ^ (width - 1) : Int) ≤ value ∧ value < 2 ^ (width - 1)
  else 0 ≤ value ∧ value < 2 ^ width

theorem TwosComplement.exists_encode_iff {value : Int} {w : Nat} {signed : Bool} :
    (∃ raw, encode value w signed = some raw) ↔ Representable value w signed := by
  have hrange : least w signed ≤ value ∧ value ≤ greatest w signed ↔
      Representable value w signed := by
    unfold least greatest Representable
    cases signed with
    | false =>
      simp only [Bool.false_eq_true, if_false, Nat.one_shiftLeft]
      push_cast
      omega
    | true =>
      simp only [if_true, Nat.one_shiftLeft]
      push_cast
      omega
  unfold encode
  rw [← hrange]
  split <;> simp_all

namespace FieldType

/-- The values that a field of the type takes: what fits a scalar, a member counting by its number;
members of the very enumeration, and integers that are values of members. -/
def Takes : FieldType → Value → Prop
  | scalar width signed, v => Representable v.toInt width signed
  | enumeration d, .member m => m.enumeration = d
  | enumeration d, .int i => i ∈ d.values

/-- The number that a field of the type starts with: zero, or the value of the first entry. -/
def start : FieldType → Int
  | scalar _ _ => 0
  | enumeration d => d.first

/-- What a field of the type shows for a number: the number, or the member of its enumeration with
this value. -/
def Shows : FieldType → Int → Value → Prop
  | scalar _ _, i, v => v = .int i
  | enumeration d, i, v => ∃ m : Member, m.enumeration = d ∧ m.value = i ∧ v = .member m

end FieldType

/-! ## Slots -/

namespace Slot

variable {s s' : Slot} {v : Value} {i : Int}

/-- The integer of an enumerated slot is a value of its enumeration. -/
def Legal (s : Slot) : Prop := ∀ d, s.type = .enumeration d → s.toInt ∈ d.values

theorem legal_of_scalar {width : Nat} {signed : Bool} (h : s.type = .scalar width signed) :
    s.Legal := fun d hd => by
  rw [h] at hd
  cases hd

/-- **A legal slot shows a value of its type.** -/
theorem Legal.shows (h : s.Legal) : s.type.Shows s.toInt s.value := by
  unfold value FieldType.Shows
  cases htype : s.type with
  | scalar width signed => rfl
  | enumeration d =>
    obtain ⟨m, hm⟩ := Enumeration.mem_values.1 (h d htype)
    simp only [Enumeration.ofValue_eq_ok.2 hm]
    exact ⟨m, hm.1, hm.2, rfl⟩

/-- Giving an integer to a slot succeeds if it fits, and the slot then has it. -/
theorem setInt_iff : (∃ s', s.setInt i = .ok s') ↔ Representable i s.type.width s.type.signed := by
  rw [← exists_encode_iff]
  unfold setInt
  split
  · rename_i raw hraw
    exact ⟨fun _ => ⟨raw, hraw⟩, fun _ => ⟨_, rfl⟩⟩
  · rename_i hnone
    refine ⟨nofun, ?_⟩
    rintro ⟨raw, hraw⟩
    rw [hnone] at hraw
    cases hraw

theorem setInt_eq_ok (h : s.setInt i = .ok s') : s'.type = s.type ∧ s'.toInt = i := by
  unfold setInt at h
  split at h
  · rename_i raw hraw
    cases h
    exact ⟨rfl, decode_encode s.width_pos hraw⟩
  · cases h

/-- The values of an enumeration fit its slots. -/
theorem exists_setInt {d : Enumeration} {m : Member} (htype : s.type = .enumeration d)
    (hm : m.enumeration = d) : ∃ s', s.setInt m.value = .ok s' := by
  subst hm
  rw [setInt_iff, ← exists_encode_iff, htype]
  exact Enumeration.exists_encode m.entry_mem

/-- **An assignment succeeds exactly for the values that the type takes.** -/
theorem assign_iff : (∃ s', s.assign v = .ok s') ↔ s.type.Takes v := by
  unfold assign FieldType.Takes
  cases htype : s.type with
  | scalar width signed =>
    show (∃ s', s.setInt v.toInt = .ok s') ↔ _
    rw [setInt_iff, htype]
    rfl
  | enumeration d =>
    cases v with
    | int i =>
      dsimp only
      rw [Enumeration.mem_values]
      constructor
      · rintro ⟨s', h⟩
        obtain ⟨m, hm, -⟩ := exists_of_bind_eq_ok h
        exact ⟨m, Enumeration.ofValue_eq_ok.1 hm⟩
      · rintro ⟨m, hm⟩
        obtain ⟨s', hs'⟩ := exists_setInt htype hm.1
        refine ⟨s', ?_⟩
        rw [Enumeration.ofValue_eq_ok.2 hm]
        exact hs'
    | member m =>
      dsimp only
      split
      · rename_i hm
        exact ⟨fun _ => hm, fun _ => exists_setInt htype hm⟩
      · rename_i hm
        exact ⟨nofun, fun h => absurd h hm⟩

/-- **After an assignment the slot has the number of the value.** -/
theorem assign_eq_ok (h : s.assign v = .ok s') : s'.type = s.type ∧ s'.toInt = v.toInt := by
  unfold assign at h
  split at h
  · exact setInt_eq_ok h
  · obtain ⟨m, hm, h⟩ := exists_of_bind_eq_ok h
    obtain ⟨htype, hvalue⟩ := setInt_eq_ok h
    exact ⟨htype, hvalue.trans (Enumeration.ofValue_eq_ok.1 hm).2⟩
  · split at h
    · exact setInt_eq_ok h
    · cases h

theorem legal_assign (h : s.assign v = .ok s') : s'.Legal := by
  obtain ⟨htype, hvalue⟩ := assign_eq_ok h
  have htakes := assign_iff.1 ⟨s', h⟩
  intro d hd
  rw [htype] at hd
  rw [hvalue]
  unfold FieldType.Takes at htakes
  cases v with
  | int i =>
    simp only [hd] at htakes
    exact htakes
  | member m =>
    simp only [hd] at htakes
    exact Enumeration.mem_values.2 ⟨m, htakes, rfl⟩

/-- New slots have the number zero, or that of the first entry of their enumeration. -/
theorem declare_eq_ok {type : FieldType} {isRandom : Bool} (h : declare type isRandom = .ok s) :
    s.type = type ∧ s.toInt = type.start := by
  unfold declare at h
  split at h
  · cases h
    refine ⟨rfl, ?_⟩
    cases type with
    | scalar width signed =>
      show decode 0 width signed = 0
      have hpow : 0 < 1 <<< (width - 1) := shift_pos _
      simp [decode, Nat.not_le.2 hpow]
    | enumeration d =>
      obtain ⟨raw, hraw⟩ := Enumeration.exists_encode (List.head_mem d.entries_ne_nil)
      show decode ((encode d.first d.width d.signed).getD 0) d.width d.signed = d.first
      unfold Enumeration.first
      rw [hraw]
      exact decode_encode d.width_pos hraw
  · cases h

/-- A type can be declared if its width is one of a field. -/
theorem declare_iff {type : FieldType} {isRandom : Bool} :
    (∃ s, declare type isRandom = .ok s) ↔ 1 ≤ type.width ∧ type.width ≤ maxWidth := by
  unfold declare
  split
  · rename_i h
    exact ⟨fun _ => h, fun _ => ⟨_, rfl⟩⟩
  · rename_i h
    exact ⟨nofun, fun h' => absurd h' h⟩

theorem legal_declare {type : FieldType} {isRandom : Bool} (h : declare type isRandom = .ok s) :
    s.Legal := by
  obtain ⟨htype, hvalue⟩ := declare_eq_ok h
  intro d hd
  obtain rfl : type = .enumeration d := htype.symm.trans hd
  rw [hvalue]
  exact List.mem_map.2 ⟨_, List.head_mem d.entries_ne_nil, rfl⟩

/-! ### Raw values -/

theorem setRaw_self (s : Slot) : s.setRaw s.raw = s := by
  cases s with
  | mk type isRandom raw binding width_pos width_le raw_lt =>
    simp only [Slot.setRaw, Nat.mod_eq_of_lt raw_lt]

theorem setRaw_raw {s : Slot} {raw : Nat} (h : raw < 2 ^ s.width) :
    (s.setRaw raw).raw = raw := by
  rw [← Nat.one_shiftLeft] at h
  exact Nat.mod_eq_of_lt h

theorem setRaw_type (s : Slot) (raw : Nat) : (s.setRaw raw).type = s.type := rfl

theorem setRaw_setRaw (s : Slot) (raw raw' : Nat) :
    (s.setRaw raw).setRaw raw' = s.setRaw raw' := rfl

/-- Legality depends on the type and the number. -/
theorem Legal.congr (h : s.Legal) (htype : s'.type = s.type) (hvalue : s'.toInt = s.toInt) :
    s'.Legal := by
  intro d hd
  rw [hvalue]
  exact h d (htype.symm.trans hd)

end Slot

/-! ## Workspaces -/

namespace Workspace

variable {ws ws' : Workspace} {f g : Field} {s : Slot}

/-- All fields are legal. -/
def Legal (ws : Workspace) : Prop := ∀ f, (ws.slot f).Legal

theorem legal_empty : Legal .empty := fun f => by
  have hblank : (empty.slot f).type = .scalar 1 false := rfl
  exact Slot.legal_of_scalar hblank

/-- Putting a slot behind a declared field changes this field only. -/
theorem slot_setSlot {ws : Workspace} {f : Field} (hf : f.id < ws.slots.size) (s : Slot)
    (g : Field) : (ws.setSlot f s).slot g = if g = f then s else ws.slot g := by
  unfold setSlot slot
  by_cases hg : g = f
  · subst hg
    rw [if_pos rfl, Array.getD, dif_pos (by rwa [Array.size_setIfInBounds])]
    exact Array.getElem_setIfInBounds_self _
  · rw [if_neg hg]
    have hid : f.id ≠ g.id := fun h => hg (by cases f; cases g; cases h; rfl)
    rw [Array.getD_eq_getD_getElem?, Array.getElem?_setIfInBounds_ne hid,
      Array.getD_eq_getD_getElem?]

/-- Giving a raw value to a declared field changes this field only. -/
theorem slot_setRaw {ws : Workspace} {f : Field} (hf : f.id < ws.slots.size) (raw : Nat)
    (g : Field) :
    (ws.setRaw f raw).slot g = if g = f then (ws.slot f).setRaw raw else ws.slot g :=
  slot_setSlot hf _ g

/-- Random fields are declared. -/
theorem lt_size_of_isRandom {ws : Workspace} {f : Field}
    (h : (ws.slot f).isRandom = true) : f.id < ws.slots.size := by
  by_contra hlt
  unfold slot at h
  rw [Array.getD, dif_neg hlt] at h
  cases h

/-- A handle that was not declared leads nowhere. -/
theorem setSlot_of_size_le (hf : ws.slots.size ≤ f.id) (s : Slot) : ws.setSlot f s = ws := by
  unfold setSlot
  rw [Array.setIfInBounds_eq_of_size_le hf]

theorem Legal.setSlot (h : ws.Legal) (hs : s.Legal) : (ws.setSlot f s).Legal := by
  by_cases hf : f.id < ws.slots.size
  · intro g
    rw [slot_setSlot hf]
    split
    · exact hs
    · exact h g
  · rwa [setSlot_of_size_le (Nat.le_of_not_lt hf)]

/-- A new field comes after those that are there. -/
theorem declareField_eq_ok {type : FieldType} {isRandom : Bool}
    (h : ws.declareField type isRandom = .ok (f, ws')) :
    ∃ s, Slot.declare type isRandom = .ok s ∧ f.id = ws.slots.size ∧
      ws'.slots.size = ws.slots.size + 1 ∧ ∀ g, ws'.slot g = if g = f then s else ws.slot g := by
  obtain ⟨s, hs, h⟩ := exists_of_bind_eq_ok h
  cases h
  refine ⟨s, hs, rfl, Array.size_push s, fun g => ?_⟩
  have hid : g = ⟨ws.slots.size⟩ ↔ g.id = ws.slots.size := by
    cases g
    rw [Field.mk.injEq]
  simp only [slot, Array.getD_eq_getD_getElem?, Array.getElem?_push, hid]
  split <;> rfl

/-- All types can be declared but those of integers without bits or with too many. -/
theorem declareField_iff {type : FieldType} {isRandom : Bool} :
    (∃ p, ws.declareField type isRandom = .ok p) ↔
      ∀ width signed, type = .scalar width signed → 1 ≤ width ∧ width ≤ maxWidth := by
  have hdeclare : (∃ p, ws.declareField type isRandom = .ok p) ↔
      1 ≤ type.width ∧ type.width ≤ maxWidth := by
    rw [← @Slot.declare_iff type isRandom]
    constructor
    · rintro ⟨p, h⟩
      obtain ⟨s, hs, -⟩ := exists_of_bind_eq_ok h
      exact ⟨s, hs⟩
    · rintro ⟨s, hs⟩
      refine ⟨(⟨ws.slots.size⟩, { ws with slots := ws.slots.push s }), ?_⟩
      unfold declareField
      rw [hs]
      rfl
  rw [hdeclare]
  cases type with
  | scalar width signed =>
    refine ⟨fun h width' signed' heq => ?_, fun h => h width signed rfl⟩
    cases heq
    exact h
  | enumeration d =>
    -- the least width of the values is one of a field
    exact ⟨fun _ _ _ heq => (nomatch heq), fun _ => ⟨d.width_pos, d.width_le⟩⟩

end Workspace

end Stimulus

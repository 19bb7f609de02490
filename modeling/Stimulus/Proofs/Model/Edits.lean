import Stimulus.Model
import Stimulus.Proofs.Field.Legal

/-!
# Edits of a model

Binding a field checks first that its name is free and then that the field has no name yet. Both
checks come before the first change, so a binding that is refused (`Edit.bindRefusal`) leaves the
model and the slots as they were (`Edit.perform_bind_of_some`). A new field that is bound at once is
refused for its width or for its name (`Edit.declareRefusal`). All that it then leaves behind is a
slot without a name (`Edit.perform_declareField_of_some`).
-/

set_option autoImplicit false

namespace Stimulus

/-! ## Changes -/

/-- The slot with a name and a position. -/
def Slot.withBinding (s : Slot) (b : Binding) : Slot := { s with binding := some b }

/-- The workspace with one more slot. -/
def Workspace.withSlot (ws : Workspace) (s : Slot) : Workspace :=
  { ws with slots := ws.slots.push s }

/-- The workspace with a name and a position for a field. -/
def Workspace.withBinding (ws : Workspace) (f : Field) (b : Binding) : Workspace :=
  ws.setSlot f ((ws.slot f).withBinding b)

/-- The model with one more field at the end of its list. -/
def Model.withField (m : Model) (f : Field) : Model := { m with fields := m.fields ++ [f] }

/-- The model with other blocks. -/
def Model.withBlocks (m : Model) (blocks : List Block) : Model := { m with blocks := blocks }

namespace Workspace

variable {ws : Workspace} {f g : Field} {s : Slot} {b : Binding}

@[simp] theorem size_withSlot : (ws.withSlot s).slots.size = ws.slots.size + 1 :=
  Array.size_push s

theorem slot_of_size_le (ws : Workspace) {f : Field} (h : ws.slots.size ≤ f.id) :
    ws.slot f = .blank := by
  simp [slot, Array.getD_eq_getD_getElem?, Array.getElem?_eq_none h]

/-- Only declared fields have names. -/
theorem lt_size_of_binding (h : (ws.slot f).binding = some b) : f.id < ws.slots.size := by
  by_contra hlt
  rw [slot_of_size_le ws (Nat.le_of_not_lt hlt)] at h
  cases h

/-- A new slot is not yet behind any handle. -/
theorem slot_withSlot (hf : f.id < ws.slots.size) : (ws.withSlot s).slot f = ws.slot f := by
  simp [withSlot, slot, Array.getD_eq_getD_getElem?, Array.getElem?_push_lt hf, hf]

/-- A new slot without a name changes no name. -/
theorem binding_withSlot (hs : s.binding = none) (f : Field) :
    ((ws.withSlot s).slot f).binding = (ws.slot f).binding := by
  rcases Nat.lt_trichotomy f.id ws.slots.size with hlt | heq | hgt
  · rw [slot_withSlot hlt]
  · rw [slot_of_size_le ws (Nat.le_of_eq heq.symm)]
    simp [withSlot, slot, Array.getD_eq_getD_getElem?, heq, hs, Slot.blank]
  · have hsize : (ws.withSlot s).slots.size ≤ f.id := by
      rw [size_withSlot]
      exact hgt
    rw [slot_of_size_le ws (Nat.le_of_lt hgt), slot_of_size_le _ hsize]

theorem slot_withBinding_self (hf : f.id < ws.slots.size) :
    (ws.withBinding f b).slot f = (ws.slot f).withBinding b := by
  rw [withBinding, slot_setSlot hf, if_pos rfl]

theorem slot_withBinding_of_ne (hg : g ≠ f) : (ws.withBinding f b).slot g = ws.slot g := by
  by_cases hf : f.id < ws.slots.size
  · rw [withBinding, slot_setSlot hf, if_neg hg]
  · rw [withBinding, setSlot_of_size_le (Nat.le_of_not_lt hf)]

end Workspace

/-! ## Single steps -/

theorem Slot.bind_of_none {s : Slot} (h : s.binding = none) (position : Nat) (name : String) :
    s.bind position name = .ok (s.withBinding ⟨position, name⟩) := by
  simp [Slot.bind, h, Slot.withBinding]

/-- A new slot has no name. -/
theorem Slot.binding_of_declare {type : FieldType} {isRandom : Bool} {s : Slot}
    (h : Slot.declare type isRandom = .ok s) : s.binding = none := by
  rw [Slot.declare] at h
  split at h
  · cases h
    rfl
  · cases h

theorem Workspace.declareField_of_width (ws : Workspace) {type : FieldType} (isRandom : Bool)
    (h : 1 ≤ type.width ∧ type.width ≤ maxWidth) :
    ∃ s, Slot.declare type isRandom = .ok s ∧
      ws.declareField type isRandom = .ok (⟨ws.slots.size⟩, ws.withSlot s) := by
  obtain ⟨s, hs⟩ := Slot.declare_iff.2 h
  refine ⟨s, hs, ?_⟩
  rw [Workspace.declareField, hs]
  rfl

theorem Workspace.declareField_of_not_width (ws : Workspace) {type : FieldType} (isRandom : Bool)
    (h : ¬(1 ≤ type.width ∧ type.width ≤ maxWidth)) :
    ws.declareField type isRandom = .error (.widthMismatch (.field type.width)) := by
  rw [Workspace.declareField, Slot.declare, dif_neg h]
  rfl

/-- The name of a field is that of its slot. -/
theorem Model.fieldByName?_congr {m : Model} {ws ws' : Workspace}
    (h : ∀ f, (ws'.slot f).binding = (ws.slot f).binding) (name : String) :
    m.fieldByName? ws' name = m.fieldByName? ws name := by
  simp only [Model.fieldByName?, h]

namespace Edit

variable {m : Model} {ws : Workspace} {name : String} {f : Field} {type : FieldType} {e : Error}

/-! ## Binding -/

/-- The error with which a binding is refused: the name is taken, or the field has a name. -/
def bindRefusal (m : Model) (ws : Workspace) (name : String) (f : Field) : Option Error :=
  if (m.fieldByName? ws name).isSome then some (.duplicateField name)
  else (ws.slot f).binding.map fun b => .alreadyBound b.name

/-- **A binding that is refused changes nothing.** -/
theorem perform_bind_of_some (h : bindRefusal m ws name f = some e) :
    (bind name f).perform (m, ws) = (.error e, (m, ws)) := by
  unfold bindRefusal at h
  split at h
  · rename_i htaken
    cases h
    simp [bind, htaken]
  · rename_i hfree
    obtain ⟨b, hb, rfl⟩ := Option.map_eq_some_iff.1 h
    simp [bind, bindSlot, Slot.bind, hfree, hb]

theorem bindRefusal_eq_none :
    bindRefusal m ws name f = none ↔
      m.fieldByName? ws name = none ∧ (ws.slot f).binding = none := by
  unfold bindRefusal
  split
  · rename_i htaken
    simp [Option.isSome_iff_ne_none.1 htaken]
  · rename_i hfree
    simp [Option.not_isSome_iff_eq_none.1 hfree]

/-- A binding that is not refused gives the next position. -/
theorem perform_bind_of_none (h : bindRefusal m ws name f = none) :
    (bind name f).perform (m, ws) =
      (.ok m.nextPosition, (m.withField f, ws.withBinding f ⟨m.nextPosition, name⟩)) := by
  obtain ⟨hfree, hunbound⟩ := bindRefusal_eq_none.1 h
  simp [bind, bindSlot, pushField, Slot.bind_of_none hunbound, hfree, Model.withField,
    Workspace.withBinding]

/-! ## New fields -/

/-- The error with which a new field is refused: it has no bits or too many, or its name is
taken. -/
def declareRefusal (m : Model) (ws : Workspace) (name : String) (type : FieldType) :
    Option Error :=
  if 1 ≤ type.width ∧ type.width ≤ maxWidth then
    if (m.fieldByName? ws name).isSome then some (.duplicateField name) else none
  else some (.widthMismatch (.field type.width))

/-- The name of a new field that is wide enough is all that it is refused for. -/
theorem bindRefusal_withSlot {s : Slot} (hs : s.binding = none)
    (hwidth : 1 ≤ type.width ∧ type.width ≤ maxWidth) :
    bindRefusal m (ws.withSlot s) name ⟨ws.slots.size⟩ = declareRefusal m ws name type := by
  have hblank : (ws.slot ⟨ws.slots.size⟩).binding = none := by
    rw [Workspace.slot_of_size_le ws (f := ⟨ws.slots.size⟩) (Nat.le_refl _)]
    rfl
  simp only [bindRefusal, declareRefusal, if_pos hwidth, Workspace.binding_withSlot hs, hblank,
    Model.fieldByName?_congr (Workspace.binding_withSlot hs), Option.map_none]

/-- **A new field that is refused leaves at most a slot without a name behind.** -/
theorem perform_declareField_of_some (isRandom : Bool)
    (h : declareRefusal m ws name type = some e) :
    ∃ ws', (declareField name type isRandom).perform (m, ws) = (.error e, (m, ws')) ∧
      (ws' = ws ∨ ∃ s : Slot, s.binding = none ∧ ws' = ws.withSlot s) := by
  by_cases hwidth : 1 ≤ type.width ∧ type.width ≤ maxWidth
  · obtain ⟨s, hnew, hdeclare⟩ := ws.declareField_of_width isRandom hwidth
    have hs := Slot.binding_of_declare hnew
    rw [← bindRefusal_withSlot hs hwidth] at h
    exact ⟨ws.withSlot s, by simp [declareField, hdeclare, perform_bind_of_some h],
      Or.inr ⟨s, hs, rfl⟩⟩
  · rw [declareRefusal, if_neg hwidth] at h
    cases h
    exact ⟨ws, by simp [declareField, ws.declareField_of_not_width isRandom hwidth],
      Or.inl rfl⟩

/-- A new field that is not refused has a slot of its own, which has its name. -/
theorem perform_declareField_of_none (isRandom : Bool)
    (h : declareRefusal m ws name type = none) :
    ∃ s : Slot, Slot.declare type isRandom = .ok s ∧
      bindRefusal m (ws.withSlot s) name ⟨ws.slots.size⟩ = none ∧
      (declareField name type isRandom).perform (m, ws) =
        (.ok ⟨ws.slots.size⟩, (m.withField ⟨ws.slots.size⟩,
          (ws.withSlot s).withBinding ⟨ws.slots.size⟩ ⟨m.nextPosition, name⟩)) := by
  by_cases hwidth : 1 ≤ type.width ∧ type.width ≤ maxWidth
  · obtain ⟨s, hs, hdeclare⟩ := ws.declareField_of_width isRandom hwidth
    rw [← bindRefusal_withSlot (Slot.binding_of_declare hs) hwidth] at h
    exact ⟨s, hs, h, by simp [declareField, hdeclare, perform_bind_of_none h]⟩
  · rw [declareRefusal, if_neg hwidth] at h
    cases h

end Edit

/-- A completed binding changes the list of the model and the slot of the field. -/
theorem Model.bind_eq_ok {m m' : Model} {ws ws' : Workspace} {name : String} {f : Field}
    (h : m.bind ws name f = .ok (m', ws')) :
    m' = m.withField f ∧ ws' = ws.withBinding f ⟨m.nextPosition, name⟩ := by
  cases hrefusal : Edit.bindRefusal m ws name f with
  | some e =>
    simp only [Model.bind, InPlace.completed, Edit.perform_bind_of_some hrefusal] at h
    cases h
  | none =>
    simp only [Model.bind, InPlace.completed, Edit.perform_bind_of_none hrefusal] at h
    cases h
    exact ⟨rfl, rfl⟩

end Stimulus

import Mathlib.Logic.Relation
import Stimulus.Proofs.Model.Edits

/-!
# Requests to models that share fields

A catalog holds any number of models and the slots behind the fields, which all models share. A
request changes it in place, and what it has changed stays even if it is refused (`Catalog.edit`).
What requests can do comes down to four changes (`Catalog.Change`): another model, another slot
without a name, a binding that was checked, and other blocks with distinct names. A request is
refused for exactly the reasons in `Request.refusal`, and is then followed by no change that a model
or a field shows (`Request.outcome`).
-/

set_option autoImplicit false

namespace Stimulus

/-- Models and the slots behind their fields. -/
structure Catalog where
  models : List Model
  workspace : Workspace

namespace Catalog

/-- The catalog without models and fields. -/
def empty : Catalog := ⟨[], .empty⟩

/-- The model with a number. A number that no model has reads as a model without a name. -/
def model (c : Catalog) (k : Nat) : Model := c.models.getD k (.new "")

/-- The catalog with another model under a number. -/
def setModel (c : Catalog) (k : Nat) (m : Model) : Catalog := { c with models := c.models.set k m }

/-- The catalog with one more slot. -/
def withSlot (c : Catalog) (s : Slot) : Catalog := { c with workspace := c.workspace.withSlot s }

/-- The catalog with one more field in a model, which has a name and the next position. -/
def bound (c : Catalog) (k : Nat) (m : Model) (name : String) (f : Field) : Catalog :=
  ⟨c.models.set k (m.withField f), c.workspace.withBinding f ⟨m.nextPosition, name⟩⟩

/-- An edit of one model. What it changes is kept, be it completed or not. -/
def edit {α : Type} (k : Nat) (x : Edit α) : InPlace Catalog α := do
  let c ← get
  let (r, m, ws) := x.perform (c.model k, c.workspace)
  set ({ models := c.models.set k m, workspace := ws } : Catalog)
  InPlace.ofExcept r

variable {c c' : Catalog} {k : Nat} {m : Model} {f : Field}

@[simp] theorem perform_edit {α : Type} (x : Edit α) :
    (edit k x).perform c =
      ((x.perform (c.model k, c.workspace)).1,
        ⟨c.models.set k (x.perform (c.model k, c.workspace)).2.1,
          (x.perform (c.model k, c.workspace)).2.2⟩) := by
  simp [edit]

theorem getElem?_model (hk : k < c.models.length) : c.models[k]? = some (c.model k) := by
  simp [model, hk]

theorem model_of_getElem? (h : c.models[k]? = some m) : c.model k = m := by
  simp [model, h]

/-- A model in its own place changes nothing. -/
theorem set_model (c : Catalog) (k : Nat) : c.models.set k (c.model k) = c.models := by
  apply List.ext_getElem?
  intro j
  rw [List.getElem?_set]
  split
  · rename_i heq
    subst heq
    split
    · rename_i hk
      exact (getElem?_model hk).symm
    · rename_i hk
      exact (List.getElem?_eq_none (Nat.le_of_not_lt hk)).symm
  · rfl

/-! ## Changes -/

/-- What happens to a catalog, one thing at a time. -/
inductive Change (c : Catalog) : Catalog → Prop
  | addModel (name : String) : Change c ⟨c.models ++ [.new name], c.workspace⟩
  | addSlot (s : Slot) (hs : s.binding = none) : Change c (c.withSlot s)
  | bind (k : Nat) (m : Model) (name : String) (f : Field) (hm : c.models[k]? = some m)
    (hf : f.id < c.workspace.slots.size)
    (hrefusal : Edit.bindRefusal m c.workspace name f = none) :
    Change c (c.bound k m name f)
  | setBlocks (k : Nat) (m : Model) (blocks : List Block) (hm : c.models[k]? = some m)
    (hnames : (m.blocks.map Block.name).Nodup → (blocks.map Block.name).Nodup) :
    Change c (c.setModel k (m.withBlocks blocks))

/-- The models are the same, and so are the slots of all fields that there were. -/
structure Untouched (c c' : Catalog) : Prop where
  models_eq : c'.models = c.models
  slot_eq : ∀ f, f.id < c.workspace.slots.size → c'.workspace.slot f = c.workspace.slot f

theorem Untouched.refl (c : Catalog) : Untouched c c := ⟨rfl, fun _ _ => rfl⟩

theorem untouched_withSlot (c : Catalog) (s : Slot) : Untouched c (c.withSlot s) :=
  ⟨rfl, fun _ => Workspace.slot_withSlot⟩

/-- No change takes a name or a position back. -/
theorem Change.binding_eq_some {b : Binding} (h : Change c c')
    (hb : (c.workspace.slot f).binding = some b) : (c'.workspace.slot f).binding = some b := by
  cases h with
  | addModel name => exact hb
  | addSlot s hs => rw [withSlot, Workspace.binding_withSlot hs, hb]
  | bind k m name g hm hg hrefusal =>
    obtain ⟨-, hunbound⟩ := Edit.bindRefusal_eq_none.1 hrefusal
    have hne : f ≠ g := by
      rintro rfl
      rw [hb] at hunbound
      cases hunbound
    rw [bound, Workspace.slot_withBinding_of_ne hne, hb]
  | setBlocks k m blocks hm hnames => exact hb

end Catalog

/-! ## Blocks -/

namespace Model

variable {m : Model} {name : String} {block b : Block} {blocks : List Block}

/-- A block of a new name comes last. -/
theorem putBlock_of_not_mem (h : block.name ∉ blocks.map Block.name) :
    putBlock block blocks = blocks ++ [block] := by
  induction blocks with
  | nil => rfl
  | cons b rest ih =>
    rw [List.map_cons, List.mem_cons, not_or] at h
    rw [putBlock, if_neg (Ne.symm h.1), ih h.2]
    rfl

/-- A block of a known name takes the place of the one that has it. -/
theorem putBlock_of_mem (hnodup : (blocks.map Block.name).Nodup)
    (h : block.name ∈ blocks.map Block.name) :
    putBlock block blocks = blocks.map fun b => if b.name = block.name then block else b := by
  induction blocks with
  | nil => exact absurd h List.not_mem_nil
  | cons b rest ih =>
    rw [List.map_cons, List.nodup_cons] at hnodup
    by_cases hb : b.name = block.name
    · -- no other block has the name
      have hrest : (rest.map fun b => if b.name = block.name then block else b) = rest := by
        refine (List.map_congr_left fun b' hb' => if_neg fun heq => ?_).trans (List.map_id rest)
        exact hnodup.1 (hb.trans heq.symm ▸ List.mem_map_of_mem hb')
      rw [putBlock, if_pos hb, List.map_cons, if_pos hb, hrest]
    · have hmem : block.name ∈ rest.map Block.name :=
        (List.mem_cons.1 h).resolve_left (Ne.symm hb)
      rw [putBlock, if_neg hb, List.map_cons, if_neg hb, ih hnodup.2 hmem]

theorem putBlock_eq (hnodup : (blocks.map Block.name).Nodup) (block : Block) :
    putBlock block blocks =
      if block.name ∈ blocks.map Block.name then
        blocks.map fun b => if b.name = block.name then block else b
      else blocks ++ [block] := by
  split
  · rename_i hmem
    exact putBlock_of_mem hnodup hmem
  · rename_i hmem
    exact putBlock_of_not_mem hmem

/-- Blocks keep distinct names. -/
theorem nodup_putBlock (h : (blocks.map Block.name).Nodup) :
    ((putBlock block blocks).map Block.name).Nodup := by
  by_cases hmem : block.name ∈ blocks.map Block.name
  · have hnames : (blocks.map fun b => if b.name = block.name then block else b).map Block.name =
        blocks.map Block.name := by
      rw [List.map_map]
      apply List.map_congr_left
      intro b hb
      rw [Function.comp_apply]
      split
      · rename_i heq
        exact heq.symm
      · rfl
    rwa [putBlock_of_mem h hmem, hnames]
  · rw [putBlock_of_not_mem hmem, List.map_append]
    refine List.nodup_append.2 ⟨h, List.pairwise_singleton _ _, ?_⟩
    rintro a ha b hb rfl
    obtain rfl := List.mem_singleton.1 hb
    exact hmem ha

/-- The block of a name that there is. -/
theorem exists_block (h : name ∈ m.blocks.map Block.name) :
    ∃ b ∈ m.blocks, b.name = name ∧ m.block name = .ok b := by
  cases hfind : m.blocks.find? fun b => b.name == name with
  | none =>
    obtain ⟨b, hb, rfl⟩ := List.mem_map.1 h
    exact absurd (List.find?_eq_none.1 hfind b hb) (by simp)
  | some b =>
    exact ⟨b, List.mem_of_find?_eq_some hfind, by simpa using List.find?_some hfind,
      by simp [block, hfind]⟩

theorem block_of_not_mem (h : name ∉ m.blocks.map Block.name) :
    m.block name = .error (.unknownConstraint name) := by
  have hfind : (m.blocks.find? fun b => b.name == name) = none := by
    apply List.find?_eq_none.2
    intro b hb heq
    exact h (List.mem_map.2 ⟨b, hb, by simpa using heq⟩)
  simp [block, hfind]

end Model

/-! ## Requests -/

/-- A call with its arguments. Models go by their numbers. -/
inductive Request where
  | newModel (name : String)
  | newField (type : FieldType) (isRandom : Bool)
  /-- A new field is bound at once. -/
  | field (k : Nat) (name : String) (type : FieldType) (isRandom : Bool)
  | bind (k : Nat) (name : String) (f : Field)
  | constrain (k : Nat) (name : String) (scope : Scope)
  | setEnabled (k : Nat) (name : String) (enabled : Bool)

namespace Request

open Catalog

variable {c c' : Catalog} {r : Request} {k : Nat} {name : String} {f : Field}

/-- The request itself. -/
def run : Request → InPlace Catalog Unit
  | newModel name => modify fun c => { c with models := c.models ++ [.new name] }
  | newField type isRandom => do
    let c ← get
    let (_, ws) ← InPlace.ofExcept (c.workspace.declareField type isRandom)
    set { c with workspace := ws }
  | field k name type isRandom => do
    let _ ← edit k (Edit.declareField name type isRandom)
  | bind k name f => do
    let _ ← edit k (Edit.bind name f)
  | constrain k name scope => modify fun c => c.setModel k ((c.model k).constrain name scope)
  | setEnabled k name enabled => do
    let c ← get
    set (c.setModel k (← InPlace.ofExcept ((c.model k).setEnabled name enabled)))

/-- Requests to models and with fields that there are. -/
def Legal (c : Catalog) : Request → Prop
  | newModel _ | newField .. => True
  | field k .. | constrain k .. | setEnabled k .. => k < c.models.length
  | bind k _ f => k < c.models.length ∧ f.id < c.workspace.slots.size

/-- The error with which a request is refused. -/
def refusal (c : Catalog) : Request → Option Error
  | newModel _ | constrain .. => none
  | newField type _ =>
    if 1 ≤ type.width ∧ type.width ≤ maxWidth then none
    else some (.widthMismatch (.field type.width))
  | field k name type _ => Edit.declareRefusal (c.model k) c.workspace name type
  | bind k name f => Edit.bindRefusal (c.model k) c.workspace name f
  | setEnabled k name _ =>
    if name ∈ (c.model k).blocks.map Block.name then none else some (.unknownConstraint name)

/-- A request that needs a block finds it or is refused. -/
theorem perform_setEnabled (k : Nat) (name : String) (enabled : Bool) :
    (setEnabled k name enabled).run.perform c =
      match (c.model k).block name with
      | .ok b => (.ok (), c.setModel k ((c.model k).withBlocks
          (Model.putBlock { b with enabled := enabled } (c.model k).blocks)))
      | .error e => (.error e, c) := by
  cases hblock : (c.model k).block name with
  | error e => simp [run, Model.setEnabled, hblock]
  | ok b => simp [run, Model.setEnabled, hblock, Model.withBlocks]

/-- A binding that is not refused puts the field at the end of the list of its model. -/
theorem perform_bind (hrefusal : (bind k name f).refusal c = none) :
    (bind k name f).run.perform c = (.ok (), c.bound k (c.model k) name f) := by
  have hedit := Edit.perform_bind_of_none hrefusal
  simp [run, hedit, bound]

/-- So does the declaration of a new field. -/
theorem perform_field {type : FieldType} {isRandom : Bool}
    (hrefusal : (field k name type isRandom).refusal c = none) :
    ∃ s, Slot.declare type isRandom = .ok s ∧
      Edit.bindRefusal (c.model k) (c.withSlot s).workspace name ⟨c.workspace.slots.size⟩ = none ∧
      (field k name type isRandom).run.perform c =
        (.ok (), (c.withSlot s).bound k (c.model k) name ⟨c.workspace.slots.size⟩) := by
  obtain ⟨s, hs, hbind, hedit⟩ := Edit.perform_declareField_of_none isRandom hrefusal
  exact ⟨s, hs, hbind, by simp [run, hedit, bound, withSlot]⟩

/-- **A request is refused and changes nothing that shows, or it is completed.** -/
theorem outcome (h : r.Legal c) :
    (∃ e c', r.refusal c = some e ∧ r.run.perform c = (.error e, c') ∧ Untouched c c' ∧
      Relation.ReflTransGen Change c c') ∨
    r.refusal c = none ∧ ∃ c', r.run.perform c = (.ok (), c') ∧
      Relation.ReflTransGen Change c c' := by
  cases r with
  | newModel name => exact Or.inr ⟨rfl, _, rfl, .single (.addModel name)⟩
  | newField type isRandom =>
    by_cases hwidth : 1 ≤ type.width ∧ type.width ≤ maxWidth
    · obtain ⟨s, hs, hdeclare⟩ := c.workspace.declareField_of_width isRandom hwidth
      have hchange := Change.addSlot (c := c) s (Slot.binding_of_declare hs)
      exact Or.inr ⟨if_pos hwidth, c.withSlot s, by simp [run, hdeclare, withSlot],
        .single hchange⟩
    · refine Or.inl ⟨_, c, if_neg hwidth, ?_, .refl c, .refl⟩
      simp [run, c.workspace.declareField_of_not_width isRandom hwidth]
  | field k name type isRandom =>
    cases hrefusal : Edit.declareRefusal (c.model k) c.workspace name type with
    | some e =>
      obtain ⟨ws', hperform, hleft⟩ := Edit.perform_declareField_of_some isRandom hrefusal
      refine Or.inl ⟨e, ⟨c.models, ws'⟩, hrefusal, by simp [run, hperform, set_model], ?_, ?_⟩
      · rcases hleft with rfl | ⟨s, -, rfl⟩
        · exact .refl c
        · exact untouched_withSlot c s
      · rcases hleft with rfl | ⟨s, hs, rfl⟩
        · exact .refl
        · exact .single (.addSlot s hs)
    | none =>
      obtain ⟨s, hs, hbind, hperform⟩ := perform_field hrefusal
      -- first the slot, then its name
      have hslot := Change.addSlot (c := c) s (Slot.binding_of_declare hs)
      have hname := Change.bind (c := c.withSlot s) k (c.model k) name ⟨c.workspace.slots.size⟩
        (getElem?_model h) (by simp [withSlot]) hbind
      exact Or.inr ⟨hrefusal, _, hperform, .tail (.single hslot) hname⟩
  | bind k name f =>
    cases hrefusal : Edit.bindRefusal (c.model k) c.workspace name f with
    | some e =>
      refine Or.inl ⟨e, c, hrefusal, ?_, .refl c, .refl⟩
      simp [run, Edit.perform_bind_of_some hrefusal, set_model]
    | none =>
      have hchange := Change.bind k (c.model k) name f (getElem?_model h.1) h.2 hrefusal
      exact Or.inr ⟨hrefusal, _, perform_bind hrefusal, .single hchange⟩
  | constrain k name scope =>
    exact Or.inr ⟨rfl, _, rfl, .single (.setBlocks k (c.model k) _ (getElem?_model h)
      Model.nodup_putBlock)⟩
  | setEnabled k name enabled =>
    by_cases hmem : name ∈ (c.model k).blocks.map Block.name
    · obtain ⟨b, -, -, hblock⟩ := Model.exists_block hmem
      rw [perform_setEnabled, hblock]
      exact Or.inr ⟨if_pos hmem, _, rfl, .single (.setBlocks k (c.model k) _ (getElem?_model h)
        Model.nodup_putBlock)⟩
    · refine Or.inl ⟨_, c, if_neg hmem, ?_, .refl c, .refl⟩
      simp [perform_setEnabled, Model.block_of_not_mem hmem]

end Request

end Stimulus

import Mathlib.Data.List.Nodup
import Stimulus.Proofs.Model.Requests

/-!
# Bindings over runs of requests

After any requests to models that share fields, be they completed or refused, names and lists agree
(`Catalog.Consistent`): a field has a name exactly if a model lists it, in one place of one model,
and the position that goes with the name is this place, kept in 32 bits. A binding first writes to
the slot and then to the list; it keeps them in agreement because a field that is listed has a name
already and is refused, and because a name that is taken is refused. The invariant is kept by every
single change (`Consistent.change`) and so by every run (`Leads.consistent`).
-/

set_option autoImplicit false

namespace Stimulus

namespace Catalog

variable {c c' : Catalog} {j k p q : Nat} {m m' : Model} {f g : Field} {b : Binding}
  {ws : Workspace}

/-- A model has a field at a position of its list. -/
def Lists (c : Catalog) (k p : Nat) (f : Field) : Prop :=
  ∃ m, c.models[k]? = some m ∧ m.fieldAt? p = some f

/-! ## Lists after a change -/

theorem lists_iff (hm : c.models[k]? = some m) : c.Lists k p f ↔ m.fieldAt? p = some f := by
  simp [Lists, hm]

theorem lists_set_self (hm : c.models[k]? = some m) :
    Lists ⟨c.models.set k m', ws⟩ k p f ↔ m'.fieldAt? p = some f := by
  obtain ⟨hk, -⟩ := List.getElem?_eq_some_iff.1 hm
  simp [Lists, hk]

theorem lists_set_of_ne (hj : j ≠ k) : Lists ⟨c.models.set k m', ws⟩ j p f ↔ c.Lists j p f := by
  simp [Lists, Ne.symm hj]

/-- A new model lists nothing. -/
theorem lists_addModel {name : String} :
    Lists ⟨c.models ++ [.new name], ws⟩ k p f ↔ c.Lists k p f := by
  rcases Nat.lt_trichotomy k c.models.length with hlt | heq | hgt
  · simp [Lists, List.getElem?_append_left hlt]
  · simp [Lists, heq, Model.new, Model.fieldAt?]
  · have hlen : (c.models ++ [Model.new name]).length ≤ k := by
      rw [List.length_append]
      exact hgt
    simp [Lists, List.getElem?_eq_none hlen, List.getElem?_eq_none (Nat.le_of_lt hgt)]

theorem lists_setBlocks {blocks : List Block} (hm : c.models[k]? = some m) :
    Lists (c.setModel k (m.withBlocks blocks)) j p f ↔ c.Lists j p f := by
  by_cases hj : j = k
  · subst hj
    exact (lists_set_self hm).trans (lists_iff hm).symm
  · exact lists_set_of_ne hj

/-- A binding lists one more field. -/
theorem lists_bound (hm : c.models[k]? = some m) {name : String} :
    (c.bound k m name f).Lists j p g ↔
      c.Lists j p g ∨ j = k ∧ p = m.fields.length ∧ g = f := by
  unfold bound
  by_cases hj : j = k
  · subst hj
    rw [lists_set_self hm, lists_iff hm]
    rcases Nat.lt_trichotomy p m.fields.length with hlt | heq | hgt
    · simp [Model.fieldAt?, Model.withField, List.getElem?_append_left hlt, Nat.ne_of_lt hlt]
    · simp [Model.fieldAt?, Model.withField, heq, eq_comm]
    · have hlen : (m.fields ++ [f]).length ≤ p := by
        rw [List.length_append]
        exact hgt
      simp [Model.fieldAt?, Model.withField, List.getElem?_eq_none hlen,
        List.getElem?_eq_none (Nat.le_of_lt hgt), Nat.ne_of_gt hgt]
  · rw [lists_set_of_ne hj]
    simp [hj]

/-- A name is free in a model if no field that it lists has it. -/
theorem name_ne_of_fieldByName? {name : String} (hm : c.models[k]? = some m)
    (hfree : m.fieldByName? c.workspace name = none) (hg : c.Lists k p g)
    (hb : (c.workspace.slot g).binding = some b) : b.name ≠ name := by
  have hmem : g ∈ m.fields := List.mem_of_getElem? ((lists_iff hm).1 hg)
  have hother := List.find?_eq_none.1 hfree g hmem
  simpa [hb] using hother

/-! ## The invariant -/

/-- Names and lists agree, and blocks go by distinct names. -/
structure Consistent (c : Catalog) : Prop where
  /-- A listed field has a name, and its position is the place where it is listed. -/
  named : ∀ k p f, c.Lists k p f →
    ∃ name, (c.workspace.slot f).binding = some ⟨p % Model.positions, name⟩
  /-- A field with a name is listed. -/
  listed : ∀ f b, (c.workspace.slot f).binding = some b → ∃ k p, c.Lists k p f
  /-- No field is listed twice. -/
  apart : ∀ j k p q f, c.Lists j p f → c.Lists k q f → j = k ∧ p = q
  /-- No two fields of a model have one name. -/
  distinct : ∀ k p q f g a b, c.Lists k p f → c.Lists k q g →
    (c.workspace.slot f).binding = some a → (c.workspace.slot g).binding = some b →
    a.name = b.name → f = g
  /-- No two blocks of a model have one name. -/
  blocks : ∀ m ∈ c.models, (m.blocks.map Block.name).Nodup

theorem consistent_empty : Consistent .empty where
  named _ _ _ h := by simp [Lists, empty] at h
  listed _ _ h := absurd (Workspace.lt_size_of_binding h) (Nat.not_lt_zero _)
  apart _ _ _ _ _ h := by simp [Lists, empty] at h
  distinct _ _ _ _ _ _ _ h := by simp [Lists, empty] at h
  blocks _ hm := absurd hm List.not_mem_nil

namespace Consistent

/-- What changes neither a list nor a name keeps the agreement. -/
theorem of_same (h : c.Consistent) (hlists : ∀ k p f, c'.Lists k p f ↔ c.Lists k p f)
    (hnames : ∀ f, (c'.workspace.slot f).binding = (c.workspace.slot f).binding)
    (hblocks : ∀ m ∈ c'.models, (m.blocks.map Block.name).Nodup) : c'.Consistent where
  named k p f hf := by
    rw [hnames]
    exact h.named k p f ((hlists k p f).1 hf)
  listed f b hb := by
    rw [hnames] at hb
    obtain ⟨k, p, hk⟩ := h.listed f b hb
    exact ⟨k, p, (hlists k p f).2 hk⟩
  apart j k p q f hj hk := h.apart j k p q f ((hlists j p f).1 hj) ((hlists k q f).1 hk)
  distinct k p q f g a b hf hg ha hb := by
    rw [hnames] at ha hb
    exact h.distinct k p q f g a b ((hlists k p f).1 hf) ((hlists k q g).1 hg) ha hb
  blocks := hblocks

/-- A field without a name is in no list. -/
theorem ne_of_lists (h : c.Consistent) (hf : (c.workspace.slot f).binding = none)
    (hg : c.Lists k p g) : g ≠ f := by
  rintro rfl
  obtain ⟨name, hname⟩ := h.named k p g hg
  rw [hf] at hname
  cases hname

section Bound

variable {name : String} (h : c.Consistent) (hm : c.models[k]? = some m)
  (hf : f.id < c.workspace.slots.size) (hfree : m.fieldByName? c.workspace name = none)
  (hunbound : (c.workspace.slot f).binding = none)

include hf in
theorem binding_bound_self :
    ((c.bound k m name f).workspace.slot f).binding = some ⟨m.nextPosition, name⟩ := by
  rw [bound, Workspace.slot_withBinding_self hf]
  rfl

theorem binding_bound_of_ne (hg : g ≠ f) :
    ((c.bound k m name f).workspace.slot g).binding = (c.workspace.slot g).binding := by
  rw [bound, Workspace.slot_withBinding_of_ne hg]

include h hm

include hf hunbound in
theorem named_bound (hg : (c.bound k m name f).Lists j p g) :
    ∃ name', ((c.bound k m name f).workspace.slot g).binding =
      some ⟨p % Model.positions, name'⟩ := by
  rcases (lists_bound hm).1 hg with hold | ⟨rfl, rfl, rfl⟩
  · obtain ⟨name', hname'⟩ := h.named j p g hold
    exact ⟨name', (binding_bound_of_ne (h.ne_of_lists hunbound hold)).trans hname'⟩
  · exact ⟨name, binding_bound_self hf⟩

theorem listed_bound (hb : ((c.bound k m name f).workspace.slot g).binding = some b) :
    ∃ j p, (c.bound k m name f).Lists j p g := by
  by_cases hg : g = f
  · exact ⟨k, m.fields.length, (lists_bound hm).2 (Or.inr ⟨rfl, rfl, hg⟩)⟩
  · rw [binding_bound_of_ne hg] at hb
    obtain ⟨j, p, hj⟩ := h.listed g b hb
    exact ⟨j, p, (lists_bound hm).2 (Or.inl hj)⟩

include hunbound in
/-- The field was in no list before. -/
theorem apart_bound {i : Nat} (hi : (c.bound k m name f).Lists i p g)
    (hj : (c.bound k m name f).Lists j q g) : i = j ∧ p = q := by
  rcases (lists_bound hm).1 hi with hold | ⟨rfl, rfl, rfl⟩
  · rcases (lists_bound hm).1 hj with hold' | ⟨-, -, rfl⟩
    · exact h.apart i j p q g hold hold'
    · exact absurd rfl (h.ne_of_lists hunbound hold)
  · rcases (lists_bound hm).1 hj with hold' | ⟨rfl, rfl, -⟩
    · exact absurd rfl (h.ne_of_lists hunbound hold')
    · exact ⟨rfl, rfl⟩

include hf hfree hunbound in
/-- The name was free in the model before. -/
theorem distinct_bound {g' : Field} {a : Binding} (hg : (c.bound k m name f).Lists j p g)
    (hg' : (c.bound k m name f).Lists j q g')
    (ha : ((c.bound k m name f).workspace.slot g).binding = some a)
    (hb : ((c.bound k m name f).workspace.slot g').binding = some b) (hab : a.name = b.name) :
    g = g' := by
  rcases (lists_bound hm).1 hg with hold | ⟨rfl, -, rfl⟩
  · rw [binding_bound_of_ne (h.ne_of_lists hunbound hold)] at ha
    rcases (lists_bound hm).1 hg' with hold' | ⟨rfl, -, rfl⟩
    · rw [binding_bound_of_ne (h.ne_of_lists hunbound hold')] at hb
      exact h.distinct j p q g g' a b hold hold' ha hb hab
    · obtain rfl := Option.some.inj ((binding_bound_self hf).symm.trans hb)
      exact absurd hab (name_ne_of_fieldByName? hm hfree hold ha)
  · obtain rfl := Option.some.inj ((binding_bound_self hf).symm.trans ha)
    rcases (lists_bound hm).1 hg' with hold' | ⟨-, -, rfl⟩
    · rw [binding_bound_of_ne (h.ne_of_lists hunbound hold')] at hb
      exact absurd hab.symm (name_ne_of_fieldByName? hm hfree hold' hb)
    · rfl

include hf hfree hunbound in
/-- **A binding that was checked keeps the agreement.** -/
theorem of_bound : (c.bound k m name f).Consistent where
  named _ _ _ hg := named_bound h hm hf hunbound hg
  listed _ _ hb := listed_bound h hm hb
  apart _ _ _ _ _ hi hj := apart_bound h hm hunbound hi hj
  distinct _ _ _ _ _ _ _ hg hg' ha hb hab :=
    distinct_bound h hm hf hfree hunbound hg hg' ha hb hab
  blocks m' hm' := by
    rcases List.mem_or_eq_of_mem_set hm' with hm' | rfl
    · exact h.blocks m' hm'
    · exact h.blocks m (List.mem_of_getElem? hm)

end Bound

/-- **Every change keeps the agreement of names and lists.** -/
theorem change (h : c.Consistent) (hchange : Change c c') : c'.Consistent := by
  cases hchange with
  | addModel name =>
    refine h.of_same (fun _ _ _ => lists_addModel) (fun _ => rfl) fun m hm => ?_
    rcases List.mem_append.1 hm with hm | hm
    · exact h.blocks m hm
    · obtain rfl := List.mem_singleton.1 hm
      exact List.nodup_nil
  | addSlot s hs =>
    exact h.of_same (fun _ _ _ => Iff.rfl) (Workspace.binding_withSlot hs) h.blocks
  | bind k m name f hm hf hrefusal =>
    obtain ⟨hfree, hunbound⟩ := Edit.bindRefusal_eq_none.1 hrefusal
    exact h.of_bound hm hf hfree hunbound
  | setBlocks k m blocks hm hnames =>
    refine h.of_same (fun _ _ _ => lists_setBlocks hm) (fun _ => rfl) fun m' hm' => ?_
    rcases List.mem_or_eq_of_mem_set hm' with hm' | rfl
    · exact h.blocks m' hm'
    · exact hnames (h.blocks m (List.mem_of_getElem? hm))

/-- A field is found by its name. -/
theorem fieldByName? (h : c.Consistent) (hm : c.models[k]? = some m) (hf : c.Lists k p f)
    (hb : (c.workspace.slot f).binding = some b) :
    m.fieldByName? c.workspace b.name = some f := by
  have hmem : f ∈ m.fields := List.mem_of_getElem? ((lists_iff hm).1 hf)
  cases hfind : m.fieldByName? c.workspace b.name with
  | none => exact absurd rfl (name_ne_of_fieldByName? hm hfind hf hb)
  | some g =>
    obtain ⟨q, hq⟩ := List.getElem?_of_mem (List.mem_of_find?_eq_some hfind)
    have hg : c.Lists k q g := (lists_iff hm).2 hq
    obtain ⟨name, hname⟩ := h.named k q g hg
    have heq : name = b.name := by simpa [hname] using List.find?_some hfind
    rw [h.distinct k q p g f _ b hg hf hname hb heq]

end Consistent

/-! ## Runs -/

/-- A request that is legal where it is made, be it completed or refused. -/
def Step (c c' : Catalog) : Prop := ∃ r : Request, r.Legal c ∧ (r.run.perform c).2 = c'

/-- The second catalog comes after the first one in a run. -/
def Leads : Catalog → Catalog → Prop := Relation.ReflTransGen Step

/-- The catalogs that requests reach from nothing. -/
def Reached (c : Catalog) : Prop := Leads .empty c

theorem Step.changes (h : Step c c') : Relation.ReflTransGen Change c c' := by
  obtain ⟨r, hlegal, rfl⟩ := h
  rcases r.outcome hlegal with ⟨e, c', -, hperform, -, hchanges⟩ | ⟨-, c', hperform, hchanges⟩
  · rwa [hperform]
  · rwa [hperform]

/-- A run is made of changes. -/
theorem Leads.changes (h : Leads c c') : Relation.ReflTransGen Change c c' := by
  induction h with
  | refl => exact .refl
  | tail _ hstep ih => exact ih.trans hstep.changes

/-- **Names and lists agree after every run.** -/
theorem Leads.consistent (h : Leads c c') (hc : c.Consistent) : c'.Consistent := by
  have hchanges := h.changes
  clear h
  induction hchanges with
  | refl => exact hc
  | tail _ hchange ih => exact ih.change hchange

/-- **A name is for good**, and so is a position. -/
theorem Leads.binding_eq_some (h : Leads c c') (hb : (c.workspace.slot f).binding = some b) :
    (c'.workspace.slot f).binding = some b := by
  have hchanges := h.changes
  clear h
  induction hchanges with
  | refl => exact hb
  | tail _ hchange ih => exact hchange.binding_eq_some ih

/-- Constraints under a name that the model knows replace those that it had, in their place and
switched on; constraints under a new name come last. -/
theorem Consistent.perform_constrain (h : c.Consistent) (hm : c.models[k]? = some m)
    (name : String) (scope : Scope) :
    (Request.constrain k name scope).run.perform c =
      (.ok (), c.setModel k (m.withBlocks (
        if name ∈ m.blocks.map Block.name then
          m.blocks.map fun b => if b.name = name then ⟨name, scope, true⟩ else b
        else m.blocks ++ [⟨name, scope, true⟩]))) := by
  have hblocks := Model.putBlock_eq (h.blocks m (List.mem_of_getElem? hm)) ⟨name, scope, true⟩
  simp only [Request.run, InPlace.perform_modify, model_of_getElem? hm, Model.constrain, hblocks,
    Model.withBlocks]

/-- A block that is switched on or off keeps its constraints and its place. -/
theorem Consistent.perform_setEnabled (h : c.Consistent) (hm : c.models[k]? = some m)
    {name : String} (hmem : name ∈ m.blocks.map Block.name) (enabled : Bool) :
    (Request.setEnabled k name enabled).run.perform c =
      (.ok (), c.setModel k (m.withBlocks (m.blocks.map fun b =>
        if b.name = name then { b with enabled := enabled } else b))) := by
  have hnodup := h.blocks m (List.mem_of_getElem? hm)
  obtain ⟨b, hb, rfl, hblock⟩ := Model.exists_block hmem
  have hput : Model.putBlock { b with enabled := enabled } m.blocks = m.blocks.map fun b' =>
      if b'.name = b.name then { b with enabled := enabled } else b' :=
    Model.putBlock_of_mem hnodup hmem
  have hsame : ∀ b' ∈ m.blocks, (if b'.name = b.name then { b with enabled := enabled } else b') =
      if b'.name = b.name then { b' with enabled := enabled } else b' := by
    intro b' hb'
    split
    · rename_i heq
      rw [List.inj_on_of_nodup_map hnodup hb' hb heq]
    · rfl
  rw [Request.perform_setEnabled, model_of_getElem? hm, hblock]
  simp only [hput, List.map_congr_left hsame]

end Catalog

end Stimulus

import Stimulus.Proofs.Model.Edits
import Stimulus.Proofs.Randomizer.Failures

/-!
# Legal values after any actions

Declarations, bindings, assignments and randomizations may come in any order, with
any arguments, and any of them may fail (`Action`). An action that fails changes
nothing (`Action.run_error`). Every action leaves the fields legal and their types as
they are (`Action.run_stays`), for different reasons: an assignment is checked, and a
randomization stores solutions only. So a field that was declared at some point of a
run has a legal value of its type ever after (`Action.legal_values`).
-/

set_option autoImplicit false

namespace Stimulus

namespace Workspace

variable {ws ws' ws'' : Workspace} {f : Field} {s : Slot}

/-- The second workspace has legal fields, and all fields of the first one with their types. -/
structure Stays (ws ws' : Workspace) : Prop where
  legal : ws'.Legal
  size_le : ws.slots.size ≤ ws'.slots.size
  type_eq : ∀ f, f.id < ws.slots.size → (ws'.slot f).type = (ws.slot f).type

theorem Stays.refl (h : ws.Legal) : ws.Stays ws := ⟨h, Nat.le_refl _, fun _ _ => rfl⟩

theorem Stays.trans (h : ws.Stays ws') (h' : ws'.Stays ws'') : ws.Stays ws'' :=
  ⟨h'.legal, Nat.le_trans h.size_le h'.size_le, fun f hf =>
    (h'.type_eq f (Nat.lt_of_lt_of_le hf h.size_le)).trans (h.type_eq f hf)⟩

/-- Another legal slot of the same type may take the place of a slot. -/
theorem stays_setSlot (h : ws.Legal) (hs : s.Legal) (htype : s.type = (ws.slot f).type) :
    ws.Stays (ws.setSlot f s) := by
  refine ⟨h.setSlot hs, Nat.le_of_eq Array.size_setIfInBounds.symm, fun g hg => ?_⟩
  by_cases hf : f.id < ws.slots.size
  · rw [slot_setSlot hf]
    split
    · rename_i heq
      rw [heq, htype]
    · rfl
  · rw [setSlot_of_size_le (Nat.le_of_not_lt hf)]

theorem stays_declareField (h : ws.Legal) {type : FieldType} {isRandom : Bool}
    (hdeclare : ws.declareField type isRandom = .ok (f, ws')) : ws.Stays ws' := by
  obtain ⟨s, hs, hid, hsize, hslot⟩ := declareField_eq_ok hdeclare
  refine ⟨fun g => ?_, hsize ▸ Nat.le_succ _, fun g hg => ?_⟩
  · rw [hslot]
    split
    · exact Slot.legal_declare hs
    · exact h g
  · rw [hslot, if_neg]
    rintro rfl
    exact Nat.ne_of_lt hg hid

theorem stays_assign (h : ws.Legal) {v : Value} (hassign : ws.assign f v = .ok ws') :
    ws.Stays ws' := by
  obtain ⟨s, hs, hset⟩ := exists_of_bind_eq_ok hassign
  cases hset
  exact stays_setSlot h (Slot.legal_assign hs) (Slot.assign_eq_ok hs).1

/-- Binding a field changes neither its type nor its value. -/
theorem stays_bind (h : ws.Legal) {m m' : Model} {name : String}
    (hbind : m.bind ws name f = .ok (m', ws')) : ws.Stays ws' := by
  obtain ⟨-, rfl⟩ := Model.bind_eq_ok hbind
  exact stays_setSlot h ((h f).congr rfl rfl) rfl

/-- **A randomization stores legal values.** What it solves it restricts to the members of an
enumeration, and everything else keeps its value. -/
theorem stays_randomizeWith (h : ws.Legal) {r : Randomizer} {m : Model} {inline : Scope}
    {o : Randomizer.Outcome} (hcall : r.randomizeWith ws m inline = .ok o)
    (hok : o.result = .ok ()) : ws.Stays o.workspace := by
  obtain ⟨raw, hsolves, hholds, hsize⟩ := Randomizer.exists_solution hcall hok
  refine ⟨fun f => ?_, Nat.le_of_eq hsize.symm,
    fun f _ => by rw [hholds f, Slot.setRaw_type]⟩
  rw [hholds f]
  by_cases hf : f ∈ m.fields ∧ (ws.slot f).isRandom = true
  · intro d hd
    obtain ⟨e, he, hvalue⟩ := hsolves.member f hf.1 hf.2 d hd
    have hraw : ((ws.slot f).setRaw (raw f)).raw = raw f := Slot.setRaw_raw (hsolves.lt f)
    unfold Slot.toInt
    rw [hraw]
    exact List.mem_map.2 ⟨e, he, hvalue.symm⟩
  · rw [hsolves.keeps f hf, Slot.setRaw_self]
    exact h f

/-! ## Assignments to declared fields -/

/-- An assignment succeeds exactly for the values that the type of the field takes. -/
theorem assign_iff {v : Value} :
    (∃ ws', ws.assign f v = .ok ws') ↔ (ws.slot f).type.Takes v := by
  rw [← Slot.assign_iff]
  constructor
  · rintro ⟨ws', h⟩
    obtain ⟨s, hs, -⟩ := exists_of_bind_eq_ok h
    exact ⟨s, hs⟩
  · rintro ⟨s, hs⟩
    refine ⟨ws.setSlot f s, ?_⟩
    unfold assign
    rw [hs]
    rfl

/-- After an assignment the field shows the value, and the others are as they were. -/
theorem assign_shows (hf : f.id < ws.slots.size) {v : Value} (h : ws.assign f v = .ok ws') :
    (ws.slot f).type.Shows v.toInt (ws'.slot f).value ∧ ∀ g, g ≠ f → ws'.slot g = ws.slot g := by
  obtain ⟨s, hs, hset⟩ := exists_of_bind_eq_ok h
  cases hset
  obtain ⟨htype, hvalue⟩ := Slot.assign_eq_ok hs
  refine ⟨?_, fun g hg => by rw [slot_setSlot hf, if_neg hg]⟩
  have hshows := (Slot.legal_assign hs).shows
  rw [slot_setSlot hf, if_pos rfl]
  rwa [htype, hvalue] at hshows

end Workspace

/-! ## Actions -/

/-- What can be done to the fields of a workspace. -/
inductive Action where
  /-- The declaration of an enumeration. -/
  | enumerate (name : String) (entries : List Entry)
  /-- The declaration of a field. -/
  | declare (type : FieldType) (isRandom : Bool)
  /-- A field gets its name from a model. -/
  | bind (m : Model) (name : String) (f : Field)
  /-- A field is given a value. -/
  | assign (f : Field) (v : Value)
  /-- A field is made random or fixed. -/
  | setRandom (f : Field) (isRandom : Bool)
  /-- The random fields of a model get new values from a randomizer. -/
  | randomize (r : Randomizer) (m : Model) (inline : Scope)

namespace Action

variable {ws ws' : Workspace} {a : Action} {actions before after : List Action}
  {x : Except Error Unit}

/-- What an action that may fail leaves behind. -/
def conclude {α : Type} (ws : Workspace) :
    Except Error (α × Workspace) → Except Error Unit × Workspace
  | .ok (_, ws') => (.ok (), ws')
  | .error e => (.error e, ws)

/-- The result of an action and the workspace after it. -/
def run (ws : Workspace) : Action → Except Fault (Except Error Unit × Workspace)
  | enumerate name entries => .ok (conclude ws (ws.declareEnumeration name entries))
  | declare type isRandom => .ok (conclude ws (ws.declareField type isRandom))
  | bind m name f => .ok (conclude ws (m.bind ws name f))
  | assign f v => .ok (conclude ws ((ws.assign f v).map ((), ·)))
  | setRandom f isRandom => .ok (.ok (), ws.setRandom f isRandom)
  | randomize r m inline => do
    let o ← r.randomizeWith ws m inline
    return (o.result, o.workspace)

/-- The workspace after some actions, whatever their results are. -/
def runAll : List Action → Workspace → Except Fault Workspace
  | [], ws => .ok ws
  | a :: rest, ws => do
    let (_, ws) ← a.run ws
    runAll rest ws

/-- The action leads from the first workspace to the second one without an error. -/
def Achieves (ws ws' : Workspace) : Action → Prop
  | enumerate name entries => ∃ d, ws.declareEnumeration name entries = .ok (d, ws')
  | declare type isRandom => ∃ f, ws.declareField type isRandom = .ok (f, ws')
  | bind m name f => ∃ m', m.bind ws name f = .ok (m', ws')
  | assign f v => ws.assign f v = .ok ws'
  | setRandom f isRandom => ws' = ws.setRandom f isRandom
  | randomize r m inline =>
    ∃ o, r.randomizeWith ws m inline = .ok o ∧ o.result = .ok () ∧ ws' = o.workspace

theorem conclude_cases {α : Type} {y : Except Error (α × Workspace)}
    (h : conclude ws y = (x, ws')) : ws' = ws ∨ x = .ok () ∧ ∃ b, y = .ok (b, ws') := by
  cases y with
  | error e =>
    cases h
    exact Or.inl rfl
  | ok p =>
    cases h
    exact Or.inr ⟨rfl, p.1, rfl⟩

/-- An action changes nothing or succeeds. -/
theorem run_cases (h : a.run ws = .ok (x, ws')) : ws' = ws ∨ x = .ok () ∧ a.Achieves ws ws' := by
  cases a with
  | enumerate name entries => exact conclude_cases (Except.ok.inj h)
  | declare type isRandom => exact conclude_cases (Except.ok.inj h)
  | bind m name f => exact conclude_cases (Except.ok.inj h)
  | assign f v =>
    refine (conclude_cases (Except.ok.inj h)).imp_right fun ⟨hx, u, hu⟩ => ⟨hx, ?_⟩
    show ws.assign f v = .ok ws'
    cases hassign : ws.assign f v <;> rw [hassign] at hu <;> cases hu
    rfl
  | setRandom f isRandom =>
    cases h
    exact Or.inr ⟨rfl, rfl⟩
  | randomize r m inline =>
    obtain ⟨o, hcall, hout⟩ := exists_of_bind_eq_ok h
    cases hout
    cases hresult : o.result with
    | error e => exact Or.inl (Randomizer.randomizeWith_of_error hcall hresult).2.1
    | ok u => exact Or.inr ⟨rfl, o, hcall, hresult, rfl⟩

/-- **An action that fails changes nothing.** -/
theorem run_error {e : Error} (h : a.run ws = .ok (.error e, ws')) : ws' = ws := by
  rcases run_cases h with hws | ⟨hok, -⟩
  · exact hws
  · cases hok

/-- **Every action leaves the fields legal and their types as they are.** -/
theorem run_stays (h : a.run ws = .ok (x, ws')) (hws : ws.Legal) : ws.Stays ws' := by
  rcases run_cases h with rfl | ⟨-, hachieves⟩
  · exact .refl hws
  · cases a with
    | enumerate name entries =>
      obtain ⟨d, hd⟩ := hachieves
      obtain ⟨d', -, hcount⟩ := exists_of_bind_eq_ok hd
      cases hcount
      exact ⟨hws, Nat.le_refl _, fun _ _ => rfl⟩
    | declare type isRandom =>
      obtain ⟨f, hf⟩ := hachieves
      exact Workspace.stays_declareField hws hf
    | bind m name f =>
      obtain ⟨m', hm⟩ := hachieves
      exact Workspace.stays_bind hws hm
    | assign f v => exact Workspace.stays_assign hws hachieves
    | setRandom f isRandom =>
      obtain rfl : ws' = ws.setRandom f isRandom := hachieves
      exact Workspace.stays_setSlot hws ((hws f).congr rfl rfl) rfl
    | randomize r m inline =>
      obtain ⟨o, hcall, hok, rfl⟩ := hachieves
      exact Workspace.stays_randomizeWith hws hcall hok

/-- Actions in two parts. -/
theorem runAll_append : runAll (before ++ after) ws = runAll before ws >>= runAll after := by
  induction before generalizing ws with
  | nil => rfl
  | cons a rest ih =>
    simp only [List.cons_append, runAll, bind_assoc]
    exact bind_congr fun p => ih

/-- **So do any actions, one after another.** -/
theorem runAll_stays (h : runAll actions ws = .ok ws') (hws : ws.Legal) : ws.Stays ws' := by
  induction actions generalizing ws with
  | nil =>
    cases h
    exact .refl hws
  | cons a rest ih =>
    obtain ⟨⟨x, ws₁⟩, hstep, hrest⟩ := exists_of_bind_eq_ok h
    have hstays := run_stays hstep hws
    exact hstays.trans (ih hrest hstays.legal)

/-- **Fields hold legal values.** All types can be declared but those of integers without bits or
with too many. A field starts with zero or the first value of its enumeration. After any further
actions, failed ones included, it has the type that it was declared with, its raw value is within
the width, and it shows a value of the type. An assignment then succeeds exactly for the values
that the type takes; the field shows the value after it, and no other field has changed. An action
that fails has changed nothing. -/
theorem legal_values {ws₀ ws₁ : Workspace} {type : FieldType} {isRandom : Bool} {f : Field}
    (hbefore : runAll before .empty = .ok ws₀)
    (hdeclare : ws₀.declareField type isRandom = .ok (f, ws₁))
    (hafter : runAll after ws₁ = .ok ws) :
    (∀ type isRandom, (∃ p, ws.declareField type isRandom = .ok p) ↔
      ∀ width signed, type = .scalar width signed → 1 ≤ width ∧ width ≤ maxWidth) ∧
    type.Shows type.start (ws₁.slot f).value ∧
    ((ws.slot f).type = type ∧ (ws.slot f).raw < 2 ^ type.width ∧
      type.Shows (ws.slot f).toInt (ws.slot f).value) ∧
    (∀ v, ((∃ ws', ws.assign f v = .ok ws') ↔ type.Takes v) ∧
      ∀ ws', ws.assign f v = .ok ws' →
        type.Shows v.toInt (ws'.slot f).value ∧ ∀ g, g ≠ f → ws'.slot g = ws.slot g) ∧
    ∀ a e ws', run ws a = .ok (.error e, ws') → ws' = ws := by
  have h₀ := runAll_stays hbefore Workspace.legal_empty
  have h₁ := Workspace.stays_declareField h₀.legal hdeclare
  have h := runAll_stays hafter h₁.legal
  obtain ⟨s, hs, hid, hsize, hslot⟩ := Workspace.declareField_eq_ok hdeclare
  have hnew : ws₁.slot f = s := by rw [hslot, if_pos rfl]
  obtain ⟨hstype, hsvalue⟩ := Slot.declare_eq_ok hs
  have hlt : f.id < ws₁.slots.size := by omega
  have htype : (ws.slot f).type = type := by rw [h.type_eq f hlt, hnew, hstype]
  refine ⟨fun _ _ => Workspace.declareField_iff, ?_, ⟨htype, ?_, ?_⟩,
    fun v => ⟨?_, fun ws' hassign => ?_⟩, fun a e ws' => run_error⟩
  · have hshows := (Slot.legal_declare hs).shows
    rwa [hstype, hsvalue, ← hnew] at hshows
  · rw [← htype]
    exact (ws.slot f).raw_lt_two_pow
  · have hshows := (h.legal f).shows
    rwa [htype] at hshows
  · rw [Workspace.assign_iff, htype]
  · have hshows := Workspace.assign_shows (Nat.lt_of_lt_of_le hlt h.size_le) hassign
    rwa [htype] at hshows

/-- Two colors, one of them with a negative number. -/
def colors : Enumeration :=
  ⟨0, "Color", [⟨"RED", -1⟩, ⟨"BLUE", 2⟩], true, 3, by decide,
    List.pairwise_pair.2 ⟨by decide, by decide⟩, by decide, by decide⟩

/-- A randomizer whose draws are all zero. -/
def lowest : Randomizer :=
  ⟨{ Solver.ofSeed 0 .interleaved with
    source := ⟨.ofSeed 0, fun g => (false, g), fun _ g => (0, g), fun hbound _ => hbound⟩ }⟩

/-- A field of colors is bound and made blue. Another assignment and a call that cannot be
satisfied fail. -/
def painting : List Action :=
  [.bind (.new "m") "tint" ⟨0⟩, .assign ⟨0⟩ (.int 2), .assign ⟨0⟩ (.int 1),
    .randomize lowest ⟨"m", [⟨0⟩], []⟩ ⟨[Randomizer.never]⟩]

/-- A field of colors starts with red and is blue after `painting`. A call that succeeds makes it
red again, and it takes no number without a color. -/
theorem colors_legal_values : ∃ ws₀ ws₁ ws₂ ws,
    runAll [.enumerate "Color" colors.entries] .empty = .ok ws₀ ∧
    ws₀.declareField (.enumeration colors) true = .ok (⟨0⟩, ws₁) ∧
    runAll painting ws₁ = .ok ws₂ ∧
    (ws₂.slot ⟨0⟩).value = .member ⟨colors, ⟨1, by decide⟩⟩ ∧
    run ws₂ (.randomize lowest ⟨"m", [⟨0⟩], []⟩ .empty) = .ok (.ok (), ws) ∧
    (ws.slot ⟨0⟩).value = .member ⟨colors, ⟨0, by decide⟩⟩ ∧
    ¬∃ ws', ws.assign ⟨0⟩ (.int 1) = .ok ws' := by
  obtain ⟨ws₁, hdeclare, hvalues⟩ : ∃ ws₁,
      (⟨#[], 1⟩ : Workspace).declareField (.enumeration colors) true = .ok (⟨0⟩, ws₁) ∧
      ((do
        let ws₂ ← runAll painting ws₁
        let (x, ws) ← run ws₂ (.randomize lowest ⟨"m", [⟨0⟩], []⟩ .empty)
        return ((ws₂.slot ⟨0⟩).value, x.isOk, (ws.slot ⟨0⟩).value)) : Except Fault _) =
        .ok (.member ⟨colors, ⟨1, by decide⟩⟩, true, .member ⟨colors, ⟨0, by decide⟩⟩) :=
    ⟨_, rfl, by decide +kernel⟩
  obtain ⟨ws₂, hpaint, hvalues⟩ := exists_of_bind_eq_ok hvalues
  obtain ⟨⟨x, ws⟩, hrun, hvalues⟩ := exists_of_bind_eq_ok hvalues
  obtain ⟨hblue, hok, hred⟩ : (ws₂.slot ⟨0⟩).value = .member ⟨colors, ⟨1, by decide⟩⟩ ∧
      x.isOk = true ∧ (ws.slot ⟨0⟩).value = .member ⟨colors, ⟨0, by decide⟩⟩ := by
    simpa only [Prod.mk.injEq] using Except.ok.inj hvalues
  obtain rfl : x = .ok () := by
    cases x with
    | ok u => rfl
    | error e => cases hok
  have hafter : runAll (painting ++ [.randomize lowest ⟨"m", [⟨0⟩], []⟩ .empty]) ws₁ = .ok ws := by
    rw [runAll_append, hpaint]
    show runAll [.randomize lowest ⟨"m", [⟨0⟩], []⟩ .empty] ws₂ = .ok ws
    rw [runAll, hrun]
    rfl
  refine ⟨⟨#[], 1⟩, ws₁, ws₂, ws, rfl, hdeclare, hpaint, hblue, hrun, hred, fun hex => ?_⟩
  have hbefore : runAll [.enumerate "Color" colors.entries] .empty = .ok ⟨#[], 1⟩ := rfl
  obtain ⟨-, -, -, hassign, -⟩ := legal_values hbefore hdeclare hafter
  have htakes : (1 : Int) ∈ colors.values := (hassign (.int 1)).1.1 hex
  exact absurd htakes (by decide)

end Action

end Stimulus

import Stimulus.Proofs.BitVector.Division
import Stimulus.Proofs.BitVector.Shift

/-!
# Runs of a store

A run is a sequence of calls of the operations on diagrams and bit-vectors, each
on edges of the store as it then is. A legal call meets no fault, keeps the store
valid and gives edges of the store (`Store.Valid.gives_call`). So every store that
a run reaches is reduced, and its edges are canonical
(`Store.Reached.reduced_and_canonical`): two of them have the same function
exactly if they are the same edge.
-/

set_option autoImplicit false

namespace Stimulus.Diagram

/-- An operation with its arguments. -/
inductive Call where
  | literal (v : Nat)
  | branch (v : Nat) (low high : Edge)
  | complement (f : Edge)
  | choose (f g h : Edge)
  | conj (f g : Edge)
  | disj (f g : Edge)
  | differ (f g : Edge)
  | agree (f g : Edge)
  | conjAll (fs : List Edge)
  | disjAll (fs : List Edge)
  | constant (value width : Nat) (signed : Bool)
  | inputs (first width : Nat) (signed : Bool)
  | resize (a : BitVector) (width : Nat)
  | extract (a : BitVector) (high low : Nat)
  | chooseBits (c : Edge) (a b : BitVector)
  | bitAnd (a b : BitVector)
  | bitOr (a b : BitVector)
  | bitXor (a b : BitVector)
  | anyBit (a : BitVector)
  | add (a b : BitVector)
  | sub (a b : BitVector)
  | neg (a : BitVector)
  | mul (a b : BitVector)
  | udivmod (a b : BitVector)
  | sdivmod (a b : BitVector)
  | shl (a amount : BitVector)
  | lshr (a amount : BitVector)
  | eq (a b : BitVector)
  | ult (a b : BitVector)
  | ule (a b : BitVector)
  | slt (a b : BitVector)
  | sle (a b : BitVector)
  | select (a index : BitVector)

namespace Call

/-- The edge that a computation gives, as a list. -/
def edge (x : Build Edge) : Build (List Edge) := return [← x]

/-- The edges of the vector that a computation gives. -/
def bits (x : Build BitVector) : Build (List Edge) := return (← x).bits

/-- The edges of both vectors that a computation gives. -/
def bitsOfBoth (x : Build (BitVector × BitVector)) : Build (List Edge) := do
  let r ← x
  return r.1.bits ++ r.2.bits

/-- The call itself, which gives the edges of its result. -/
def run : Call → Build (List Edge)
  | literal v => edge (Diagram.literal v)
  | branch v low high => edge (Diagram.branch v low high)
  | complement f => edge (Diagram.complement f)
  | choose f g h => edge (Diagram.choose f g h)
  | conj f g => edge (Diagram.conj f g)
  | disj f g => edge (Diagram.disj f g)
  | differ f g => edge (Diagram.differ f g)
  | agree f g => edge (Diagram.agree f g)
  | conjAll fs => edge (Diagram.conjAll fs)
  | disjAll fs => edge (Diagram.disjAll fs)
  | constant value width signed => bits (liftM (BitVector.constant value width signed))
  | inputs first width signed => bits (BitVector.variable first width signed)
  | resize a width => bits (liftM (a.resize width))
  | extract a high low => bits (liftM (a.extract high low))
  | chooseBits c a b => bits (BitVector.choose c a b)
  | bitAnd a b => bits (a.and b)
  | bitOr a b => bits (a.or b)
  | bitXor a b => bits (a.xor b)
  | anyBit a => edge a.anyBit
  | add a b => bits (a.add b)
  | sub a b => bits (a.sub b)
  | neg a => bits a.neg
  | mul a b => bits (a.mul b)
  | udivmod a b => bitsOfBoth (BitVector.udivmod a b)
  | sdivmod a b => bitsOfBoth (BitVector.sdivmod a b)
  | shl a amount => bits (BitVector.shl a amount)
  | lshr a amount => bits (BitVector.lshr a amount)
  | eq a b => edge (BitVector.eq a b)
  | ult a b => edge (BitVector.ult a b)
  | ule a b => edge (BitVector.ule a b)
  | slt a b => edge (BitVector.slt a b)
  | sle a b => edge (BitVector.sle a b)
  | select a index => edge (BitVector.select a index)

end Call

namespace Store

/-- Vectors of at least one bit over the edges of a store. -/
def Carries (s : Store) (a : BitVector) : Prop := 1 ≤ a.width ∧ ∀ e ∈ a.bits, s.Has e

/-- Calls on edges of the store: variables are numbers from one to the last one, a branch is on a
variable that lies before both sides, and two vectors that an operation takes together have one
width. -/
def Allows (s : Store) : Call → Prop
  | .literal v => 0 < v ∧ v ≤ lastVariable
  | .branch v low high =>
    (0 < v ∧ v ≤ lastVariable) ∧ (s.Has low ∧ s.Under v low) ∧ s.Has high ∧ s.Under v high
  | .complement f => s.Has f
  | .choose f g h => s.Has f ∧ s.Has g ∧ s.Has h
  | .conj f g | .disj f g | .differ f g | .agree f g => s.Has f ∧ s.Has g
  | .conjAll fs | .disjAll fs => ∀ f ∈ fs, s.Has f
  | .constant _ width _ => 1 ≤ width
  | .inputs first width _ => 0 < first ∧ 1 ≤ width ∧ first + width ≤ lastVariable
  | .resize a width => s.Carries a ∧ 1 ≤ width
  | .extract a high low => s.Carries a ∧ low ≤ high ∧ high < a.width
  | .chooseBits c a b => s.Has c ∧ s.Carries a ∧ s.Carries b ∧ a.width = b.width
  | .bitAnd a b | .bitOr a b | .bitXor a b | .add a b | .sub a b | .mul a b | .udivmod a b
  | .sdivmod a b | .eq a b | .ult a b | .ule a b | .slt a b | .sle a b =>
    s.Carries a ∧ s.Carries b ∧ a.width = b.width
  | .anyBit a | .neg a => s.Carries a
  | .shl a amount | .lshr a amount | .select a amount => s.Carries a ∧ s.Carries amount

/-- The stores that runs reach from a new one. -/
inductive Reached : Store → Prop
  | new {capacity : Nat} {s : Store} : withCapacity capacity = .ok s → Reached s
  | call {s t : Store} {c : Call} {es : List Edge} :
    Reached s → s.Allows c → c.run s = .ok (es, t) → Reached t

variable {s t : Store} {a b : BitVector} {e f : Edge} {i j : Nat} {n : Node}

/-! ## One call -/

/-- The edges all belong to the store. -/
def HasAll (es : List Edge) (s : Store) : Prop := ∀ e ∈ es, s.Has e

theorem gives_edge {x : Build Edge} {φ : Assignment → Bool}
    (hx : s.Gives x fun e t => t.Denotes e φ) : s.Gives (Call.edge x) HasAll := by
  unfold Call.edge
  refine (hx.mono fun e t _ _ he => ?_).map
  intro e' he'
  rw [List.mem_singleton.1 he']
  exact he.has

theorem gives_bits {x : Build BitVector} {w : Nat} {X : Assignment → Nat} {σ : Bool}
    (hx : s.Gives x fun r t => r.signed = σ ∧ t.Spells w r.bits X) :
    s.Gives (Call.bits x) HasAll :=
  (hx.mono fun _ _ _ _ hr => hr.2.has).map

theorem gives_bitsOfBoth {x : Build (BitVector × BitVector)} {w : Nat} {X Y : Assignment → Nat}
    {σ : Bool} (hx : s.Gives x fun r t =>
      (r.1.signed = σ ∧ t.Spells w r.1.bits X) ∧ r.2.signed = σ ∧ t.Spells w r.2.bits Y) :
    s.Gives (Call.bitsOfBoth x) HasAll := by
  unfold Call.bitsOfBoth
  refine (hx.mono fun r t _ _ hr => ?_).map
  intro e he
  rcases List.mem_append.1 he with h | h
  · exact hr.1.2.has e h
  · exact hr.2.2.has e h

/-- A question whose answer is a vector over the edges of the store. -/
theorem Valid.gives_answerBits {y : Except Fault BitVector} (hs : s.Valid) (hy : y = .ok a)
    (ha : ∀ e ∈ a.bits, s.Has e) : s.Gives (Call.bits (liftM y)) HasAll := by
  unfold Call.bits
  exact Gives.lift_bind hy (hs.gives_pure ha)

theorem Valid.gives_of_edge (hs : s.Valid) (he : s.Has e) {α : Type} {x : Build α}
    {R : α → Store → Prop} (hx : ∀ {φ}, s.Denotes e φ → s.Gives x R) : s.Gives x R := by
  obtain ⟨φ, hφ⟩ := hs.reduced.denotes he
  exact hx hφ

theorem Valid.gives_of_edges (hs : s.Valid) {fs : List Edge} (hfs : ∀ f ∈ fs, s.Has f) {α : Type}
    {x : Build α} {R : α → Store → Prop}
    (hx : ∀ {φs}, List.Forall₂ s.Denotes fs φs → s.Gives x R) : s.Gives x R := by
  obtain ⟨X, hX⟩ := hs.reduced.spells fs hfs
  obtain ⟨φs, hφs, -⟩ := hX.any
  exact hx hφs

theorem Carries.grow (ha : s.Carries a) (hst : s.GrowsTo t) : t.Carries a :=
  ⟨ha.1, fun e he => hst.has (ha.2 e he)⟩

/-- A vector spells some number, of at least one digit. -/
theorem Carries.spells (ha : s.Carries a) (hs : s.Reduced) :
    ∃ n X, a.width = n + 1 ∧ s.Spells (n + 1) a.bits X := by
  obtain ⟨X, hX⟩ := hs.spells a.bits ha.2
  refine ⟨a.width - 1, X, by have := ha.1; omega, ?_⟩
  rw [Nat.sub_add_cancel ha.1]
  exact hX

/-- Two vectors of one width spell numbers with the same number of digits. -/
theorem Carries.spells_both (ha : s.Carries a) (hb : s.Carries b) (hw : a.width = b.width)
    (hs : s.Reduced) :
    ∃ n X Y, a.width = n + 1 ∧ s.Spells (n + 1) a.bits X ∧ s.Spells (n + 1) b.bits Y := by
  obtain ⟨n, X, hn, hX⟩ := ha.spells hs
  obtain ⟨m, Y, hm, hY⟩ := hb.spells hs
  obtain rfl : m = n := by omega
  exact ⟨m, X, Y, hn, hX, hY⟩

theorem Valid.gives_of_vector (hs : s.Valid) (ha : s.Carries a) {α : Type} {x : Build α}
    {R : α → Store → Prop} (hx : ∀ {n X}, s.Spells (n + 1) a.bits X → s.Gives x R) :
    s.Gives x R := by
  obtain ⟨n, X, -, hX⟩ := ha.spells hs.reduced
  exact hx hX

theorem Valid.gives_of_vectors (hs : s.Valid)
    (h : s.Carries a ∧ s.Carries b ∧ a.width = b.width) {α : Type} {x : Build α}
    {R : α → Store → Prop}
    (hx : ∀ {n X Y}, s.Spells (n + 1) a.bits X → s.Spells (n + 1) b.bits Y → s.Gives x R) :
    s.Gives x R := by
  obtain ⟨ha, hb, hw⟩ := h
  obtain ⟨n, X, Y, -, hX, hY⟩ := ha.spells_both hb hw hs.reduced
  exact hx hX hY

/-- **A legal call meets no fault, keeps the store valid and gives edges of the store.** -/
theorem Valid.gives_call (hs : s.Valid) : ∀ {c : Call}, s.Allows c → s.Gives c.run HasAll
  | .literal v, ⟨hv, hv'⟩ => gives_edge (hs.gives_literal hv hv')
  | .branch v low high, ⟨⟨hv, hv'⟩, ⟨hl, hlu⟩, hh, hhu⟩ =>
    hs.gives_of_edge hl fun hφ => hs.gives_of_edge hh fun hψ =>
      gives_edge (hs.gives_branch hv hv' hφ hψ hlu hhu)
  | .complement f, hf => hs.gives_of_edge hf fun hφ =>
    gives_edge ((hs.gives_complement hφ).mono fun _ _ _ _ he => he.2)
  | .choose f g h, ⟨hf, hg, hh⟩ =>
    hs.gives_of_edge hf fun hφ => hs.gives_of_edge hg fun hψ => hs.gives_of_edge hh fun hχ =>
      gives_edge (hs.gives_choose hφ hψ hχ)
  | .conj f g, ⟨hf, hg⟩ => hs.gives_of_edge hf fun hφ => hs.gives_of_edge hg fun hψ =>
    gives_edge (hs.gives_conj hφ hψ)
  | .disj f g, ⟨hf, hg⟩ => hs.gives_of_edge hf fun hφ => hs.gives_of_edge hg fun hψ =>
    gives_edge (hs.gives_disj hφ hψ)
  | .differ f g, ⟨hf, hg⟩ => hs.gives_of_edge hf fun hφ => hs.gives_of_edge hg fun hψ =>
    gives_edge (hs.gives_differ hφ hψ)
  | .agree f g, ⟨hf, hg⟩ => hs.gives_of_edge hf fun hφ => hs.gives_of_edge hg fun hψ =>
    gives_edge (hs.gives_agree hφ hψ)
  | .conjAll fs, hfs => hs.gives_of_edges hfs fun hφs => gives_edge (hs.gives_conjAll hφs)
  | .disjAll fs, hfs => hs.gives_of_edges hfs fun hφs => gives_edge (hs.gives_disjAll hφs)
  | .constant value width signed, hw => by
    have hbits := spells_constantBits hs.reduced value width
    exact hs.gives_answerBits (ofBits_of_length signed hbits.length hw) hbits.has
  | .inputs first width signed, ⟨hf, hw, hlast⟩ =>
    gives_bits (hs.gives_variable hf hw hlast)
  | .resize a width, ⟨ha, hw⟩ => by
    refine hs.gives_answerBits (ofBits_of_length a.signed (length_resizeBits a width) hw)
      fun e he => ?_
    -- a bit of the resized vector is an old one or the fill
    rcases List.mem_append.1 he with h | h
    · exact ha.2 e (List.mem_of_mem_take h)
    · rw [(List.mem_replicate.1 h).2]
      obtain ⟨n, X, -, hX⟩ := ha.spells hs.reduced
      split
      · exact hX.msb.has
      · exact hs.reduced.has_zero
  | .extract a high low, ⟨ha, hrange⟩ =>
    hs.gives_answerBits (if_pos hrange) fun e he =>
      ha.2 e (List.mem_of_mem_drop (List.mem_of_mem_take he))
  | .chooseBits c a b, ⟨hc, hab⟩ => hs.gives_of_edge hc fun hκ =>
    hs.gives_of_vectors hab fun hX hY => gives_bits (hs.gives_bitChoose hκ hX hY)
  | .bitAnd a b, hab => hs.gives_of_vectors hab fun hX hY => gives_bits (hs.gives_and hX hY)
  | .bitOr a b, hab => hs.gives_of_vectors hab fun hX hY => gives_bits (hs.gives_or hX hY)
  | .bitXor a b, hab => hs.gives_of_vectors hab fun hX hY => gives_bits (hs.gives_xor hX hY)
  | .anyBit a, ha => hs.gives_of_vector ha fun hX => gives_edge (hs.gives_anyBit hX)
  | .add a b, hab => hs.gives_of_vectors hab fun hX hY => gives_bits (hs.gives_add hX hY)
  | .sub a b, hab => hs.gives_of_vectors hab fun hX hY => gives_bits (hs.gives_sub hX hY)
  | .neg a, ha => hs.gives_of_vector ha fun hX => gives_bits (hs.gives_neg hX)
  | .mul a b, hab => hs.gives_of_vectors hab fun hX hY => gives_bits (hs.gives_mul hX hY)
  | .udivmod a b, hab =>
    hs.gives_of_vectors hab fun hX hY => gives_bitsOfBoth (hs.gives_udivmod hX hY)
  | .sdivmod a b, hab =>
    hs.gives_of_vectors hab fun hX hY => gives_bitsOfBoth (hs.gives_sdivmod hX hY)
  | .shl a amount, ⟨ha, hamount⟩ =>
    hs.gives_of_vector ha fun hX => hs.gives_of_vector hamount fun hY =>
      gives_bits (hs.gives_shl hX hY)
  | .lshr a amount, ⟨ha, hamount⟩ =>
    hs.gives_of_vector ha fun hX => hs.gives_of_vector hamount fun hY =>
      gives_bits (hs.gives_lshr hX hY)
  | .eq a b, hab => hs.gives_of_vectors hab fun hX hY => gives_edge (hs.gives_eq hX hY)
  | .ult a b, hab => hs.gives_of_vectors hab fun hX hY => gives_edge (hs.gives_ult hX hY)
  | .ule a b, hab => hs.gives_of_vectors hab fun hX hY => gives_edge (hs.gives_ule hX hY)
  | .slt a b, hab => hs.gives_of_vectors hab fun hX hY => gives_edge (hs.gives_slt hX hY)
  | .sle a b, hab => hs.gives_of_vectors hab fun hX hY => gives_edge (hs.gives_sle hX hY)
  | .select a index, ⟨ha, hindex⟩ =>
    hs.gives_of_vector ha fun hX => hs.gives_of_vector hindex fun hY =>
      gives_edge (hs.gives_select hX hY)

/-! ## Whole runs -/

theorem Reached.valid (h : s.Reached) : s.Valid := by
  induction h with
  | new hnew =>
    unfold withCapacity at hnew
    split at hnew
    · cases hnew
      exact valid_empty
    · cases hnew
  | call _ hc hr ih => exact ((ih.gives_call hc).of_run hr).1

/-- The storage keeps its limit. -/
theorem Reached.bounded (h : s.Reached) : s.bounded = true := by
  induction h with
  | new hnew =>
    unfold withCapacity at hnew
    split at hnew
    · cases hnew
      rfl
    · cases hnew
  | call hs hc hr ih => exact ((hs.valid.gives_call hc).bounded_of_run hr).trans ih

/-- After a run every legal call goes through and leads to a store that a run reaches, unless it
outgrows the storage. -/
theorem Reached.run_or_outgrows {c : Call} (h : s.Reached) (hc : s.Allows c) :
    (∃ es t, c.run s = .ok (es, t) ∧ t.Reached ∧ s.GrowsTo t ∧ HasAll es t) ∨
      Outgrows s c.run := by
  rcases (h.valid.gives_call hc).run_or_outgrows with ⟨es, t, hr, -, -, hst, hes⟩ | hfull
  · exact .inl ⟨es, t, hr, h.call hc hr, hst, hes⟩
  · exact .inr hfull

/-- Edges that have the same value under every assignment denote the same function. -/
theorem Reduced.eq_of_evaluate (hs : s.Reduced) (he : s.Has e) (hf : s.Has f)
    (heq : ∀ ρ, s.evaluate e ρ = s.evaluate f ρ) : e = f := by
  obtain ⟨φ, hφ⟩ := hs.denotes he
  refine hs.canonical hφ ⟨hf, fun ρ => ?_⟩
  rw [← heq, hφ.evaluate]

/-- **The stores of runs are reduced and free of duplicates, and their edges are canonical.** Two
edges are equal exactly if they have the same value under every assignment; the only edge without
solutions is the constant, and the edge of a negated function is the same node in the other
polarity. -/
theorem Reached.reduced_and_canonical (h : s.Reached) :
    (∀ i n, 2 ≤ i → s.nodes[i]? = some n → s.NodeForm i n) ∧
    (∀ i j n, 2 ≤ i → 2 ≤ j → s.nodes[i]? = some n → s.nodes[j]? = some n → i = j) ∧
    (∀ n i, s.unique[n]? = some i ↔ 2 ≤ i ∧ s.nodes[i]? = some n) ∧
    (∀ e, s.Has e → ∀ ρ, ∃ b, s.evaluate e ρ = .ok b) ∧
    (∀ e f, s.Has e → s.Has f → (e = f ↔ ∀ ρ, s.evaluate e ρ = s.evaluate f ρ)) ∧
    (∀ e, s.Has e → (e = .zero ↔ ∀ ρ, s.evaluate e ρ = .ok false)) ∧
    (∀ e f, s.Has e → s.Has f → (f.index = e.index ∧ f.isNegated = !e.isNegated ↔
      ∀ ρ, s.evaluate f ρ = (s.evaluate e ρ).map not)) := by
  have hs := h.valid.reduced
  refine ⟨hs.form, fun i j n hi hj => hs.index_inj hi hj, hs.unique_iff, fun e he ρ => ?_,
    fun e f he hf => ⟨fun heq ρ => by rw [heq], hs.eq_of_evaluate he hf⟩, fun e he => ?_,
    fun e f he hf => ?_⟩
  · obtain ⟨φ, hφ⟩ := hs.denotes he
    exact ⟨φ ρ, hφ.evaluate ρ⟩
  · have hzero := denotes_zero hs
    constructor
    · rintro rfl
      exact hzero.evaluate
    · intro hfalse
      exact hs.eq_of_evaluate he hzero.has fun ρ => by rw [hfalse, hzero.evaluate]
  · obtain ⟨φ, hφ⟩ := hs.denotes he
    have hneg := hφ.neg hs
    constructor
    · rintro ⟨hi, hn⟩ ρ
      have heq : f = -e := Edge.eq_of_index_of_isNegated (by rw [hi, Edge.index_neg])
        (by rw [hn, Edge.isNegated_neg he.1])
      rw [heq, hneg.evaluate, hφ.evaluate]
      rfl
    · intro hnot
      have heq : f = -e := hs.eq_of_evaluate hf hneg.has fun ρ => by
        rw [hnot, hφ.evaluate, hneg.evaluate]
        rfl
      rw [heq]
      exact ⟨Edge.index_neg e, Edge.isNegated_neg he.1⟩

/-- The new store with the literal of the first variable. -/
def firstLiteral : Store where
  nodes := empty.nodes.push ⟨1, .zero, .one⟩
  unique := empty.unique.insert ⟨1, .zero, .one⟩ 2
  computed := ∅
  bounded := true

theorem reached_firstLiteral : firstLiteral.Reached := by
  have hallows : empty.Allows (.literal 1) := ⟨Nat.one_pos, by decide⟩
  have hrun : (Call.literal 1).run empty = Except.ok ([.ofIndex 2], firstLiteral) := rfl
  exact Reached.call (@Reached.new 16 empty rfl) hallows hrun

theorem firstLiteral_reduced_and_canonical :
    firstLiteral.nodes.size = 3 ∧ firstLiteral.NodeForm 2 ⟨1, .zero, .one⟩ ∧
      (Edge.ofIndex 2 = .zero ↔ ∀ ρ, firstLiteral.evaluate (.ofIndex 2) ρ = .ok false) := by
  have h := reached_firstLiteral.reduced_and_canonical
  exact ⟨rfl, h.1 2 _ (by decide) rfl, h.2.2.2.2.2.1 _ ⟨by decide, by decide⟩⟩

end Store

end Stimulus.Diagram

import Mathlib.Order.Bounds.Basic
import Stimulus.Proofs.Field.Legal

/-!
# Enumerations are stored without loss

A list of entries is an enumeration unless it is empty or repeats a symbol or a value
(`Enumeration.exists_declare_iff`). The number of bits that a value takes is counted from the digits
of its magnitude, or of its complement; it is small enough exactly if the value fits
(`Entry.representable_iff`). So the width of an enumeration is the least one that holds all its
values (`Enumeration.width_isLeast`), and nothing that reads or writes a member ever falls back to
another number (`Member.lossless`).

The main statement collects this for every declaration (`Enumeration.declare_lossless`).
-/

set_option autoImplicit false

namespace Stimulus

open TwosComplement

/-! ## Widths -/

namespace Entry

/-- **A value fits a width exactly if the width has all bits that the value takes.** -/
theorem representable_iff {value : Int} {signed : Bool} {w : Nat} (hw : 1 ≤ w)
    (hsigned : signed = false → 0 ≤ value) :
    Representable value w signed ↔ bitsOf signed value ≤ w := by
  constructor
  · intro h
    obtain ⟨n, rfl⟩ : ∃ n, w = n + 1 := ⟨w - 1, by omega⟩
    have hcast (k : Nat) : (2 ^ k : Int) = (2 ^ k : Nat) := by push_cast; rfl
    unfold Representable at h
    unfold bitsOf
    cases signed with
    | false =>
      simp only [Bool.false_eq_true, if_false, hcast] at h ⊢
      apply digits_le
      rw [Nat.one_shiftLeft]
      omega
    | true =>
      simp only [if_true, Nat.add_sub_cancel, hcast] at h ⊢
      -- one bit is for the sign
      apply Nat.succ_le_succ
      apply digits_le
      rw [Nat.one_shiftLeft]
      split <;> omega
  · intro h
    rw [← exists_encode_iff]
    exact ⟨_, if_pos (fits_of_bitsOf_le hw hsigned h)⟩

/-- The width is that of the entry that takes the most bits, and at least one. -/
theorem leastWidth_le_iff {signed : Bool} {entries : List Entry} {w : Nat} :
    leastWidth signed entries ≤ w ↔ 1 ≤ w ∧ ∀ e ∈ entries, bitsOf signed e.value.toInt ≤ w := by
  unfold leastWidth
  generalize 1 = k
  induction entries generalizing k with
  | nil => simp
  | cons e rest ih =>
    rw [List.foldl_cons, ih, max_le_iff, List.forall_mem_cons, and_assoc]

theorem anyNegative_iff {entries : List Entry} :
    anyNegative entries = true ↔ ∃ e ∈ entries, e.value.toInt < 0 := by
  simp [anyNegative]

end Entry

namespace Enumeration

variable {d : Enumeration} {id : Nat} {name : String} {entries seen : List Entry}

/-- **The width is the least one, of one bit or more, that holds all values.** -/
theorem width_isLeast (d : Enumeration) : IsLeast
    {w | 1 ≤ w ∧ ∀ e ∈ d.entries, Representable e.value.toInt w d.signed} d.width := by
  -- without a sign there is no negative value
  have hsigned (e : Entry) (he : e ∈ d.entries) (h : d.signed = false) : 0 ≤ e.value.toInt := by
    by_contra hneg
    rw [d.signed_eq] at h
    exact Bool.false_ne_true
      (h.symm.trans (Entry.anyNegative_iff.2 ⟨e, he, Int.not_le.1 hneg⟩))
  constructor
  · refine ⟨d.width_pos, ?_⟩
    intro e he
    rw [Entry.representable_iff d.width_pos (hsigned e he), d.width_eq]
    exact Entry.bitsOf_le_leastWidth d.signed he
  · rintro w ⟨hw, hall⟩
    rw [d.width_eq, Entry.leastWidth_le_iff]
    refine ⟨hw, ?_⟩
    intro e he
    exact (Entry.representable_iff hw (hsigned e he)).1 (hall e he)

/-! ## Declarations -/

/-- Nothing repeats exactly if the entries are apart from each other and from those seen. -/
theorem firstRepeat?_eq_none_iff : firstRepeat? seen entries = none ↔
    entries.Pairwise Entry.Apart ∧ ∀ a ∈ seen, ∀ b ∈ entries, a.Apart b := by
  constructor
  · exact apart_of_firstRepeat?_eq_none
  · induction entries generalizing seen with
    | nil =>
      intro _
      rfl
    | cons e rest ih =>
      rintro ⟨hrest, hseen⟩
      rw [List.pairwise_cons] at hrest
      have hsymbols : seen.any (·.symbol = e.symbol) = false := by
        simpa using fun a ha => (hseen a ha e List.mem_cons_self).1
      have hvalues : seen.any (·.value = e.value) = false := by
        simpa using fun a ha => (hseen a ha e List.mem_cons_self).2
      simp only [firstRepeat?, hsymbols, hvalues, Bool.false_eq_true, if_false]
      refine ih ⟨hrest.2, List.forall_mem_cons.2 ⟨hrest.1, ?_⟩⟩
      intro a ha b hb
      exact hseen a ha b (List.mem_cons_of_mem e hb)

/-- Entries are apart if their symbols are and their values are. -/
theorem pairwise_apart_iff : entries.Pairwise Entry.Apart ↔
    (entries.map Entry.symbol).Nodup ∧ (entries.map Entry.value).Nodup := by
  unfold List.Nodup
  rw [List.pairwise_map, List.pairwise_map, ← List.pairwise_and_iff]
  rfl

/-- What a declaration that succeeds records. -/
theorem declare_eq_ok (h : declare id name entries = .ok d) :
    d.name = name ∧ d.entries = entries := by
  unfold declare at h
  split at h
  · cases h
  · split at h
    · cases h
    · cases h
      exact ⟨rfl, rfl⟩

/-- **A list of entries is an enumeration unless it is empty or repeats a symbol or a value.** -/
theorem exists_declare_iff : (∃ d, declare id name entries = .ok d) ↔
    entries ≠ [] ∧ (entries.map Entry.symbol).Nodup ∧ (entries.map Entry.value).Nodup := by
  rw [← pairwise_apart_iff]
  constructor
  · rintro ⟨d, h⟩
    obtain ⟨-, rfl⟩ := declare_eq_ok h
    exact ⟨d.entries_ne_nil, d.entries_apart⟩
  · rintro ⟨hne, hapart⟩
    have hnone : firstRepeat? [] entries = none :=
      firstRepeat?_eq_none_iff.2 ⟨hapart, by simp⟩
    unfold declare
    rw [dif_neg hne]
    split
    · rename_i entry hsome
      rw [hnone] at hsome
      cases hsome
    · exact ⟨_, rfl⟩

end Enumeration

/-! ## Members -/

/-- A member is written and read back as itself. -/
structure Member.Lossless (m : Member) : Prop where
  /-- The value has a raw number, and the literal has this number. -/
  encode_eq : encode m.value m.enumeration.width m.enumeration.signed =
    some (Literal.ofMember m).raw
  /-- The literal stands for the value. -/
  literal_eq : (Literal.ofMember m).value = m.value
  /-- A field of the enumeration takes the member or its value, and then has the raw number of the
  literal and shows the member. -/
  assign : ∀ s : Slot, s.type = .enumeration m.enumeration → ∃ s', s.assign (.member m) = .ok s' ∧
    s.assign (.int m.value) = .ok s' ∧ s'.type = s.type ∧ s'.raw = (Literal.ofMember m).raw ∧
      s'.toInt = m.value ∧ s'.value = .member m

section Slots

variable {s : Slot} {m : Member}

theorem Slot.assign_member (h : s.type = .enumeration m.enumeration) :
    s.assign (.member m) = s.setInt m.value := by
  simp only [assign, h, if_true]

theorem Slot.assign_int (h : s.type = .enumeration m.enumeration) :
    s.assign (.int m.value) = s.setInt m.value := by
  have hfound : m.enumeration.ofValue m.value = .ok m := Enumeration.ofValue_eq_ok.2 ⟨rfl, rfl⟩
  simp only [assign, h, hfound]
  rfl

/-- The number of a field decides what is stored and what is shown. -/
theorem Slot.shows_member (htype : s.type = .enumeration m.enumeration) (h : s.toInt = m.value) :
    s.raw = (Literal.ofMember m).raw ∧ s.value = .member m := by
  constructor
  · have hwidth : s.width = (Literal.ofMember m).width := congrArg FieldType.width htype
    have hsigned : s.signed = (Literal.ofMember m).signed := congrArg FieldType.signed htype
    have hlt : s.raw < 2 ^ (Literal.ofMember m).width := hwidth ▸ s.raw_lt_two_pow
    rw [Slot.toInt, hwidth, hsigned, ← Literal.value_ofMember, Literal.value] at h
    exact (decode_inj hlt (Literal.ofMember m).raw_lt_two_pow (Literal.ofMember m).width_pos _).1 h
  · have hfound : m.enumeration.ofValue s.toInt = .ok m :=
      Enumeration.ofValue_eq_ok.2 ⟨rfl, h.symm⟩
    simp only [value, htype, hfound]

end Slots

/-- **Every member is stored without loss.** -/
theorem Member.lossless (m : Member) : m.Lossless where
  encode_eq := by
    obtain ⟨raw, hraw⟩ := Enumeration.exists_encode m.entry_mem
    have hvalue : encode m.value m.enumeration.width m.enumeration.signed = some raw := hraw
    simp only [Literal.ofMember, hvalue, Option.getD_some]
  literal_eq := Literal.value_ofMember m
  assign := by
    intro s htype
    obtain ⟨s', hs'⟩ := Slot.exists_setInt htype rfl
    obtain ⟨htype', hvalue⟩ := Slot.setInt_eq_ok hs'
    obtain ⟨hraw, hshows⟩ := Slot.shows_member (htype'.trans htype) hvalue
    exact ⟨s', (Slot.assign_member htype).trans hs', (Slot.assign_int htype).trans hs', htype',
      hraw, hvalue, hshows⟩

/-- Members of one enumeration with the same raw number are the same. -/
theorem Member.eq_of_raw_eq {m m' : Member} (hd : m.enumeration = m'.enumeration)
    (hraw : (Literal.ofMember m).raw = (Literal.ofMember m').raw) : m = m' := by
  apply eq_of_value_eq hd
  rw [← Literal.value_ofMember, ← Literal.value_ofMember]
  show decode (Literal.ofMember m).raw m.enumeration.width m.enumeration.signed =
    decode (Literal.ofMember m').raw m'.enumeration.width m'.enumeration.signed
  rw [hraw, hd]

namespace Enumeration

variable {d : Enumeration}

/-- An entry is that of the member that its symbol and its value lead to. -/
theorem exists_member {e : Entry} (he : e ∈ d.entries) : ∃ m : Member, m.enumeration = d ∧
    m.entry = e ∧ d.member e.symbol = .ok m ∧ d.ofValue e.value.toInt = .ok m := by
  obtain ⟨i, hi, rfl⟩ := List.mem_iff_getElem.1 he
  exact ⟨⟨d, ⟨i, hi⟩⟩, rfl, rfl, member_eq_ok.2 ⟨rfl, rfl⟩, ofValue_eq_ok.2 ⟨rfl, rfl⟩⟩

/-- A new field has the raw number of the first member, and shows it. -/
theorem exists_slot (d : Enumeration) (isRandom : Bool) : ∃ s m,
    Slot.declare (.enumeration d) isRandom = .ok s ∧ m.enumeration = d ∧ m.value = d.first ∧
      s.raw = (Literal.ofMember m).raw ∧ s.toInt = d.first ∧ s.value = .member m := by
  obtain ⟨s, hs⟩ : ∃ s, Slot.declare (.enumeration d) isRandom = .ok s :=
    Slot.declare_iff.2 ⟨d.width_pos, d.width_le⟩
  obtain ⟨htype, hstart⟩ := Slot.declare_eq_ok hs
  obtain ⟨m, rfl, hentry, -⟩ := exists_member (List.head_mem d.entries_ne_nil)
  have hfirst : m.value = m.enumeration.first := by
    unfold Member.value first
    rw [hentry]
  obtain ⟨hraw, hshows⟩ := Slot.shows_member htype (hstart.trans hfirst.symm)
  exact ⟨s, m, hs, rfl, hfirst, hraw, hstart, hshows⟩

/-- **Enumerations are stored without loss in the least width.** A declaration succeeds exactly for
entries of which there is one and no symbol or value is repeated. The enumeration is signed if a
value is negative, and its width is the least one that holds all values. Members are written and
read back as themselves, a new field has the first one, and different members have different raw
numbers. Every symbol and every value leads to its entry, and nothing else leads to any. -/
theorem declare_lossless (id : Nat) (name : String) (entries : List Entry) :
    ((∃ d, declare id name entries = .ok d) ↔
      entries ≠ [] ∧ (entries.map Entry.symbol).Nodup ∧ (entries.map Entry.value).Nodup) ∧
    ∀ d, declare id name entries = .ok d →
      d.name = name ∧ d.entries = entries ∧
      (d.signed = true ↔ ∃ e ∈ entries, e.value.toInt < 0) ∧ 1 ≤ d.width ∧ d.width ≤ 64 ∧
      IsLeast {w | 1 ≤ w ∧ ∀ e ∈ entries, Representable e.value.toInt w d.signed} d.width ∧
      (∀ m : Member, m.enumeration = d → m.Lossless) ∧
      (∀ isRandom, ∃ s m, Slot.declare (.enumeration d) isRandom = .ok s ∧ m.enumeration = d ∧
        m.value = d.first ∧ s.raw = (Literal.ofMember m).raw ∧ s.toInt = d.first ∧
          s.value = .member m) ∧
      (∀ m m' : Member, m.enumeration = d → m'.enumeration = d → m ≠ m' →
        (Literal.ofMember m).raw ≠ (Literal.ofMember m').raw) ∧
      (∀ e ∈ entries, ∃ m : Member, m.enumeration = d ∧ m.entry = e ∧
        d.member e.symbol = .ok m ∧ d.ofValue e.value.toInt = .ok m) ∧
      (∀ symbol, (∀ e ∈ entries, e.symbol ≠ symbol) →
        d.member symbol = .error (.notAMember name symbol)) ∧
      ∀ value, (∀ e ∈ entries, e.value.toInt ≠ value) →
        d.ofValue value = .error (.notAMember name (toString value)) := by
  refine ⟨exists_declare_iff, ?_⟩
  intro d h
  obtain ⟨rfl, rfl⟩ := declare_eq_ok h
  refine ⟨rfl, rfl, ?_, d.width_pos, d.width_le, d.width_isLeast, fun m _ => m.lossless,
    d.exists_slot, ?_, fun e => exists_member, ?_, ?_⟩
  · rw [d.signed_eq]
    exact Entry.anyNegative_iff
  · intro m m' hm hm' hne hraw
    exact hne (Member.eq_of_raw_eq (hm.trans hm'.symm) hraw)
  · intro symbol hnone
    apply find_eq_error
    simpa using hnone
  · intro value hnone
    apply find_eq_error
    simpa using hnone

/-- The least and the greatest value. -/
def extremes : List Entry := [⟨"low", Int64.minValue⟩, ⟨"high", Int64.maxValue⟩]

/-- Both ends take the whole width, and are read back. -/
theorem extremes_declare_lossless : ∃ d, declare 0 "extremes" extremes = .ok d ∧
    d.signed = true ∧ d.width = 64 ∧
    (∃ m, d.member "low" = .ok m ∧ (Literal.ofMember m).value = -9223372036854775808) ∧
    (∃ m, d.ofValue 9223372036854775807 = .ok m ∧ m.symbol = "high") ∧
    d.ofValue 9223372036854775808 =
      .error (.notAMember "extremes" (toString (9223372036854775808 : Int))) := by
  have hdeclared : ∃ d, declare 0 "extremes" extremes = .ok d ∧ d.width = 64 := ⟨_, rfl, rfl⟩
  obtain ⟨d, hd, hwidth⟩ := hdeclared
  obtain ⟨-, hlossless⟩ := declare_lossless 0 "extremes" extremes
  obtain ⟨-, -, hsigned, -, -, -, hmembers, -, -, hentries, -, hvalues⟩ := hlossless d hd
  have hneg : d.signed = true := hsigned.2 ⟨_, List.mem_cons_self, by decide⟩
  obtain ⟨m, hm, hentry, hsymbol, -⟩ := hentries ⟨"low", Int64.minValue⟩ List.mem_cons_self
  obtain ⟨n, hn, hentry', -, hvalue⟩ := hentries ⟨"high", Int64.maxValue⟩ (by simp [extremes])
  refine ⟨d, hd, hneg, hwidth, ⟨m, hsymbol, ?_⟩, ⟨n, hvalue, ?_⟩, ?_⟩
  · rw [(hmembers m hm).literal_eq, Member.value, hentry]
    rfl
  · rw [Member.symbol, hentry']
  · apply hvalues
    decide

end Enumeration

end Stimulus

import Stimulus.Literal
import Stimulus.Proofs.TwosComplement

/-!
# Enumerations hold their values

The width and the sign of an enumeration are chosen so that all its values fit
(`Enumeration.exists_encode`). So the literal of a member stands for the value of
the member (`Literal.value_ofMember`). A value leads to the one member that has it
(`Enumeration.ofValue_eq_ok`), and so does a symbol (`Enumeration.member_eq_ok`).
-/

set_option autoImplicit false

namespace Stimulus

open TwosComplement

namespace Entry

theorem lt_of_digits_le {n k : Nat} (h : digits n ≤ k) : n < 2 ^ k := by
  refine Nat.lt_of_lt_of_le ?_ (Nat.pow_le_pow_right Nat.two_pos h)
  unfold digits
  split
  · rename_i hzero
    rw [hzero]
    exact Nat.one_pos
  · exact Nat.lt_log2_self

/-- Integers with enough bits fit, with a sign if one is needed. -/
theorem fits_of_bitsOf_le {value : Int} {signed : Bool} {w : Nat} (hw : 1 ≤ w)
    (hsigned : signed = false → 0 ≤ value) (h : bitsOf signed value ≤ w) :
    least w signed ≤ value ∧ value ≤ greatest w signed := by
  obtain ⟨n, rfl⟩ : ∃ n, w = n + 1 := ⟨w - 1, by omega⟩
  unfold bitsOf at h
  unfold least greatest
  simp only [Nat.one_shiftLeft, Nat.add_sub_cancel]
  cases signed with
  | false =>
    have hlt : value.toNat < 2 ^ (n + 1) := lt_of_digits_le h
    have hpos := hsigned rfl
    simp only [Bool.false_eq_true, if_false]
    omega
  | true =>
    simp only [if_true] at h ⊢
    -- one bit is for the sign, and a negative value has the digits of its complement
    have hlt := lt_of_digits_le (Nat.le_of_succ_le_succ h)
    split at hlt <;> omega

theorem bitsOf_le_leastWidth (signed : Bool) {entries : List Entry} {e : Entry} (he : e ∈ entries) :
    bitsOf signed e.value.toInt ≤ leastWidth signed entries := by
  have hle : ∀ (entries : List Entry) (w : Nat),
      w ≤ entries.foldl (fun w e => max w (bitsOf signed e.value.toInt)) w := by
    intro entries
    induction entries with
    | nil => exact fun w => Nat.le_refl w
    | cons e rest ih => exact fun w => Nat.le_trans (Nat.le_max_left _ _) (ih _)
  -- the width starts from one, but the induction needs any start
  unfold leastWidth
  generalize 1 = w
  induction entries generalizing w with
  | nil => cases he
  | cons e' rest ih =>
    rcases List.mem_cons.1 he with rfl | he
    · exact Nat.le_trans (Nat.le_max_right _ _) (hle rest _)
    · exact ih he _

end Entry

namespace Enumeration

variable {d : Enumeration} {e : Entry}

/-- **Every value of an enumeration fits its type.** -/
theorem exists_encode (he : e ∈ d.entries) :
    ∃ raw, encode e.value.toInt d.width d.signed = some raw := by
  -- without a sign there is no negative value
  have hsigned : d.signed = false → 0 ≤ e.value.toInt := by
    intro h
    rw [d.signed_eq] at h
    have hnone := List.any_eq_false.1 h e he
    rw [decide_eq_true_eq] at hnone
    omega
  have hbits := Entry.bitsOf_le_leastWidth d.signed he
  rw [← d.width_eq] at hbits
  exact ⟨_, if_pos (Entry.fits_of_bitsOf_le d.width_pos hsigned hbits)⟩

end Enumeration

theorem Member.entry_mem (m : Member) : m.entry ∈ m.enumeration.entries := List.getElem_mem _

/-- The literal of a member stands for its value. -/
theorem Literal.value_ofMember (m : Member) : (ofMember m).value = m.value := by
  obtain ⟨raw, hraw⟩ := Enumeration.exists_encode m.entry_mem
  unfold Literal.value Literal.ofMember
  show decode ((encode m.entry.value.toInt m.enumeration.width m.enumeration.signed).getD 0) _ _ = _
  rw [hraw]
  exact decode_encode m.enumeration.width_pos hraw

namespace Enumeration

/-- The values of the members are those of the entries. -/
theorem exists_member_iff (d : Enumeration) (P : Int → Prop) :
    (∃ m ∈ d.members, P m.value) ↔ ∃ e ∈ d.entries, P e.value.toInt := by
  constructor
  · rintro ⟨m, hm, hP⟩
    obtain ⟨i, -, rfl⟩ := List.mem_map.1 hm
    exact ⟨_, Member.entry_mem ⟨d, i⟩, hP⟩
  · rintro ⟨e, he, hP⟩
    obtain ⟨i, hi, rfl⟩ := List.mem_iff_getElem.1 he
    exact ⟨⟨d, ⟨i, hi⟩⟩, List.mem_map.2 ⟨⟨i, hi⟩, List.mem_finRange _, rfl⟩, hP⟩

end Enumeration

/-- Members of one enumeration of which the entries are not apart are the same. -/
theorem Member.eq_of_not_apart {m m' : Member} (hd : m.enumeration = m'.enumeration)
    (h : ¬ m.entry.Apart m'.entry) : m = m' := by
  obtain ⟨d, i⟩ := m
  obtain ⟨d', j⟩ := m'
  cases hd
  have hpairwise := List.pairwise_iff_getElem.1 d.entries_apart
  have hij : (i : Nat) = j := by
    rcases Nat.lt_trichotomy i j with hlt | heq | hgt
    · exact absurd (hpairwise i j i.isLt j.isLt hlt) h
    · exact heq
    · have hapart := hpairwise j i j.isLt i.isLt hgt
      exact absurd ⟨Ne.symm hapart.1, Ne.symm hapart.2⟩ h
  rw [Fin.ext hij]

/-- Members of one enumeration with the same value are the same. -/
theorem Member.eq_of_value_eq {m m' : Member} (hd : m.enumeration = m'.enumeration)
    (hv : m.value = m'.value) : m = m' :=
  eq_of_not_apart hd fun hapart => hapart.2 (Int64.toInt_inj.1 hv)

/-- Members of one enumeration with the same symbol are the same. -/
theorem Member.eq_of_symbol_eq {m m' : Member} (hd : m.enumeration = m'.enumeration)
    (hs : m.symbol = m'.symbol) : m = m' :=
  eq_of_not_apart hd fun hapart => hapart.1 hs

namespace Enumeration

variable {d : Enumeration} {m : Member} {value : Int} {test : Entry → Bool} {sought : String}

/-- A test that at most one member passes finds this member. -/
theorem find_eq_ok (hone : ∀ m m' : Member, m.enumeration = d → m'.enumeration = d →
      test m.entry = true → test m'.entry = true → m = m') :
    d.find test sought = .ok m ↔ m.enumeration = d ∧ test m.entry = true := by
  unfold find
  cases hfind : d.entries.findFinIdx? test with
  | none =>
    rw [List.findFinIdx?_eq_none_iff] at hfind
    constructor
    · intro h
      cases h
    · rintro ⟨rfl, hm⟩
      exact absurd hm (hfind _ m.entry_mem)
  | some i =>
    have hi : test (Member.mk d i).entry = true := (List.findFinIdx?_eq_some_iff.1 hfind).1
    constructor
    · rintro ⟨⟩
      exact ⟨rfl, hi⟩
    · rintro ⟨hd, hm⟩
      exact congrArg Except.ok (hone _ _ rfl hd hi hm)

/-- A test that no entry passes finds nothing. -/
theorem find_eq_error (hnone : ∀ e ∈ d.entries, ¬ test e = true) :
    d.find test sought = .error (.notAMember d.name sought) := by
  unfold find
  rw [List.findFinIdx?_eq_none_iff.2 hnone]

/-- A value leads to the one member that has it. -/
theorem ofValue_eq_ok : d.ofValue value = .ok m ↔ m.enumeration = d ∧ m.value = value := by
  unfold ofValue
  rw [find_eq_ok, beq_iff_eq]
  · rfl
  · intro m m' hm hm' hv hv'
    rw [beq_iff_eq] at hv hv'
    exact Member.eq_of_value_eq (hm.trans hm'.symm) (hv.trans hv'.symm)

/-- A symbol leads to the one member that has it. -/
theorem member_eq_ok {symbol : String} :
    d.member symbol = .ok m ↔ m.enumeration = d ∧ m.symbol = symbol := by
  unfold member
  rw [find_eq_ok, beq_iff_eq]
  · rfl
  · intro m m' hm hm' hs hs'
    rw [beq_iff_eq] at hs hs'
    exact Member.eq_of_symbol_eq (hm.trans hm'.symm) (hs.trans hs'.symm)

theorem mem_values : value ∈ d.values ↔ ∃ m : Member, m.enumeration = d ∧ m.value = value := by
  unfold values
  rw [List.mem_map]
  constructor
  · rintro ⟨e, he, rfl⟩
    obtain ⟨i, hi, rfl⟩ := List.mem_iff_getElem.1 he
    exact ⟨⟨d, ⟨i, hi⟩⟩, rfl, rfl⟩
  · rintro ⟨m, rfl, rfl⟩
    exact ⟨m.entry, m.entry_mem, rfl⟩

end Enumeration

end Stimulus

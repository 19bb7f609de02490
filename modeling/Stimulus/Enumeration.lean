import Stimulus.Error
import Stimulus.TwosComplement

/-!
# Enumerations

An enumeration is a named list of symbols with values. Symbols are distinct and
so are values. Two enumerations are the same only if they were declared at once,
which the number `id` records: a second declaration with the same entries makes
a different enumeration.

Values are stored as integers of the least width that holds all of them, signed
if one of them is negative. Every such width is a field width
(`Enumeration.width_pos`, `Enumeration.width_le`).
-/

namespace Stimulus

/-- A symbol and its value. -/
structure Entry where
  symbol : String
  value : Int64
deriving DecidableEq

/-- Entries that differ in their symbols and in their values. -/
def Entry.Apart (a b : Entry) : Prop := a.symbol ≠ b.symbol ∧ a.value ≠ b.value

namespace Entry

/-- Whether a list has an entry with a negative value. -/
def anyNegative (entries : List Entry) : Bool := entries.any fun e => decide (e.value.toInt < 0)

/-- The number of binary digits of a number. -/
def digits (n : Nat) : Nat := if n = 0 then 0 else n.log2 + 1

/-- The number of bits that a value takes: a signed one has the digits of its
magnitude, or of the complement of a negative one, and a sign. -/
def bitsOf (signed : Bool) (value : Int) : Nat :=
  if signed then digits (if value < 0 then -value - 1 else value).toNat + 1
  else digits value.toNat

/-- The least width, at least one, that holds all values. -/
def leastWidth (signed : Bool) (entries : List Entry) : Nat :=
  entries.foldl (fun w e => max w (bitsOf signed e.value.toInt)) 1

theorem digits_le {n k : Nat} (h : n < 1 <<< k) : digits n ≤ k := by
  unfold digits
  split
  · exact Nat.zero_le k
  · rename_i nonzero
    exact (Nat.log2_lt nonzero).mpr (Nat.one_shiftLeft k ▸ h)

theorem bitsOf_le (signed : Bool) (value : Int64) : bitsOf signed value.toInt ≤ maxWidth := by
  have lower : -2 ^ 63 ≤ value.toInt := value.le_toInt
  have upper : value.toInt < 2 ^ 63 := value.toInt_lt
  unfold bitsOf maxWidth
  split
  · refine Nat.succ_le_succ (digits_le ?_)
    split <;> omega
  · refine digits_le ?_
    omega

theorem leastWidth_pos (signed : Bool) (entries : List Entry) : 1 ≤ leastWidth signed entries := by
  unfold leastWidth
  suffices ∀ w, 1 ≤ w →
      1 ≤ entries.foldl (fun w e => max w (bitsOf signed e.value.toInt)) w from
    this 1 (Nat.le_refl 1)
  induction entries with
  | nil => exact fun _ h => h
  | cons e rest ih => exact fun w h => ih _ (Nat.le_trans h (Nat.le_max_left ..))

theorem leastWidth_le (signed : Bool) (entries : List Entry) :
    leastWidth signed entries ≤ maxWidth := by
  unfold leastWidth
  suffices ∀ w, w ≤ maxWidth →
      entries.foldl (fun w e => max w (bitsOf signed e.value.toInt)) w ≤ maxWidth from
    this 1 (by decide)
  induction entries with
  | nil => exact fun _ h => h
  | cons e rest ih => exact fun w h => ih _ (Nat.max_le.mpr ⟨h, bitsOf_le signed e.value⟩)

end Entry

/-- A declared list of distinct entries, with the type that their values are
stored in. -/
structure Enumeration where
  id : Nat
  name : String
  entries : List Entry
  signed : Bool
  width : Nat
  entries_ne_nil : entries ≠ []
  entries_apart : entries.Pairwise Entry.Apart
  signed_eq : signed = Entry.anyNegative entries
  width_eq : width = Entry.leastWidth signed entries
deriving DecidableEq

namespace Enumeration

/-- The text of the first symbol or value that repeats an earlier one; `seen`
holds the entries before the list. -/
def firstRepeat? (seen : List Entry) : List Entry → Option String
  | [] => none
  | e :: rest =>
    if seen.any (·.symbol = e.symbol) then some e.symbol
    else if seen.any (·.value = e.value) then some (toString e.value.toInt)
    else firstRepeat? (e :: seen) rest

theorem apart_of_firstRepeat?_eq_none {seen entries : List Entry}
    (h : firstRepeat? seen entries = none) :
    entries.Pairwise Entry.Apart ∧ ∀ a ∈ seen, ∀ b ∈ entries, a.Apart b := by
  induction entries generalizing seen with
  | nil => exact ⟨List.Pairwise.nil, fun _ _ _ hb => nomatch hb⟩
  | cons e rest ih =>
    unfold firstRepeat? at h
    split at h
    · cases h
    · split at h
      · cases h
      · rename_i symbols values
        have ⟨restApart, seenApart⟩ := ih h
        have apart : ∀ a ∈ seen, a.Apart e := by
          intro a ha
          constructor
          · intro same
            exact symbols (List.any_eq_true.mpr ⟨a, ha, by simpa using same⟩)
          · intro same
            exact values (List.any_eq_true.mpr ⟨a, ha, by simpa using same⟩)
        refine ⟨List.Pairwise.cons (fun b hb => seenApart e (List.mem_cons_self ..) b hb) restApart,
          fun a ha b hb => ?_⟩
        cases hb with
        | head => exact apart a ha
        | tail _ hb => exact seenApart a (List.mem_cons_of_mem _ ha) b hb

/-- The declaration of an enumeration. An empty list is refused, and so is the
first symbol or value that comes a second time. -/
def declare (id : Nat) (name : String) (entries : List Entry) : Except Error Enumeration :=
  if nonempty : entries = [] then .error (.emptyEnumeration name)
  else
    match distinct : firstRepeat? [] entries with
    | some entry => .error (.duplicateEntry name entry)
    | none => .ok {
        id, name, entries
        signed := Entry.anyNegative entries
        width := Entry.leastWidth (Entry.anyNegative entries) entries
        entries_ne_nil := nonempty
        entries_apart := (apart_of_firstRepeat?_eq_none distinct).1
        signed_eq := rfl
        width_eq := rfl }

/-- The entries that number symbols from zero. -/
def numbered (symbols : List String) : List Entry :=
  symbols.zipIdx.map fun (symbol, i) => ⟨symbol, Int64.ofNat i⟩

/-- The number of entries. -/
def length (d : Enumeration) : Nat := d.entries.length

/-- The values in the order of the entries. -/
def values (d : Enumeration) : List Int := d.entries.map fun e => e.value.toInt

/-- The value of the first entry. -/
def first (d : Enumeration) : Int := (d.entries.head d.entries_ne_nil).value.toInt

theorem width_pos (d : Enumeration) : 1 ≤ d.width :=
  d.width_eq ▸ Entry.leastWidth_pos d.signed d.entries

theorem width_le (d : Enumeration) : d.width ≤ maxWidth :=
  d.width_eq ▸ Entry.leastWidth_le d.signed d.entries

/-- Enumerations that cannot be told apart by their declarations. -/
def sameContent (a b : Enumeration) : Bool := a.name == b.name && a.entries == b.entries

end Enumeration

/-- An entry of an enumeration. -/
structure Member where
  enumeration : Enumeration
  index : Fin enumeration.entries.length
deriving DecidableEq

namespace Member

/-- The symbol and the value of a member. -/
def entry (m : Member) : Entry := m.enumeration.entries[m.index]

/-- The symbol of a member. -/
def symbol (m : Member) : String := m.entry.symbol

/-- The value of a member. -/
def value (m : Member) : Int := m.entry.value.toInt

/-- The text of a member: its enumeration and its symbol. -/
def text (m : Member) : String := m.enumeration.name ++ "::" ++ m.symbol

end Member

namespace Enumeration

/-- All members, in the order of the entries. -/
def members (d : Enumeration) : List Member := (List.finRange d.entries.length).map (Member.mk d)

/-- The first member whose entry passes a test. -/
def find (d : Enumeration) (test : Entry → Bool) (sought : String) : Except Error Member :=
  match d.entries.findFinIdx? test with
  | some i => .ok ⟨d, i⟩
  | none => .error (.notAMember d.name sought)

/-- The member with a symbol. -/
def member (d : Enumeration) (symbol : String) : Except Error Member :=
  d.find (fun e => e.symbol == symbol) symbol

/-- The member with a value. -/
def ofValue (d : Enumeration) (value : Int) : Except Error Member :=
  d.find (fun e => e.value.toInt == value) (toString value)

end Enumeration

end Stimulus

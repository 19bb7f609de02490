/-!
# The keystream

A reproducible source of random words: the ChaCha cipher with eight rounds, a
64-bit block counter that starts at zero and the stream number zero. The key is
expanded from a 64-bit seed by a linear congruential generator with permuted
output. Words are used up one by one, in the order of the blocks.
-/

namespace Stimulus

namespace Keystream

/-- A word rotated to the left by fewer than 32 places. -/
def rotateLeft (w places : UInt32) : UInt32 :=
  (w <<< places) ||| (w >>> ((32 - places) % 32))

/-- The sixteen words that a block is computed from. -/
abbrev Block := Vector UInt32 16

/-- The quarter round on the words `a`, `b`, `c` and `d`. -/
def quarterRound (s : Block) (a b c d : Fin 16) : Block :=
  let s := s.set a (s[a] + s[b])
  let s := s.set d (rotateLeft (s[d] ^^^ s[a]) 16)
  let s := s.set c (s[c] + s[d])
  let s := s.set b (rotateLeft (s[b] ^^^ s[c]) 12)
  let s := s.set a (s[a] + s[b])
  let s := s.set d (rotateLeft (s[d] ^^^ s[a]) 8)
  let s := s.set c (s[c] + s[d])
  s.set b (rotateLeft (s[b] ^^^ s[c]) 7)

/-- Two rounds: the columns, then the diagonals. -/
def doubleRound (s : Block) : Block :=
  let s := quarterRound s 0 4 8 12
  let s := quarterRound s 1 5 9 13
  let s := quarterRound s 2 6 10 14
  let s := quarterRound s 3 7 11 15
  let s := quarterRound s 0 5 10 15
  let s := quarterRound s 1 6 11 12
  let s := quarterRound s 2 7 8 13
  quarterRound s 3 4 9 14

/-- The block with the number `counter` under a key of eight words. -/
def block (key : Vector UInt32 8) (counter : UInt64) : Block :=
  let constants : Vector UInt32 4 := #v[0x61707865, 0x3320646e, 0x79622d32, 0x6b206574]
  let position : Vector UInt32 4 := #v[counter.toUInt32, (counter >>> 32).toUInt32, 0, 0]
  let start : Block := constants ++ key ++ position
  let mixed := doubleRound (doubleRound (doubleRound (doubleRound start)))
  Vector.zipWith (· + ·) mixed start

/-- One step of the generator that expands a seed. -/
def expandStep (state : UInt64) : UInt64 :=
  state * 6364136223846793005 + 11634580027462260723

/-- The word that a state of this generator stands for. -/
def expandOutput (state : UInt64) : UInt32 :=
  let x := (((state >>> 18) ^^^ state) >>> 27).toUInt32
  let turn := (state >>> 59).toUInt32
  rotateLeft x ((32 - turn) % 32)

/-- The next `n` words of this generator. -/
def expand : (n : Nat) → UInt64 → Vector UInt32 n
  | 0, _ => #v[]
  | n + 1, state =>
    let state := expandStep state
    (#v[expandOutput state] ++ expand n state).cast (Nat.add_comm 1 n)

end Keystream

/-- A position in the keystream of a key: the number of the next block and the
words of the current one that are still to be used. -/
structure Keystream where
  key : Vector UInt32 8
  counter : UInt64
  pending : List UInt32

namespace Keystream

/-- The keystream of a seed, from its start. -/
def ofSeed (seed : UInt64) : Keystream := ⟨expand 8 seed, 0, []⟩

/-- The next word. -/
def next (g : Keystream) : UInt32 × Keystream :=
  match g.pending with
  | w :: rest => (w, { g with pending := rest })
  | [] =>
    let words := block g.key g.counter
    (words[0], { g with counter := g.counter + 1, pending := words.toList.tail })

/-- A truth value: the top bit of the next word. -/
def flip (g : Keystream) : Bool × Keystream :=
  let (w, g) := g.next
  (w >>> 31 == 1, g)

/-- A number of `count` words, least significant word first. -/
def words : (count : Nat) → Keystream → Nat × Keystream
  | 0, g => (0, g)
  | count + 1, g =>
    let (w, g) := g.next
    let (rest, g) := words count g
    (w.toNat + rest <<< 32, g)

/-- A number of `bits` binary digits, least significant word first. The last
word gives its top bits. -/
def number (bits : Nat) (g : Keystream) : Nat × Keystream :=
  let (low, g) := words (bits / 32) g
  if bits % 32 = 0 then (low, g)
  else
    let (w, g) := g.next
    (low + (w.toNat >>> (32 - bits % 32)) <<< (32 * (bits / 32)), g)

/-- One attempt at a number below `bound`: a number of its length, or the position that
follows if the number is too large. -/
def attempt (bound : Nat) (g : Keystream) : Keystream ⊕ { r : Nat × Keystream // r.1 < bound } :=
  let r := g.number (bound.log2 + 1)
  if h : r.1 < bound then .inr ⟨r, h⟩ else .inl r.2

/-- A number below `bound`, by attempts until one succeeds. The chance of each is at
least one half. -/
def below (bound : Nat) (g : Keystream) : Nat × Keystream :=
  if h : 0 < bound then
    have : Nonempty { r : Nat × Keystream // r.1 < bound } := ⟨(0, g), h⟩
    (Id.run (repeatM (attempt bound) g)).val
  else (0, g)

theorem below_lt {bound : Nat} (hbound : 0 < bound) (g : Keystream) :
    (g.below bound).1 < bound := by
  have : Nonempty { r : Nat × Keystream // r.1 < bound } := ⟨(0, g), hbound⟩
  rw [below, dif_pos hbound]
  exact (Id.run (repeatM (attempt bound) g)).property

/-- The attempts have no limit: one that fails is followed by another. -/
theorem below_eq {bound : Nat} (hbound : 0 < bound) (g : Keystream) :
    g.below bound =
      if (g.number (bound.log2 + 1)).1 < bound then g.number (bound.log2 + 1)
      else (g.number (bound.log2 + 1)).2.below bound := by
  have : Nonempty { r : Nat × Keystream // r.1 < bound } := ⟨(0, g), hbound⟩
  rw [below, dif_pos hbound, below, dif_pos hbound]
  dsimp only
  rw [repeatM_eq_of_monadTail]
  unfold repeatM.body attempt
  dsimp only
  split <;> rfl

end Keystream

end Stimulus

import Mathlib.Logic.Relation
import Stimulus.Proofs.Diagram.Lossy

/-!
# The recursion of case splits

A look at a case split (`Triple.look`) applies one rule at a time. A branch that repeats the test is
replaced by a constant, and the case split that comes out is asked again; what no rule settles is
split, and both sides are asked. `Triple.round` is one round of this recursion, where the case splits
that come up are handed to a given function, and `Triple.Asks` says which ones those are, on which
stores.

Every case split that is asked has a smaller weight (`Store.Valid.asks`), although no single edge of
it needs to have a smaller index. So the recursion is well founded (`Store.Valid.acc_asks`), and
on edges of a valid store `choose` answers by it, whatever the bound on its depth
(`Store.Valid.answer_eq_round`).
-/

set_option autoImplicit false

namespace Stimulus.Diagram

/-! ## One round -/

/-- What a look at a case split says: it is done with, or another one is to be asked instead. -/
inductive Look where
  | done (r : Reduction)
  | again (c : Triple)

/-- The first rule that applies to a case split. -/
def Triple.look (c : Triple) : Look :=
  if c.test = .one then .done (.settled c.yes)
  else if c.test = .zero then .done (.settled c.no)
  else if c.yes = c.no then .done (.settled c.yes)
  else if c.yes = .one ∧ c.no = .zero then .done (.settled c.test)
  else if c.yes = .zero ∧ c.no = .one then .done (.settled (-c.test))
  else if c.yes = c.test then .again { c with yes := .one }
  else if c.yes = -c.test then .again { c with yes := .zero }
  else if c.no = c.test then .again { c with no := .zero }
  else if c.no = -c.test then .again { c with no := .one }
  else .done c.orient

/-- The answer to an open case split whose sides are answered by `k`. -/
def Triple.join (k : Triple → Build Edge) (u : Triple) : Build Edge := do
  let v ← ask (·.top u)
  let sides ← ask (·.split u v)
  let low ← k sides.1
  let high ← k sides.2
  let e ← branch v low high
  remember u e
  return e

/-- What is left to do for a reduced case split whose sides are answered by `k`. -/
def Reduction.finish (k : Triple → Build Edge) : Reduction → Build Edge
  | .settled e => return e
  | .pending u negated => do
    match ← remembered u with
    | some e => return if negated then -e else e
    | none => do
      let e ← u.join k
      return if negated then -e else e

/-- One round of the recursion. -/
def Triple.round (k : Triple → Build Edge) (c : Triple) : Build Edge :=
  match c.look with
  | .done r => r.finish k
  | .again d => k d

/-- The answer to a case split. -/
def Triple.answer (c : Triple) : Build Edge := choose c.test c.yes c.no

/-- The case splits that are asked to finish a reduced one on `s`, and the stores that they are
asked on. The second side is asked on the store that the answer to the first one leaves. -/
inductive Reduction.Asks (k : Triple → Build Edge) (s : Store) : Reduction → Store → Triple → Prop
  | low {u lo hi : Triple} {negated : Bool} {v : Nat} : s.computed[u]? = none →
    s.top u = .ok v → s.split u v = .ok (lo, hi) → Asks k s (.pending u negated) s lo
  | high {u lo hi : Triple} {negated : Bool} {v : Nat} {e : Edge} {t : Store} :
    s.computed[u]? = none → s.top u = .ok v → s.split u v = .ok (lo, hi) →
    k lo s = .ok (e, t) → Asks k s (.pending u negated) t hi

/-- The case splits that one round asks, with their stores. -/
inductive Triple.Asks (k : Triple → Build Edge) : Store × Triple → Store × Triple → Prop
  | again {s : Store} {c d : Triple} : c.look = .again d → Asks k (s, c) (s, d)
  | finish {s t : Store} {c d : Triple} {r : Reduction} : c.look = .done r → r.Asks k s t d →
    Asks k (s, c) (t, d)

section Round

variable {α β : Type} {x y : Build α} {f g : α → Build β} {s : Store} {c d u : Triple}
  {r : Reduction} {k k' : Triple → Build Edge}

theorem bind_of_ok_congr (hx : x s = y s) (hf : ∀ a t, x s = .ok (a, t) → f a t = g a t) :
    (x >>= f) s = (y >>= g) s := by
  show (x s >>= fun p => f p.1 p.2) = y s >>= fun p => g p.1 p.2
  rw [← hx]
  cases hr : x s with
  | error fault => rfl
  | ok p => exact hf p.1 p.2 hr

theorem Reduction.finish_congr (h : ∀ t d, r.Asks k s t d → k d t = k' d t) :
    r.finish k s = r.finish k' s := by
  cases r with
  | settled e => rfl
  | pending u negated =>
    refine bind_of_ok_congr rfl fun found t hfound => ?_
    obtain ⟨rfl, rfl⟩ : s.computed[u]? = found ∧ s = t := by
      cases hfound
      exact ⟨rfl, rfl⟩
    cases hc : s.computed[u]? with
    | some e => rfl
    | none =>
      refine bind_of_ok_congr ?_ fun _ _ _ => rfl
      refine bind_of_ok_congr rfl fun v _ hv => ?_
      obtain ⟨htop, rfl⟩ := ask_eq_ok.1 hv
      refine bind_of_ok_congr rfl fun sides _ hsides => ?_
      obtain ⟨hsplit, rfl⟩ := ask_eq_ok.1 hsides
      have hlow := h _ _ (.low hc htop hsplit)
      refine bind_of_ok_congr hlow fun low t hrun => ?_
      exact bind_of_ok_congr (h _ _ (.high hc htop hsplit hrun)) fun _ _ _ => rfl

/-- **A round depends on the answers to the case splits that it asks, and on nothing else.** -/
theorem Triple.round_congr (h : ∀ t d, Triple.Asks k (s, c) (t, d) → k d t = k' d t) :
    c.round k s = c.round k' s := by
  unfold round
  cases hlook : c.look with
  | done r => exact Reduction.finish_congr fun t d hasks => h t d (.finish hlook hasks)
  | again d => exact h s d (.again hlook)

end Round

/-! ## Rules one at a time -/

theorem Edge.eq_zero_of_one_eq_neg {f : Edge} (h : .one = -f) : f = .zero := by
  rw [← Edge.neg_neg f, ← h, Edge.neg_one]

theorem Edge.eq_one_of_zero_eq_neg {f : Edge} (h : .zero = -f) : f = .one := by
  rw [← Edge.neg_neg f, ← h, Edge.neg_zero]

namespace Triple

variable {c d : Triple} {r : Reduction}

/-- Reducing comes to what a look says, where the look is the last one, and otherwise to what
reducing comes to after a constant is put for a branch that repeats the test. -/
theorem reduce_of_look (c : Triple) :
    (∀ r, c.look = .done r → c.reduce = r) ∧ ∀ d, c.look = .again d → c.reduce = d.reduce := by
  have hne : Edge.one ≠ .zero := by decide
  have h₀ := @Edge.eq_zero_of_one_eq_neg
  have h₁ := @Edge.eq_one_of_zero_eq_neg
  obtain ⟨f, g, k⟩ := c
  simp only [look]
  -- one case for each rule; where a constant is put for a branch, the rules for constants follow
  split_ifs <;> refine ⟨fun r h => ?_, fun d h => ?_⟩ <;> cases h <;>
    simp only [reduce, sharpen] <;> grind

theorem reduce_of_look_done (h : c.look = .done r) : c.reduce = r := c.reduce_of_look.1 r h

theorem reduce_of_look_again (h : c.look = .again d) : c.reduce = d.reduce :=
  c.reduce_of_look.2 d h

/-- What is asked again has a constant for a branch that repeats the test. -/
theorem exists_of_look_again (h : c.look = .again d) : c.test.isTerminal = false ∧
    ∃ b, c.yes.index = c.test.index ∧ d = { c with yes := .ofBool b } ∨
      c.no.index = c.test.index ∧ d = { c with no := .ofBool b } := by
  have hterminal : c.test ≠ .one → c.test ≠ .zero → c.test.isTerminal = false := by
    intro hone hzero
    rw [← Bool.not_eq_true, Edge.isTerminal_iff]
    exact fun h => h.elim hzero hone
  obtain ⟨f, g, k⟩ := c
  simp only [look] at h
  split_ifs at h with hone hzero _ _ _ hyes hyes' hno hno' <;> cases h
  · exact ⟨hterminal hone hzero, true, .inl ⟨congrArg Edge.index hyes, rfl⟩⟩
  · exact ⟨hterminal hone hzero, false, .inl ⟨by rw [hyes', Edge.index_neg], rfl⟩⟩
  · exact ⟨hterminal hone hzero, false, .inr ⟨congrArg Edge.index hno, rfl⟩⟩
  · exact ⟨hterminal hone hzero, true, .inr ⟨by rw [hno', Edge.index_neg], rfl⟩⟩

end Triple

namespace Store

variable {s t : Store} {c d u : Triple} {r : Reduction} {k : Triple → Build Edge} {fuel : Nat}

theorem HasAllOf.splits (h : s.HasAllOf c) (hs : s.Reduced) : ∃ φ ψ χ, s.Splits c φ ψ χ := by
  obtain ⟨htest, hyes, hno⟩ := h
  obtain ⟨φ, hφ⟩ := hs.denotes htest
  obtain ⟨ψ, hψ⟩ := hs.denotes hyes
  obtain ⟨χ, hχ⟩ := hs.denotes hno
  exact ⟨φ, ψ, χ, hφ, hψ, hχ⟩

theorem Splits.hasAllOf {φ ψ χ : Assignment → Bool} (h : s.Splits c φ ψ χ) : s.HasAllOf c :=
  ⟨h.test.has, h.yes.has, h.no.has⟩

/-- What is asked again is on edges of the store, and of a smaller weight: the test is no constant,
but what is put for the branch that repeats it is one. -/
theorem HasAllOf.of_look_again (hc : s.HasAllOf c) (hs : s.Reduced) (h : c.look = .again d) :
    s.HasAllOf d ∧ d.weight < c.weight := by
  obtain ⟨hterminal, b, ⟨hindex, rfl⟩ | ⟨hindex, rfl⟩⟩ := Triple.exists_of_look_again h
  all_goals
    have htwo := hc.1.two_le hterminal
    have hbool : (Edge.ofBool b).index = 1 := by cases b <;> rfl
    have hconst := (denotes_ofBool hs b).has
  · refine ⟨⟨hc.1, hconst, hc.2.2⟩, ?_⟩
    simp only [Triple.weight]
    omega
  · refine ⟨⟨hc.1, hc.2.1, hconst⟩, ?_⟩
    simp only [Triple.weight]
    omega

/-- The sides of an open case split are on edges of the store, and of smaller weights. -/
theorem exists_sides {negated : Bool} (hs : s.Reduced) (hc : s.HasAllOf c)
    (hr : c.reduce = .pending u negated) :
    ∃ v lo hi, s.top u = .ok v ∧ s.split u v = .ok (lo, hi) ∧ s.HasAllOf lo ∧ s.HasAllOf hi ∧
      lo.weight < c.weight ∧ hi.weight < c.weight := by
  obtain ⟨φ, ψ, χ, hsplits⟩ := hc.splits hs
  obtain ⟨hopen, hle, φ', ψ', χ', hu, -⟩ := hsplits.open_of_pending hs hr
  obtain ⟨v, lo, hi, htop, hsplit, -, -, hlo, hhi, hside⟩ := hu.split hs hopen
  obtain ⟨_, _, _, hfalse, -⟩ := hside false
  obtain ⟨_, _, _, htrue, -⟩ := hside true
  exact ⟨v, lo, hi, htop, hsplit, hfalse.hasAllOf, htrue.hasAllOf, by omega, by omega⟩

/-! ## The recursion is well founded -/

/-- `k` answers the case splits on edges of a valid store that are of a smaller weight. -/
def AnswersBelow (k : Triple → Build Edge) (w : Nat) : Prop :=
  ∀ (s : Store) (d : Triple), s.Valid → s.HasAllOf d → d.weight < w →
    s.Gives (k d) fun _ _ => True

theorem AnswersBelow.mono {w w' : Nat} (h : AnswersBelow k w) (hle : w' ≤ w) : AnswersBelow k w' :=
  fun s d hs hd hw => h s d hs hd (Nat.lt_of_lt_of_le hw hle)

/-- What is asked to finish a reduced case split is on edges of a valid store, and of a smaller
weight. -/
theorem Valid.asks_of_reduce (hs : s.Valid) (hc : s.HasAllOf c) (hr : c.reduce = r)
    (hk : AnswersBelow k c.weight) (h : r.Asks k s t d) :
    t.Valid ∧ t.HasAllOf d ∧ d.weight < c.weight := by
  cases h with
  | low _ htop hsplit =>
    obtain ⟨v, lo, hi, htop', hsplit', hlo, -, hwlo, -⟩ := exists_sides hs.reduced hc hr
    cases htop.symm.trans htop'
    cases hsplit.symm.trans hsplit'
    exact ⟨hs, hlo, hwlo⟩
  | high _ htop hsplit hrun =>
    obtain ⟨v, lo, hi, htop', hsplit', hlo, hhi, hwlo, hwhi⟩ := exists_sides hs.reduced hc hr
    cases htop.symm.trans htop'
    cases hsplit.symm.trans hsplit'
    obtain ⟨ht, hst, -⟩ := (hk s _ hs hlo hwlo).of_run hrun
    exact ⟨ht, ⟨hst.has hhi.1, hst.has hhi.2.1, hst.has hhi.2.2⟩, hwhi⟩

/-- **Every case split that a round asks is on edges of a valid store, and of a smaller weight.** -/
theorem Valid.asks (hs : s.Valid) (hc : s.HasAllOf c) (hk : AnswersBelow k c.weight)
    (h : Triple.Asks k (s, c) (t, d)) : t.Valid ∧ t.HasAllOf d ∧ d.weight < c.weight := by
  cases h with
  | again hlook =>
    obtain ⟨hd, hw⟩ := hc.of_look_again hs.reduced hlook
    exact ⟨hs, hd, hw⟩
  | finish hlook hasks => exact hs.asks_of_reduce hc (Triple.reduce_of_look_done hlook) hk hasks

theorem answersBelow_answer (w : Nat) : AnswersBelow Triple.answer w := by
  intro s d hs hd _
  obtain ⟨φ, ψ, χ, h⟩ := hd.splits hs.reduced
  exact (hs.gives_choose h.test h.yes h.no).mono fun _ _ _ _ _ => trivial

/-- **The recursion of a case split is well founded.** -/
theorem Valid.acc_asks (hs : s.Valid) (hc : s.HasAllOf c) :
    Acc (fun q p => Triple.Asks Triple.answer p q) (s, c) := by
  have hbelow : ∀ (w : Nat) (s : Store) (c : Triple), s.Valid → s.HasAllOf c → c.weight < w →
      Acc (fun q p => Triple.Asks Triple.answer p q) (s, c) := by
    intro w
    induction w with
    | zero => exact fun _ _ _ _ hw => absurd hw (Nat.not_lt_zero _)
    | succ w ih =>
      intro s c hs hc hw
      refine Acc.intro _ fun q hasks => ?_
      obtain ⟨ht, hd, hlt⟩ := hs.asks hc (answersBelow_answer _) hasks
      exact ih q.1 q.2 ht hd (by omega)
  exact hbelow (c.weight + 1) s c hs hc (Nat.lt_succ_self _)

/-! ## The bound on the depth -/

theorem chooseWithin_succ (hc : s.Has c.test) :
    chooseWithin (fuel + 1) c s = c.reduce.finish (chooseWithin fuel) s := by
  rw [chooseWithin, bind_of_ok (ask_eq_ok.2 ⟨checkTest_of_has hc, rfl⟩)]
  cases c.reduce with
  | settled e => rfl
  | pending u negated =>
    refine bind_of_ok_congr rfl fun found t _ => ?_
    cases found with
    | some e => rfl
    | none => simp only [Triple.join, bind_assoc, pure_bind]

theorem HasAllOf.weight_pos (hc : s.HasAllOf c) : 0 < c.weight := by
  have h := hc.1.1
  simp only [Triple.weight]
  omega

theorem answersBelow_chooseWithin (fuel : Nat) : AnswersBelow (chooseWithin fuel) (fuel + 1) := by
  intro s d hs hd hw
  obtain ⟨φ, ψ, χ, h⟩ := hd.splits hs.reduced
  rw [← chooseLosing_none]
  exact (gives_chooseLosing fuel _ s d φ ψ χ hs h (by omega)).mono fun _ _ _ _ _ => trivial

/-- **Every bound that is no less than the weight gives the same answer.** -/
theorem Valid.chooseWithin_eq : ∀ (fuel fuel' : Nat) (s : Store) (c : Triple), s.Valid →
    s.HasAllOf c → c.weight ≤ fuel → c.weight ≤ fuel' →
      chooseWithin fuel c s = chooseWithin fuel' c s := by
  intro fuel
  induction fuel with
  | zero =>
    intro fuel' s c hs hc hw
    have hpos := hc.weight_pos
    omega
  | succ fuel ih =>
    intro fuel' s c hs hc hw hw'
    obtain ⟨fuel', rfl⟩ : ∃ n, fuel' = n + 1 := ⟨fuel' - 1, by have := hc.weight_pos; omega⟩
    rw [chooseWithin_succ hc.1, chooseWithin_succ hc.1]
    refine Reduction.finish_congr fun t d hasks => ?_
    obtain ⟨ht, hd, hlt⟩ := hs.asks_of_reduce hc rfl
      ((answersBelow_chooseWithin fuel).mono hw) hasks
    exact ih fuel' t d ht hd (by omega) (by omega)

theorem Valid.answer_eq_chooseWithin (hs : s.Valid) (hc : s.HasAllOf c) (hw : c.weight ≤ fuel) :
    c.answer s = chooseWithin fuel c s := by
  obtain ⟨φ, ψ, χ, h⟩ := hc.splits hs.reduced
  exact chooseWithin_eq _ fuel s c hs hc (h.weight_le hs.reduced) hw

theorem Valid.answer_eq_finish (hs : s.Valid) (hc : s.HasAllOf c) :
    c.answer s = c.reduce.finish Triple.answer s := by
  rw [hs.answer_eq_chooseWithin hc (Nat.le_succ c.weight), chooseWithin_succ hc.1]
  refine Reduction.finish_congr fun t d hasks => ?_
  obtain ⟨ht, hd, hlt⟩ := hs.asks_of_reduce hc rfl
    ((answersBelow_chooseWithin c.weight).mono (Nat.le_succ _)) hasks
  exact (ht.answer_eq_chooseWithin hd (Nat.le_of_lt hlt)).symm

/-- **On edges of a valid store, case splits are answered by the recursion.** -/
theorem Valid.answer_eq_round (hs : s.Valid) (hc : s.HasAllOf c) :
    c.answer s = c.round Triple.answer s := by
  rw [hs.answer_eq_finish hc, Triple.round]
  cases hlook : c.look with
  | done r => rw [Triple.reduce_of_look_done hlook]
  | again d =>
    obtain ⟨hd, -⟩ := hc.of_look_again hs.reduced hlook
    rw [Triple.reduce_of_look_again hlook, ← hs.answer_eq_finish hd]

/-- **The recursion has one solution only.** What answers by it, from some case split on, gives the
answer to that case split. -/
theorem Valid.eq_answer_of_round (hs : s.Valid) (hc : s.HasAllOf c)
    (hk : ∀ t d, Relation.ReflTransGen (Triple.Asks Triple.answer) (s, c) (t, d) →
      k d t = d.round k t) : k c s = c.answer s := by
  have hacc := hs.acc_asks hc
  generalize hp : (s, c) = p at hacc
  induction hacc generalizing s c with
  | intro p _ ih =>
    subst hp
    rw [hk s c .refl, hs.answer_eq_round hc]
    refine (Triple.round_congr fun t d hasks => ?_).symm
    obtain ⟨ht, hd, -⟩ := hs.asks hc (answersBelow_answer _) hasks
    exact (ih (t, d) hasks ht hd (fun u e h => hk u e (.head hasks h)) rfl).symm

end Store

end Stimulus.Diagram

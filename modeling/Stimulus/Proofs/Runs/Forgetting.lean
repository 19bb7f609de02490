import Stimulus.Proofs.BitVector.Parts
import Stimulus.Proofs.Connectives

/-!
# Runs that forget

The computed table is transparent. A run of calls that loses entries of it, at any points
between the calls and on their way (`Store.Lossy`), keeps in step with the run that loses
none (`Store.InStep`): every call gives the same edges, and after every call there are the
same nodes at the same indexes. If one run outgrows the storage, so does the other one, in
the same call. A call that is repeated in any later state gives the same edges once more and
adds no node. Both parts are `Store.Reached.losses_unseen`.

One call is repeated by its lossy forms (`Store.Lossy.repeats`), with a limit on the storage
and without one (`Store.Lossy.yields`), and from there the induction is on the list of calls.
-/

set_option autoImplicit false

namespace Stimulus.Diagram.Store

variable {s t u : Store} {c : Call} {y : Build (List Edge)} {es : List Edge}

/-! ## One call -/

/-- A call with losses on its way or before it. A branch does not look at the table. -/
inductive Lossy : Call → Build (List Edge) → Prop
  | within {c : Call} {y : Build (List Edge)} (h : Loses c.run y) : Lossy c y
  | branch (v : Nat) (low high : Edge) : Lossy (.branch v low high) (Call.branch v low high).run
  | before {c : Call} {y : Build (List Edge)} (l : Loss) (h : Lossy c y) :
    Lossy c (forget l >>= fun _ => y)

open BitVector in
/-- A call may also lose nothing. -/
theorem lossy_run (c : Call) : Lossy c c.run := by
  cases c with
  | literal v => exact .within ((composed_literal v).map _)
  | branch v low high => exact .branch v low high
  | complement f => exact .within ((composed_complement f).map _)
  | choose f g h => exact .within ((composed_choose f g h).map _)
  | conj f g => exact .within ((composed_conj f g).map _)
  | disj f g => exact .within ((composed_disj f g).map _)
  | differ f g => exact .within ((composed_differ f g).map _)
  | agree f g => exact .within ((composed_agree f g).map _)
  | conjAll fs => exact .within ((composed_conjAll fs).map _)
  | disjAll fs => exact .within ((composed_disjAll fs).map _)
  | constant value width signed => exact .within ((composed_lift _).map _)
  | inputs first width signed => exact .within ((composed_variable first width signed).map _)
  | resize a width => exact .within ((composed_lift _).map _)
  | extract a high low => exact .within ((composed_lift _).map _)
  | chooseBits c a b => exact .within ((composed_bitChoose c a b).map _)
  | bitAnd a b => exact .within ((composed_bitwise composed_conj a b).map _)
  | bitOr a b => exact .within ((composed_bitwise composed_disj a b).map _)
  | bitXor a b => exact .within ((composed_bitwise composed_differ a b).map _)
  | anyBit a => exact .within ((composed_disjAll a.bits).map _)
  | add a b => exact .within ((composed_add a b).map _)
  | sub a b => exact .within ((composed_sub a b).map _)
  | neg a => exact .within ((composed_neg a).map _)
  | mul a b => exact .within ((composed_mul a b).map _)
  | udivmod a b => exact .within ((composed_udivmod a b).map _)
  | sdivmod a b => exact .within ((composed_sdivmod a b).map _)
  | shl a amount => exact .within ((composed_shift moveUp a amount).map _)
  | lshr a amount => exact .within ((composed_shift moveDown a amount).map _)
  | eq a b => exact .within ((composed_eq a b).map _)
  | ult a b => exact .within ((composed_ult a b).map _)
  | ule a b => exact .within (((composed_ult b a).map _).map _)
  | slt a b => exact .within ((composed_slt a b).map _)
  | sle a b => exact .within (((composed_slt b a).map _).map _)
  | select a index => exact .within ((composed_select a index).map _)

/-- **Lossy forms of a legal call repeat it.** -/
theorem Lossy.repeats (h : Lossy c y) (hs : s.Valid) (hempty : empty.GrowsTo s) (hc : s.Allows c)
    (hr : c.run s = .ok (es, t)) : s.Repeats y es t := by
  induction h with
  | within h => exact h.repeats hs hempty hr
  | branch v low high =>
    obtain ⟨⟨hv, hv'⟩, ⟨hlow, hlu⟩, hhigh, hhu⟩ := hc
    obtain ⟨φ, hφ⟩ := hs.reduced.denotes hlow
    obtain ⟨ψ, hψ⟩ := hs.reduced.denotes hhigh
    obtain ⟨r, t', hbranch, hlast⟩ := exists_of_bind hr
    cases hlast
    have hrepeats := hs.repeats_branch hv hv' hφ hψ hlu hhu hbranch
    exact hrepeats.bind (hrepeats.valid.repeats_answer fun _ _ => rfl)
  | before l _ ih => exact (ih hc hr).forget l

theorem Lossy.heeds (h : Lossy c y) : Heeds y := by
  induction h with
  | within h => exact h.heeds
  | branch v low high => exact (heeds_branch v low high).bind fun e => heeds_pure [e]
  | before l _ ih => exact (heeds_forget l).bind fun _ => ih

theorem Allows.grow (hst : s.GrowsTo t) (h : s.Allows c) : t.Allows c := by
  cases c with
  | literal | constant | inputs => exact h
  | branch =>
    obtain ⟨hv, ⟨hlow, hlu⟩, hhigh, hhu⟩ := h
    exact ⟨hv, ⟨hst.has hlow, hst.under hlu⟩, hst.has hhigh, hst.under hhu⟩
  | complement => exact hst.has h
  | choose => exact ⟨hst.has h.1, hst.has h.2.1, hst.has h.2.2⟩
  | conj | disj | differ | agree => exact ⟨hst.has h.1, hst.has h.2⟩
  | conjAll | disjAll => exact fun f hf => hst.has (h f hf)
  | resize | extract => exact ⟨h.1.grow hst, h.2⟩
  | chooseBits => exact ⟨hst.has h.1, h.2.1.grow hst, h.2.2.1.grow hst, h.2.2.2⟩
  | anyBit | neg => exact h.grow hst
  | shl | lshr | select => exact ⟨h.1.grow hst, h.2.grow hst⟩
  | bitAnd | bitOr | bitXor | add | sub | mul | udivmod | sdivmod | eq | ult | ule | slt | sle =>
    exact ⟨h.1.grow hst, h.2.1.grow hst, h.2.2⟩

/-- **A lossy form of a legal call yields what the call yields**, from the same nodes and with the
same nodes in the end. -/
theorem Lossy.yields (hy : Lossy c y) (hs : s.Valid) (hempty : empty.GrowsTo s) (hc : s.Allows c)
    (ht : t.Valid) (hsame : s.SameNodes t) :
    ∃ es s' t', Yields s c.run es s' ∧ Yields t y es t' ∧ s'.Valid ∧ s.GrowsTo s' ∧ t'.Valid ∧
      s'.SameNodes t' := by
  obtain ⟨es, s', hyields, hs', hss', -⟩ := hs.gives_call hc
  refine ⟨es, s', ?_⟩
  cases hyields with
  | within run free same =>
    obtain ⟨t', hr, ht', hsame'⟩ := (hy.repeats hs hempty hc run).again t ht hsame
    have hbounded : t'.bounded = t.bounded :=
      hsame'.bounded.trans (same.trans hsame.bounded.symm)
    exact ⟨t', .within run free same, hy.heeds.yields_of_run hr hbounded, hs', hss', ht', hsame'⟩
  | beyond limit run free same size =>
    -- both go through without the limit, and the lossy form then exceeds it as well
    have hfree := s.growsTo_unbounded
    obtain ⟨t', hr, ht', hsame'⟩ :=
      (hy.repeats hs.unbounded (hempty.trans hfree) (hc.grow hfree) free).again t.unbounded
        ht.unbounded ⟨hsame.nodes, hsame.unique, rfl⟩
    have ht : Yields t y es t' := by
      have hlimit : t.bounded = true := hsame.bounded.trans limit
      refine hy.heeds.yields_of_free hlimit (ht.size_le hlimit) hr (hsame'.bounded.trans same) ?_
      rw [hsame'.nodes]
      exact size
    exact ⟨t', .beyond limit run free same size, ht, hs', hss', ht', hsame'⟩

/-! ## Whole runs -/

/-- Two runs keep in step: call by call they give the same edges and leave the same nodes at the
same indexes, to the end or to a call that outgrows the storage in both. -/
inductive InStep : List (Build (List Edge)) → List (Build (List Edge)) → Store → Store → Prop
  | done {s t : Store} : InStep [] [] s t
  | call {s s' t t' : Store} {x y : Build (List Edge)} {xs ys : List (Build (List Edge))}
    {es : List Edge} (hx : x s = .ok (es, s')) (hy : y t = .ok (es, t')) (hsame : s'.SameNodes t')
    (hrest : InStep xs ys s' t') : InStep (x :: xs) (y :: ys) s t
  | full {s t : Store} {x y : Build (List Edge)} {xs ys : List (Build (List Edge))}
    (hx : Outgrows s x) (hy : Outgrows t y) : InStep (x :: xs) (y :: ys) s t

/-- Calls each of which is legal when its turn comes. -/
def AllowsRun (s : Store) : List Call → Prop
  | [] => True
  | c :: calls => s.Allows c ∧ ∀ es t, c.run s = .ok (es, t) → t.AllowsRun calls

theorem Valid.inStep (calls : List Call) : ∀ (ys : List (Build (List Edge))) (s t : Store),
    s.Valid → empty.GrowsTo s → t.Valid → s.SameNodes t → s.AllowsRun calls →
      List.Forall₂ Lossy calls ys → InStep (calls.map Call.run) ys s t := by
  induction calls with
  | nil =>
    intro ys s t _ _ _ _ _ hys
    cases hys
    exact .done
  | cons c calls ih =>
    intro ys s t hs hempty ht hsame hallows hys
    cases hys with
    | @cons _ y _ ys hy hys =>
      obtain ⟨hc, hcalls⟩ := hallows
      obtain ⟨es, s', t', hx, hy, hs', hss', ht', hsame'⟩ := hy.yields hs hempty hc ht hsame
      rcases hx.run_or_outgrows with ⟨hr, hbounded⟩ | hfull
      · have hr' := hy.run_of_bounded
          (hsame'.bounded.trans (hbounded.trans hsame.bounded.symm))
        exact .call hr hr' hsame'
          (ih ys s' t' hs' (hempty.trans hss') ht' hsame' (hcalls es s' hr) hys)
      · refine .full hfull (hy.run_or_outgrows.resolve_left fun hrun => ?_)
        -- the plain run would have kept the limit too
        have hr := hx.run_of_bounded
          (hsame'.bounded.symm.trans (hrun.2.trans hsame.bounded))
        rw [hfull.1] at hr
        cases hr

/-- The stores that further calls and losses lead to. -/
inductive Later (s : Store) : Store → Prop
  | now : s.Later s
  | call {t u : Store} {c : Call} {y : Build (List Edge)} {es : List Edge} (h : s.Later t)
    (hc : t.Allows c) (hy : Lossy c y) (hr : y t = .ok (es, u)) : s.Later u
  | lose {t : Store} (l : Loss) (h : s.Later t) : s.Later (t.lose l)

theorem Later.spec (h : s.Later t) (hs : s.Valid) (hempty : empty.GrowsTo s) :
    t.Valid ∧ s.GrowsTo t := by
  induction h with
  | now => exact ⟨hs, .refl s⟩
  | @call t u c y es _ hc hy hr ih =>
    obtain ⟨ht, hst⟩ := ih
    -- the call leads to the same nodes as it does without losses
    obtain ⟨es', t', u', -, hyields, -, htt', hvalid, hsame⟩ :=
      hy.yields ht (hempty.trans hst) hc ht (.refl t)
    obtain ⟨-, rfl, -⟩ := hyields.eq_of_run hr
    exact ⟨hvalid, hst.trans (htt'.trans hsame.growsTo)⟩
  | @lose t l _ ih => exact ⟨ih.1.lose l, ih.2.trans (t.sameNodes_lose l).growsTo⟩

/-- **The computed table is transparent.** Whatever entries a legal run of calls loses, before it,
between its calls and on their way, it keeps in step with the run without losses: every call gives
the same edges and leaves the same nodes at the same indexes. A call that has gone through gives the
same edges in every later state and adds no node to it, again whatever is lost. -/
theorem Reached.losses_unseen (h : s.Reached) :
    (∀ calls ys l, s.AllowsRun calls → List.Forall₂ Lossy calls ys →
      InStep (calls.map Call.run) ys s (s.lose l)) ∧
    ∀ c es t u y, s.Allows c → c.run s = .ok (es, t) → t.Later u → Lossy c y →
      ∃ u', y u = .ok (es, u') ∧ u'.nodes = u.nodes ∧ u'.unique = u.unique := by
  have hs := h.valid
  refine ⟨fun calls ys l hcalls hys => ?_, fun c es t u y hc hr hu hy => ?_⟩
  · exact hs.inStep calls ys s (s.lose l) h.growsTo (hs.lose l) (s.sameNodes_lose l)
      hcalls hys
  · have hrepeats := hy.repeats hs h.growsTo hc hr
    obtain ⟨hvalid, htu⟩ := hu.spec hrepeats.valid (h.growsTo.trans hrepeats.grows)
    obtain ⟨u', hr', -, hsame⟩ := hrepeats.later u hvalid htu
    exact ⟨u', hr', hsame.nodes, hsame.unique⟩

/-- The store with the literals of the first two variables. -/
def twoLiterals : Store where
  nodes := firstLiteral.nodes.push ⟨2, .zero, .one⟩
  unique := firstLiteral.unique.insert ⟨2, .zero, .one⟩ 3
  computed := ∅
  bounded := true

/-- The store with their conjunction too, which the table remembers. -/
def bothLiterals : Store where
  nodes := twoLiterals.nodes.push ⟨1, .zero, .ofIndex 3⟩
  unique := twoLiterals.unique.insert ⟨1, .zero, .ofIndex 3⟩ 4
  computed := (∅ : Table).insert ⟨.ofIndex 2, .ofIndex 3, .zero⟩ (.ofIndex 4)
  bounded := true

/-- The second variable is taken and joined to the first one. The table is emptied before its use,
and the literal is still there after all is forgotten. -/
theorem firstLiteral_losses_unseen :
    (∃ s t, (Call.literal 2).run firstLiteral = .ok ([.ofIndex 3], s) ∧ s.SameNodes t ∧
      ∃ u, Call.edge (chooseForgetting (fun _ => .all) (.ofIndex 2) (.ofIndex 3) .zero) t =
        .ok ([.ofIndex 4], u) ∧ u.nodes = bothLiterals.nodes) ∧
    ∃ u, (Call.literal 2).run (bothLiterals.lose .all) = .ok ([.ofIndex 3], u) ∧
      u.nodes = bothLiterals.nodes := by
  obtain ⟨hrun, hlater⟩ := reached_firstLiteral.losses_unseen
  have hliteral : (Call.literal 2).run firstLiteral = .ok ([.ofIndex 3], twoLiterals) := rfl
  have hconj : (Call.conj (.ofIndex 2) (.ofIndex 3)).run twoLiterals =
      .ok ([.ofIndex 4], bothLiterals) := rfl
  have hlegal : firstLiteral.Allows (.literal 2) := ⟨Nat.two_pos, by decide⟩
  have hboth : twoLiterals.Allows (.conj (.ofIndex 2) (.ofIndex 3)) :=
    ⟨⟨by decide, by decide⟩, by decide, by decide⟩
  refine ⟨?_, ?_⟩
  · have hstep := hrun [.literal 2, .conj (.ofIndex 2) (.ofIndex 3)] _ .none
      ⟨hlegal, fun es t hr => by
        cases hliteral.symm.trans hr
        exact ⟨hboth, fun _ _ _ => trivial⟩⟩
      (.cons (lossy_run _) (.cons (.within (.bind (.choose (fun _ => .all) _ _ _) fun e =>
        composed_pure [e])) .nil))
    cases hstep with
    | full hx => exact absurd hx (not_outgrows_of_isOk (by decide +kernel))
    | call hx _ hsame hrest =>
      cases hliteral.symm.trans hx
      cases hrest with
      | full hx => exact absurd hx (not_outgrows_of_isOk (by decide +kernel))
      | call hx hy hsame' _ =>
        cases hconj.symm.trans hx
        exact ⟨_, _, hliteral, hsame, _, hy, hsame'.nodes⟩
  · obtain ⟨u, hu, hnodes, -⟩ := hlater _ _ _ _ _ hlegal hliteral
      (.lose .all (.call .now hboth (lossy_run _) hconj)) (lossy_run _)
    exact ⟨u, hu, hnodes⟩

end Stimulus.Diagram.Store

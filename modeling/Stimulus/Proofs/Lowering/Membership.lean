import Stimulus.Proofs.BitVector.Recall
import Stimulus.Proofs.Expr.Membership
import Stimulus.Proofs.Lowering.Selection

/-!
# Membership tests

A membership test is true exactly where the integer of the value lies in the union of the ranges,
as long as the value and all ends of ranges have one signedness. Whatever their types, the term of
the test depends on the set of the ranges only: lowering the ranges in another order, repeatedly or
with points as intervals gives the very same term, and a longer list gives the very disjunction of
the tests of its parts (`Lowering.Reached.membership_exact`).

The terms are the same and not only equivalent because terms of one meaning are equal
(`Store.Means.inj`), as long as both are terms of one lowering. An expression that was lowered on
the way to `z` has its term there (`Lowering.Lowered`), and what is ready lowers again without new
fields (`Lowering.Sound.runs_of_ready`). Another order may need other nodes on the way, for which
the storage can be too small; only a disjunction whose bit is there needs none
(`Lowering.Valid.run_or_of_means`).
-/

set_option autoImplicit false

namespace Stimulus.Lowering

open Diagram Store Quantity

variable {ws : Workspace} {l l' z : Lowering} {a b t t' : BitVector} {e e' value : Expr}
  {α : (Field → Quantity) → Quantity} {ranges ranges' whole : Ranges} {ρ : Assignment}
  {raw : Field → Nat}

/-! ## Terms of one lowering -/

/-- The expression was lowered to this term on the way to `z`, which has grown since. -/
def Lowered (ws : Workspace) (z : Lowering) (e : Expr) (t : BitVector) : Prop :=
  ∃ l l', Reached ws l ∧ Runs ws l e (.ok t) l' ∧ l'.GrowsTo ws z

theorem Ready.grow (h : Ready ws l e) (hg : l.GrowsTo ws l') : Ready ws l' e := by
  obtain ⟨more, hmore, -⟩ := hg.terms
  refine ⟨h.shape, fun f hf => ?_⟩
  have hold := h.fields f hf
  unfold Lowering.fields at hold ⊢
  rw [hmore, List.map_append]
  exact List.mem_append_left _ hold

theorem Lowered.ready (h : Lowered ws z e t) : Ready ws z e := by
  obtain ⟨l, l', hl, hr, hg⟩ := h
  exact (hl.valid.ready_of_runs hr).grow hg

theorem Lowered.means (h : Lowered ws z e t) : z.Means ws t fun fields => e.meaning fields := by
  obtain ⟨l, l', hl, hr, hg⟩ := h
  obtain ⟨hl', -, ht, -⟩ := hl.valid.of_runs hr
  exact ht.grow hl' hg

/-- Terms of one meaning are equal. -/
theorem Means.unique (ha : l.Means ws a α) (hb : l.Means ws b α) (hl : l.Valid ws) : a = b := by
  obtain ⟨P, hP, hα⟩ := ha
  obtain ⟨Q, hQ, hα'⟩ := hb
  refine (hP.congr fun ρ => ?_).inj hQ hl.store.reduced
  have hread := hl.reads_reading ρ
  rw [hα ρ _ hread, hα' ρ _ hread]

/-- A term that means a truth value is a bit. -/
theorem Means.denotes_bit {κ : (Field → Quantity) → Bool}
    (h : l.Means ws t fun fields => flag (κ fields)) (hl : l.Valid ws) :
    ∃ f, t = .ofBit f ∧
      l.solver.store.Denotes f fun ρ => κ (ws.quantity (reading ws l ρ)) := by
  obtain ⟨Q, hQ, hvalue⟩ := h
  exact (hQ.congr fun ρ => hvalue ρ _ (hl.reads_reading ρ)).exists_bit

/-- The bit has the truth value under every assignment. -/
theorem Means.exists_bit {κ : (Field → Quantity) → Bool}
    (h : l.Means ws t fun fields => flag (κ fields)) (hl : l.Valid ws) :
    ∃ f, t = .ofBit f ∧ ∀ ρ raw, l.Reads ρ raw →
      l.solver.store.evaluate f ρ = .ok (κ (ws.quantity raw)) := by
  obtain ⟨f, rfl, hf⟩ := h.denotes_bit hl
  obtain ⟨Q, hQ, hvalue⟩ := h
  refine ⟨f, rfl, fun ρ raw hr => (hf.evaluate ρ).trans (congrArg Except.ok ?_)⟩
  have hflag : flag (κ (ws.quantity (reading ws l ρ))) = flag (κ (ws.quantity raw)) :=
    (hvalue ρ _ (hl.reads_reading ρ)).symm.trans (hvalue ρ raw hr)
  rw [← holds_flag (κ (ws.quantity raw)), ← hflag, holds_flag]

/-- An expression of the same meaning lowers to the same term. -/
theorem Means.runs_of_ready (ht : z.Means ws t fun fields => e.meaning fields) (hz : Sound ws z)
    (h : Ready ws z e') (hmeaning : ∀ fields, e'.meaning fields = e.meaning fields) :
    (∃ z', Runs ws z e' (.ok t) z') ∨ Exceeds z (lower ws e').run := by
  refine (hz.runs_of_ready h).imp_left fun ⟨t', z', hr, _⟩ => ?_
  obtain ⟨hz', hg, ht', -⟩ := hz.valid.of_runs hr
  obtain rfl : t' = t := (ht'.congr hmeaning).unique (ht.grow hz.valid hg) hz'
  exact ⟨z', hr⟩

/-- The values of an expression that is ready are in the range of its type. -/
theorem Valid.inRange_meaning (hl : l.Valid ws) (h : Ready ws l e) (hr : l.Reads ρ raw) :
    (e.meaning (ws.quantity raw)).InRange := by
  refine e.inRange_meaning fun f hf => ?_
  obtain ⟨p, hp, rfl⟩ := List.mem_map.1 (h.fields f hf)
  obtain ⟨Q, hQ, hvalue⟩ := hl.means_of_mem hp
  have hq : Q ρ = ws.quantity raw p.1 := hvalue ρ raw hr
  exact hq ▸ hQ.inRange ρ

/-- A disjunction of two bits whose result is there needs no new node. -/
theorem Valid.run_or_of_means (hl : l.Valid ws) {κ μ : (Field → Quantity) → Bool} {u : BitVector}
    (ha : l.Means ws a fun fields => flag (κ fields))
    (hb : l.Means ws b fun fields => flag (μ fields))
    (hu : l.Means ws u fun fields => flag (κ fields || μ fields)) :
    ∃ l', (Lowering.or a b).run.run l = .ok (.ok u, l') := by
  have hs := hl.store
  obtain ⟨f, rfl, hf⟩ := ha.denotes_bit hl
  obtain ⟨g, rfl, hg⟩ := hb.denotes_bit hl
  obtain ⟨h, rfl, hh⟩ := hu.denotes_bit hl
  have hor := (hs.recalls_disj hf hg hh).bind (k := fun e => pure (BitVector.ofBit e))
    (Store.recalls_pure _ _)
  obtain ⟨store, hr, -⟩ := hor.run hs
  exact ⟨_, run_solving (Solver.build_ok hr)⟩

/-! ## Tests -/

/-- A test is ready if the value and all ends of ranges are. -/
theorem ready_inside_iff : Ready ws l (.inside value ranges) ↔ Ready ws l value ∧
    ∀ r ∈ ranges.toList, Ready ws l r.ends.1 ∧ Ready ws l r.ends.2 := by
  constructor
  · rintro ⟨hshape, hfields⟩
    obtain ⟨hsv, hsr⟩ := Expr.inside_shape_ok_iff.1 hshape
    obtain ⟨hfv, hfr⟩ := Expr.forall_mentions_inside.1 hfields
    exact ⟨⟨hsv, hfv⟩, fun r hr => ⟨⟨(hsr r hr).1, (hfr r hr).1⟩, (hsr r hr).2, (hfr r hr).2⟩⟩
  · rintro ⟨hv, hends⟩
    refine ⟨Expr.inside_shape_ok_iff.2 ⟨hv.shape, fun r hr => ?_⟩,
      Expr.forall_mentions_inside.2 ⟨hv.fields, fun r hr => ?_⟩⟩
    · exact ⟨(hends r hr).1.shape, (hends r hr).2.shape⟩
    · exact ⟨(hends r hr).1.fields, (hends r hr).2.fields⟩

/-- A test of ranges with the same ends is ready as well. -/
theorem Ready.of_same (h : Ready ws l (.inside value ranges)) (hsame : ranges.Same ranges') :
    Ready ws l (.inside value ranges') := by
  obtain ⟨hv, hends⟩ := ready_inside_iff.1 h
  refine ready_inside_iff.2 ⟨hv, fun r' hr' => ?_⟩
  obtain ⟨r, hr, heq⟩ := List.mem_map.1 ((hsame r'.ends).2 (List.mem_map_of_mem hr'))
  exact heq ▸ hends r hr

theorem Ready.append (h : Ready ws l (.inside value ranges))
    (h' : Ready ws l (.inside value ranges'))
    (hwhole : whole.toList = ranges.toList ++ ranges'.toList) :
    Ready ws l (.inside value whole) := by
  obtain ⟨hv, hends⟩ := ready_inside_iff.1 h
  obtain ⟨-, hends'⟩ := ready_inside_iff.1 h'
  refine ready_inside_iff.2 ⟨hv, ?_⟩
  rw [hwhole]
  exact List.forall_mem_append.2 ⟨hends, hends'⟩

/-- The disjunction of two tests means the test of both lists. -/
theorem Means.append (h : l.Means ws t fun fields =>
      flag (((Expr.inside value ranges).meaning fields).holds ||
        ((Expr.inside value ranges').meaning fields).holds))
    (hwhole : whole.toList = ranges.toList ++ ranges'.toList) :
    l.Means ws t fun fields => (Expr.inside value whole).meaning fields := by
  refine h.congr fun fields => ?_
  show flag ((flag _).holds || (flag _).holds) = flag (whole.covers _ _)
  rw [holds_flag, holds_flag, Ranges.covers_of_append hwhole]

/-- The value and both ends of the range have one signedness. -/
def OneSign (fields : Field → Quantity) (value : Expr) (r : Range) : Prop :=
  (r.ends.1.meaning fields).signed = (value.meaning fields).signed ∧
    (r.ends.2.meaning fields).signed = (value.meaning fields).signed

/-- With one signedness a test holds exactly if some range contains the integer of the value. -/
theorem Valid.covers_iff_contains (hl : l.Valid ws) (h : Ready ws l (.inside value ranges))
    (hr : l.Reads ρ raw) (hsign : ∀ r ∈ ranges.toList, OneSign (ws.quantity raw) value r) :
    ranges.covers (ws.quantity raw) (value.meaning (ws.quantity raw)) = true ↔
      ∃ r ∈ ranges.toList,
        r.Contains (ws.quantity raw) (value.meaning (ws.quantity raw)).toInt := by
  obtain ⟨hv, hends⟩ := ready_inside_iff.1 h
  rw [Ranges.covers_eq_any, List.any_eq_true]
  refine exists_congr fun r => and_congr_right fun hmem => ?_
  obtain ⟨hlow, hhigh⟩ := hends r hmem
  exact Range.covers_iff_contains (hl.inRange_meaning hv hr) (hl.inRange_meaning hlow hr)
    (hl.inRange_meaning hhigh hr) (hsign r hmem).1 (hsign r hmem).2

/-- **Membership is exact, and it depends on the set of the ranges only.** A test that was lowered
to `t` is a bit. Where the value and the ends of the ranges have one signedness, it is true exactly
if the integer of the value is that of a point or lies in an interval. Whatever the signednesses,
ranges with the same ends lower to `t` itself, and the test of a longer list is the disjunction of
the tests of its two parts, whichever is asked for first. Only the storage can be too small for what
is asked for. -/
theorem Reached.membership_exact (hz : Reached ws z)
    (ht : Lowered ws z (.inside value ranges) t) :
    (∃ f, t = .ofBit f ∧ ∀ ρ, (∃ raw, z.Reads ρ raw) ∧ ∀ raw, z.Reads ρ raw →
      (∀ r ∈ ranges.toList, OneSign (ws.quantity raw) value r) →
      ∃ b, z.solver.store.evaluate f ρ = .ok b ∧ (b = true ↔ ∃ r ∈ ranges.toList,
        r.Contains (ws.quantity raw) (value.meaning (ws.quantity raw)).toInt)) ∧
    (∀ ranges', ranges.Same ranges' → (∃ z', Runs ws z (.inside value ranges') (.ok t) z') ∨
      Exceeds z (Lowering.lower ws (.inside value ranges')).run) ∧
    ∀ ranges' whole t', Lowered ws z (.inside value ranges') t' →
      whole.toList = ranges.toList ++ ranges'.toList →
      ((∃ u z₁ z₂, Runs ws z (.inside value whole) (.ok u) z₁ ∧
        (Lowering.or t t').run.run z₁ = .ok (.ok u, z₂)) ∨
          Exceeds z (Lowering.lower ws (.inside value whole)).run) ∧
      ((∃ u z₁, (Lowering.or t t').run.run z = .ok (.ok u, z₁) ∧
        ((∃ z₂, Runs ws z₁ (.inside value whole) (.ok u) z₂) ∨
          Exceeds z₁ (Lowering.lower ws (.inside value whole)).run)) ∨
        Outgrows z (Lowering.or t t').run) := by
  have hsound := hz.sound
  have hv := hz.valid
  have hmeans := ht.means
  refine ⟨?_, fun ranges' hsame => ?_, fun ranges' whole t' ht' hwhole => ⟨?_, ?_⟩⟩
  · obtain ⟨f, rfl, hf⟩ := hmeans.exists_bit hv
    refine ⟨f, rfl, fun ρ => ⟨⟨_, hv.reads_reading ρ⟩, fun raw hr hsign => ?_⟩⟩
    exact ⟨_, hf ρ raw hr, hv.covers_iff_contains ht.ready hr hsign⟩
  · refine hmeans.runs_of_ready hsound (ht.ready.of_same hsame) fun fields => ?_
    exact congrArg flag hsame.symm.covers_eq
  · -- the whole test first, whose bit is that of the disjunction
    refine (hsound.runs_of_ready (ht.ready.append ht'.ready hwhole)).imp_left
      fun ⟨u, z₁, hr, _⟩ => ?_
    obtain ⟨hz₁, hg, hu, -⟩ := hv.of_runs hr
    have hu' := hu.congr fun fields => congrArg flag (Ranges.covers_of_append hwhole)
    obtain ⟨z₂, hor⟩ := hz₁.run_or_of_means (hmeans.grow hv hg) (ht'.means.grow hv hg) hu'
    exact ⟨u, z₁, z₂, hr, hor⟩
  · -- the disjunction first
    refine (hv.succeeds_or hmeans ht'.means).run_or_outgrows.imp_left
      fun ⟨u, z₁, hor, hbounded, hz₁, hg, _, hu⟩ => ⟨u, z₁, hor, ?_⟩
    have hsound₁ : Sound ws z₁ :=
      ⟨hz₁, hbounded.trans hsound.bounded, hsound.growsTo.trans hg.store⟩
    exact (hu.append hwhole).runs_of_ready hsound₁
      ((ht.ready.append ht'.ready hwhole).grow hg) fun _ => rfl

/-- An unsigned number of two bits. -/
def small (n : Fin 4) : Expr :=
  .literal ⟨n, 2, false, Nat.two_pos, Nat.le_of_ble_eq_true rfl, n.isLt⟩

/-- The number two, and an interval whose ends are in the wrong order. -/
def onlyTwo : Ranges := .cons (.point (small 2)) (.single (.interval (small 3) (small 1)))

/-- The same ranges in the other order, with the point twice and as an interval. -/
def onlyTwoAgain : Ranges :=
  .cons (.interval (small 3) (small 1)) (.cons (.interval (small 2) (small 2))
    (.single (.point (small 2))))

/-- The test is true for two and not for three, and the other ranges lower to the same bit. -/
theorem onlyTwo_membership_exact : ∃ f z,
    Runs twoBits (start (.ofSeed 0 .interleaved)) (.inside (.field ⟨0⟩) onlyTwo)
      (.ok (.ofBit f)) z ∧
      (∃ ρ, z.Reads ρ (fun _ => 2) ∧ z.solver.store.evaluate f ρ = .ok true) ∧
      (∃ ρ, z.Reads ρ (fun _ => 3) ∧ z.solver.store.evaluate f ρ = .ok false) ∧
      ∃ z', Runs twoBits z (.inside (.field ⟨0⟩) onlyTwoAgain) (.ok (.ofBit f)) z' := by
  have hboth : ((lower twoBits (.inside (.field ⟨0⟩) onlyTwo) >>= fun _ =>
      lower twoBits (.inside (.field ⟨0⟩) onlyTwoAgain)).run.run
        (start (.ofSeed 0 .interleaved))).isOk = true := by
    decide +kernel
  have hstart : Reached twoBits (start (.ofSeed 0 .interleaved)) := .new
  have hshape : (Expr.inside (.field ⟨0⟩) onlyTwo).shape twoBits = .ok ⟨1, false⟩ := rfl
  have hmentions : (Expr.inside (.field ⟨0⟩) onlyTwo).mentions = [⟨0⟩] := rfl
  obtain ⟨t, z, hr, hfields⟩ := (hstart.sound.runs_or_exceeds hshape).resolve_right
    (not_exceeds_of_isOk (by decide +kernel))
  rw [hmentions] at hfields
  rw [run_bind hr] at hboth
  have hz : Reached twoBits z := hstart.lower hr
  obtain ⟨⟨f, rfl, hf⟩, hsame, -⟩ := hz.membership_exact ⟨_, _, hstart, hr, GrowsTo.refl _ z⟩
  have hreads : ∀ n, n < 4 → ∃ ρ, z.Reads ρ fun _ => n := fun n hn =>
    hz.valid.exists_reads fun f hf => by
      rw [hfields] at hf
      have hmem : f ∈ [(⟨0⟩ : Field)] := hf
      rw [List.mem_singleton.1 hmem]
      exact hn
  have hsign : ∀ raw, ∀ r ∈ onlyTwo.toList, OneSign (twoBits.quantity raw) (.field ⟨0⟩) r :=
    fun raw => List.forall_mem_cons.2 ⟨⟨rfl, rfl⟩, List.forall_mem_singleton.2 ⟨rfl, rfl⟩⟩
  refine ⟨f, z, hr, ?_, ?_, (hsame onlyTwoAgain fun p => ?_).resolve_right
    (not_exceeds_of_isOk hboth)⟩
  · obtain ⟨ρ, hρ⟩ := hreads 2 (by decide)
    obtain ⟨b, hb, hiff⟩ := (hf ρ).2 _ hρ (hsign _)
    refine ⟨ρ, hρ, hb.trans (congrArg Except.ok (hiff.2 ?_))⟩
    exact ⟨_, List.mem_cons_self, rfl⟩
  · obtain ⟨ρ, hρ⟩ := hreads 3 (by decide)
    obtain ⟨b, hb, hiff⟩ := (hf ρ).2 _ hρ (hsign _)
    refine ⟨ρ, hρ, hb.trans (congrArg Except.ok (Bool.eq_false_iff.2 fun htrue => ?_))⟩
    obtain ⟨r, hmem, hcontains⟩ := hiff.1 htrue
    -- three is not two, and it is not at most one
    rcases List.mem_cons.1 hmem with rfl | hmem
    · have heq : (3 : Int) = 2 := hcontains
      cases heq
    · rw [List.mem_singleton.1 hmem] at hcontains
      have hle : (3 : Int) ≤ 1 := hcontains.2
      omega
  · simp only [onlyTwo, onlyTwoAgain, Ranges.toList, List.map_cons, List.map_nil, Range.ends,
      List.mem_cons, List.not_mem_nil, or_false]
    rw [or_self, or_comm]

end Stimulus.Lowering

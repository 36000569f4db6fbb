import Ratchet.Proofs.Program.Bounded
import Ratchet.Proofs.Program.Copying

/-!
# Ticks with finitely many facts in reach

A tick without a bound may go on for ever.  If its relations are sets, and the rules never write a
fact outside of some finite sets as long as the relations are inside these, then it does not.

Rules are evaluated in the middle of a pass, on what the rules before them have left.  All of these
stores are inside the finite sets, as a deposit that writes facts of a store leads to nothing that
is not below the store (`exists_pass_of_writesInto`).  A pass that reports a change has moved up,
and of two sets of which one is strictly below the other, that one has fewer members
(`Store.tupleCount_lt`).  So each pass but the last one adds a fact, and the facts that are missing
count the passes (`exists_settle_of_writesInto`).

Nothing is asked of the rules beyond that.  They may withdraw on a greater store what they have
asked for before: what was deposited stays, and so the number of facts still grows.

## Main result

* `Program.tick_of_finite`: the tick settles, inside the finite sets, with a bound on its passes.
-/

namespace Ratchet

open Ratchet.Lattice Ratchet.Relation

/-! ## Counting facts -/

/-- The number of facts in a relation. -/
def Slot.tupleCount (s : Slot) : Nat := (tuples s.value).length

/-- The relation is a set. -/
def Slot.IsSet (s : Slot) : Prop := ∃ f, s.type = .set f

theorem Slot.IsSet.of_sameShape {s t : Slot} (hs : s.IsSet) (hst : s.SameShape t) : t.IsSet := by
  obtain ⟨v, rfl⟩ := hst
  exact hs

theorem Slot.tupleCount_le {s t : Slot} (hs : s.IsSet) (hst : s.Below t) :
    s.tupleCount ≤ t.tupleCount ∧ (t.tupleCount ≤ s.tupleCount → s = t) := by
  obtain ⟨v, hv, rfl⟩ := hst
  obtain ⟨name, type, value, scratch, channel, input, output⟩ := s
  obtain ⟨f, hf⟩ := hs
  dsimp only at hf
  subst hf
  have hle : value.size ≤ v.size := GrowSet.size_le_of_forall_mem (GrowSet.below_iff.1 hv)
  refine ⟨hle, fun hge => ?_⟩
  obtain rfl : value = v := GrowSet.eq_of_size_le (GrowSet.below_iff.1 hv) hge
  rfl

namespace Store

variable {S T U : Store}

/-- The number of facts in all relations. -/
def tupleCount (S : Store) : Nat := S.foldr (fun s count => s.tupleCount + count) 0

theorem below_cons {s t : Slot} : Store.Below (s :: S) (t :: T) ↔ s.Below t ∧ S.Below T := by
  constructor
  · rintro ⟨hlength, hslots⟩
    refine ⟨hslots 0 s t rfl rfl, Nat.succ.inj hlength, ?_⟩
    intro i a b ha hb
    exact hslots (i + 1) a b ha hb
  · rintro ⟨hst, hlength, hslots⟩
    refine ⟨congrArg Nat.succ hlength, ?_⟩
    intro i a b ha hb
    cases i with
    | zero =>
        cases ha
        cases hb
        exact hst
    | succ i => exact hslots i a b ha hb

theorem tupleCount_le (hS : ∀ s ∈ S, s.IsSet) (hST : S.Below T) :
    S.tupleCount ≤ T.tupleCount ∧ (T.tupleCount ≤ S.tupleCount → S = T) := by
  induction S generalizing T with
  | nil =>
      obtain rfl : T = [] := List.length_eq_zero_iff.1 hST.1.symm
      exact ⟨Nat.le_refl _, fun _ => rfl⟩
  | cons s S ih =>
      cases T with
      | nil => cases hST.1
      | cons t T =>
          obtain ⟨hst, hrest⟩ := below_cons.1 hST
          obtain ⟨hs, hsets⟩ := List.forall_mem_cons.1 hS
          obtain ⟨hle, heq⟩ := Slot.tupleCount_le hs hst
          obtain ⟨hle', heq'⟩ := ih hsets hrest
          simp only [tupleCount, List.foldr_cons] at hle' heq' ⊢
          refine ⟨by omega, fun hge => ?_⟩
          rw [heq (by omega), heq' (by omega)]

/-- A store of sets that is strictly below another one holds fewer facts. -/
theorem tupleCount_lt (hS : ∀ s ∈ S, s.IsSet) (hST : S.Below T) (hne : T ≠ S) :
    S.tupleCount < T.tupleCount := by
  obtain ⟨_, heq⟩ := tupleCount_le hS hST
  by_contra hnot
  exact hne (heq (by omega)).symm

end Store

/-! ## Inside a store -/

/-- The same slot, and all facts of the first one are facts of the second one. -/
def Slot.Inside (s u : Slot) : Prop :=
  ∃ v : s.type.Value, (∀ x ∈ tuples s.value, x ∈ tuples v) ∧ u = { s with value := v }

/-- The same slots, and all facts of the first store are facts of the second one. -/
def Store.Inside (S U : Store) : Prop :=
  S.length = U.length ∧
    ∀ (i : Nat) (s u : Slot), S[i]? = some s → U[i]? = some u → s.Inside u

/-- The facts that are written. -/
def Write.tuples : (w : Write) → List w.type.Tuple
  | .add _ tuple => [tuple]
  | .merge _ value => Relation.tuples value

/-- The deposit is made for a relation of the store, and writes facts only that this relation
has. -/
def Deposit.WritesInto (d : Deposit) (U : Store) : Prop :=
  ∃ u, U[d.slot]? = some u ∧ ∃ h : u.type = d.write.type,
    ∀ x ∈ d.write.tuples, x ∈ Relation.tuples (h ▸ u.value : d.write.type.Value)

theorem Slot.inside_iff_below {s u : Slot} (hs : s.IsSet) : s.Inside u ↔ s.Below u := by
  obtain ⟨name, type, value, scratch, channel, input, output⟩ := s
  obtain ⟨f, hf⟩ := hs
  dsimp only at hf
  subst hf
  exact exists_congr fun v => and_congr_left fun _ => GrowSet.below_iff.symm

theorem Store.inside_iff_below {S U : Store} (hS : ∀ s ∈ S, s.IsSet) :
    S.Inside U ↔ S.Below U := by
  refine and_congr_right fun _ => ?_
  constructor
  · intro h i s u hs hu
    exact (Slot.inside_iff_below (hS s (List.mem_of_getElem? hs))).1 (h i s u hs hu)
  · intro h i s u hs hu
    exact (Slot.inside_iff_below (hS s (List.mem_of_getElem? hs))).2 (h i s u hs hu)

theorem Write.applyTo_of_tuples {f : FactType} (w : Write) (v : w.type.Value)
    (hf : w.type = .set f) (hmem : ∀ x ∈ w.tuples, x ∈ Relation.tuples v) :
    w.applyTo v = .ok (v, false) := by
  cases w with
  | add t x =>
      obtain rfl : t = .set f := hf
      exact GrowSet.absorbs_iff.2 (hmem x List.mem_cons_self)
  | merge t whole =>
      obtain rfl : t = .set f := hf
      exact merge_eq_self_iff.2 (GrowSet.below_iff.2 hmem)

/-- A deposit that writes into a store of sets is held by it. -/
theorem Deposit.WritesInto.held {d : Deposit} {U : Store} (h : d.WritesInto U)
    (hU : ∀ u ∈ U, u.IsSet) : d.Held U := by
  obtain ⟨u, hu, htype, hmem⟩ := h
  obtain ⟨f, hf⟩ := hU u (List.mem_of_getElem? hu)
  have hread : (Facts.mk 0 U).get (⟨⟨0, d.slot⟩⟩ : Handle d.write.type) = .ok (htype ▸ u.value) :=
    Facts.get_eq_ok.2 ⟨rfl, u, hu, Slot.valueAs_eq_ok.2 ⟨htype, rfl⟩⟩
  exact (held_iff hread).2 (d.write.applyTo_of_tuples _ (htype.symm.trans hf) hmem)

/-! ## Passes -/

section Passes

variable {program : Nat} {rs : List Rule} {S T U : Store}

/-- On every store inside `U` the rule writes only facts of `U`. -/
def Rule.WritesInto (program : Nat) (r : Rule) (U : Store) : Prop :=
  ∀ S : Store, S.Inside U → ∃ ds, r.consequences ⟨program, S⟩ = .ok ds ∧ ∀ d ∈ ds, d.WritesInto U

theorem Store.SameShape.forall_isSet (hST : S.SameShape T) (hS : ∀ s ∈ S, s.IsSet) :
    ∀ t ∈ T, t.IsSet := by
  intro t ht
  obtain ⟨i, ht⟩ := List.getElem?_of_mem ht
  obtain ⟨s, hs⟩ := exists_of_length_eq hST.1.symm ht
  exact (hS s (List.mem_of_getElem? hs)).of_sameShape (hST.2 i s t hs ht)

/-- A pass that starts inside `U` ends there. -/
theorem exists_pass_of_writesInto (hrules : ∀ r ∈ rs, r.WritesInto program U)
    (hS : ∀ s ∈ S, s.IsSet) (hSU : S.Below U) :
    ∃ T changed, pass program rs S = .ok (T, changed) ∧ T.Below U := by
  induction rs generalizing S with
  | nil => exact ⟨S, false, rfl, hSU⟩
  | cons r rs ih =>
      obtain ⟨hr, hrs⟩ := List.forall_mem_cons.1 hrules
      obtain ⟨ds, hds, hwrites⟩ := hr S ((Store.inside_iff_below hS).2 hSU)
      have hheld : ∀ d ∈ ds, d.Held U := fun d hd =>
        (hwrites d hd).held (hSU.sameShape.forall_isSet hS)
      obtain ⟨R, count, hall⟩ := Store.exists_depositAll program hSU hheld
      obtain ⟨hSR, _, hleast, _⟩ := Store.depositAll_least hall
      have hRU : R.Below U := hleast U hSU hheld
      obtain ⟨T, more, hpass, hTU⟩ := ih hrs (hSR.sameShape.forall_isSet hS) hRU
      obtain ⟨changed, hpass'⟩ := exists_pass_cons (Rule.fire_eq_ok.2 ⟨ds, count, hds, hall⟩) hpass
      exact ⟨T, changed, hpass', hTU⟩

/-- Passes that start inside `U` settle there.  All of them but the last one add a fact. -/
theorem exists_settle_of_writesInto {limit : Nat} (done : Nat)
    (hrules : ∀ r ∈ rs, r.WritesInto program U) (hS : ∀ s ∈ S, s.IsSet) (hSU : S.Below U)
    (hlimit : U.tupleCount - S.tupleCount < limit) :
    ∃ T count, settle program rs limit done S = .ok (.stable T count) ∧ S.Below T ∧ T.Below U ∧
      count ≤ done + (U.tupleCount - S.tupleCount) + 1 := by
  induction limit generalizing S done with
  | zero => exact absurd hlimit (Nat.not_lt_zero _)
  | succ limit ih =>
      obtain ⟨T, changed, hpass, hTU⟩ := exists_pass_of_writesInto hrules hS hSU
      obtain ⟨hST, hchanged⟩ := pass_growth hpass
      rw [settle, hpass]
      cases changed with
      | false => exact ⟨T, done + 1, rfl, hST, hTU, by omega⟩
      | true =>
          have hT := hST.sameShape.forall_isSet hS
          have hmore : S.tupleCount < T.tupleCount := Store.tupleCount_lt hS hST (hchanged.1 rfl)
          have hroom : T.tupleCount ≤ U.tupleCount := (Store.tupleCount_le hT hTU).1
          obtain ⟨V, count, hsettle, hTV, hVU, hcount⟩ :=
            ih (done + 1) hT hTU (by omega)
          exact ⟨V, count, hsettle, hST.trans hTV, hVU, by omega⟩

end Passes

/-! ## Rules that stay inside -/

section Rules

variable {t : RelationType} {program : Nat} {S U : Store} {h : Handle t} {v : t.Value}

theorem Store.Inside.exists_get (hSU : S.Inside U) (hv : (Facts.mk program U).get h = .ok v) :
    ∃ w, (Facts.mk program S).get h = .ok w ∧ ∀ x ∈ tuples w, x ∈ tuples v := by
  obtain ⟨hprogram, u, hu, hread⟩ := Facts.get_eq_ok.1 hv
  obtain ⟨htype, rfl⟩ := Slot.valueAs_eq_ok.1 hread
  obtain ⟨s, hs⟩ := exists_of_length_eq hSU.1.symm hu
  obtain ⟨w, hw, rfl⟩ := hSU.2 _ s u hs hu
  dsimp only at htype
  subst htype
  exact ⟨s.value, Facts.get_eq_ok.2 ⟨hprogram, s, hs, Slot.valueAs_eq_ok.2 ⟨rfl, rfl⟩⟩, hw⟩

theorem writesInto_add (hv : (Facts.mk program U).get h = .ok v) {x : t.Tuple}
    (hx : x ∈ tuples v) : (Deposit.mk h.id.slot (.add t x)).WritesInto U := by
  obtain ⟨_, u, hu, hread⟩ := Facts.get_eq_ok.1 hv
  obtain ⟨htype, rfl⟩ := Slot.valueAs_eq_ok.1 hread
  exact ⟨u, hu, htype, List.forall_mem_singleton.2 hx⟩

/-- A copy stays inside if the facts in reach of its source are in reach of its target. -/
theorem copyRule_writesInto {source target : Handle t} {w : t.Value} {sources : List String}
    {targetName : String} {timing : Timing} (hsource : (Facts.mk program U).get source = .ok v)
    (htarget : (Facts.mk program U).get target = .ok w) (hvw : ∀ x ∈ tuples v, x ∈ tuples w) :
    (copyRule source target sources targetName timing).WritesInto program U := by
  intro S hSU
  obtain ⟨r, hr, hrv⟩ := hSU.exists_get hsource
  refine ⟨_, consequences_copyRule hr, List.forall_mem_map.2 fun x hx => ?_⟩
  exact writesInto_add htarget (hvw x (hrv x hx))

end Rules

/-! ## Ticks -/

namespace Program

variable {p : Program} {U start : Store} {applied : Nat}

/-- A tick of a program over sets comes to its end, whatever its rules are, if there are finite sets
that its passes start in and that the rules of the same tick write nothing outside of.

It ends inside these sets, and takes at most one pass more than facts of theirs were missing at the
start.  No more than the rules of the next tick can break it off. -/
theorem tick_of_finite (hsets : ∀ s ∈ p.store, s.IsSet) (hlimit : p.passLimit = none)
    (hstart : p.store.resetScratch.depositAll p.id p.pending = .ok (start, applied))
    (hinside : start.Inside U) (hrules : ∀ r ∈ p.sameTickRules, r.WritesInto p.id U) :
    ∃ final count, count ≤ U.tupleCount - start.tupleCount + 1 ∧ final.Inside U ∧
      (∀ patience, count ≤ patience →
        p.tick patience = (allConsequences ⟨p.id, final⟩ p.nextTickRules).map fun queue =>
          ({ p with store := final, pending := queue, ticks := p.ticks + 1 },
            .ok ⟨p.ticks, count, applied, queue.length⟩)) ∧
      ((∀ r ∈ p.nextTickRules, ∃ ds, r.consequences ⟨p.id, final⟩ = .ok ds) →
        ∀ patience, count ≤ patience →
          ∃ q report, p.tick patience = .ok (q, .ok report) ∧ q.store = final ∧
            report.passes = count) := by
  have hstartSets := (sameShape_start hstart).forall_isSet hsets
  have hbelow : start.Below U := (Store.inside_iff_below hstartSets).1 hinside
  obtain ⟨final, count, hsettle, hgrown, hfinal, hcount⟩ :=
    exists_settle_of_writesInto 0 hrules hstartSets hbelow (Nat.lt_succ_self _)
  have hfinalSets := hgrown.sameShape.forall_isSet hstartSets
  have hend : ∀ patience, count ≤ patience →
      p.tick patience = (allConsequences ⟨p.id, final⟩ p.nextTickRules).map fun queue =>
        ({ p with store := final, pending := queue, ticks := p.ticks + 1 },
          .ok ⟨p.ticks, count, applied, queue.length⟩) := by
    intro patience hpatience
    have hsettle' : settle p.id p.sameTickRules patience 0 start = .ok (.stable final count) :=
      settle_of_le hsettle (by omega)
    unfold tick
    simp only [hstart, hlimit, Option.getD_none, hsettle', bind, Except.bind]
    cases allConsequences ⟨p.id, final⟩ p.nextTickRules <;> rfl
  refine ⟨final, count, by omega, (Store.inside_iff_below hfinalSets).2 hfinal, hend, ?_⟩
  intro hnext patience hpatience
  obtain ⟨queue, hqueue⟩ := exists_allConsequences hnext
  refine ⟨{ p with store := final, pending := queue, ticks := p.ticks + 1 },
    ⟨p.ticks, count, applied, queue.length⟩, ?_, rfl, rfl⟩
  rw [hend patience hpatience, hqueue]
  rfl

/-- Two sets, each copied to the other one, and zero enters the second as long as the first is
empty.  That rule asks for less when it has been heard. -/
def withdrawing : Program :=
  let script : Setup Unit := do
    let first ← Setup.declare (.set .int) "first"
    let second ← Setup.declare (.set .int) "second"
    Setup.join .unit second .sameTick fun facts () => do
      return if (← facts.tuples first).isEmpty then some 0 else none
    Setup.copy first second .sameTick
    Setup.copy second first .sameTick
  (script.runOn (create 0 "n" none)).2

/-- The facts in reach of the two sets: zero in both of them. -/
def zeros : Store :=
  [{ Slot.fresh "first" (.set .int) with value := GrowSet.singleton (0 : Int64) },
    { Slot.fresh "second" (.set .int) with value := GrowSet.singleton (0 : Int64) }]

theorem withdrawing_writesInto :
    ∀ r ∈ withdrawing.sameTickRules, r.WritesInto withdrawing.id zeros := by
  have hfirst : (Facts.mk 0 zeros).get (⟨⟨0, 0⟩⟩ : Handle (.set .int)) =
      .ok (GrowSet.singleton (0 : Int64)) := rfl
  have hsecond : (Facts.mk 0 zeros).get (⟨⟨0, 1⟩⟩ : Handle (.set .int)) =
      .ok (GrowSet.singleton (0 : Int64)) := rfl
  have hdefault : ∀ r : Rule, r.target = 1 →
      (r.evaluate = Rule.selectRows .unit (writing (.add (.set .int)) fun facts _ => do
        return if (← facts.tuples (⟨⟨0, 0⟩⟩ : Handle (.set .int))).isEmpty then some 0 else none)) →
      r.WritesInto 0 zeros := by
    intro r htarget hr S hSU
    obtain ⟨v, hv, _⟩ := hSU.exists_get hfirst
    have hout : (do
        return if (← (Facts.mk 0 S).tuples (⟨⟨0, 0⟩⟩ : Handle (.set .int))).isEmpty then some 0
          else none : Except Fault (Option Int64)) =
        .ok (if v.elements.isEmpty then some 0 else none) :=
      bind_eq_ok.2 ⟨_, bind_eq_ok.2 ⟨v, hv, rfl⟩, rfl⟩
    refine ⟨_, (Rule.consequences_eq hr).trans (congrArg _ (selected_unit hout)), ?_⟩
    rw [htarget]
    refine List.forall_mem_map.2 fun x hx => writesInto_add hsecond ?_
    -- what the rule asks for, if anything, is zero
    split at hx
    · exact hx
    · cases hx
  intro r hr
  rcases (List.mem_filter.1 hr).1 with _ | ⟨_, _ | ⟨_, _ | ⟨_, hr⟩⟩⟩
  · exact hdefault _ rfl rfl
  · exact copyRule_writesInto hfirst hsecond fun _ hx => hx
  · exact copyRule_writesInto hsecond hfirst fun _ hx => hx
  · cases hr

/-- Only zero is in reach of the two sets, so that three passes are enough. -/
theorem tick_of_finite_withdrawing :
    ∃ q report, withdrawing.tick 3 = .ok (q, .ok report) ∧ report.passes ≤ 3 ∧
      q.store.Inside zeros := by
  have hsets : ∀ s ∈ withdrawing.store, s.IsSet := by
    rintro s (_ | ⟨_, _ | ⟨_, hs⟩⟩)
    · exact ⟨.int, rfl⟩
    · exact ⟨.int, rfl⟩
    · cases hs
  have hzero : ∀ name, (Slot.fresh name (.set .int)).Below
      { Slot.fresh name (.set .int) with value := GrowSet.singleton (0 : Int64) } :=
    fun _ => ⟨GrowSet.singleton (0 : Int64), GrowSet.below_iff.2 nofun, rfl⟩
  have hinside : withdrawing.store.Inside zeros := (Store.inside_iff_below hsets).2 <|
    Store.below_cons.2 ⟨hzero _, Store.below_cons.2 ⟨hzero _, Store.below_refl []⟩⟩
  obtain ⟨final, count, hcount, hfinal, _, hdone⟩ :=
    tick_of_finite hsets rfl rfl hinside withdrawing_writesInto
  have hthree : count ≤ 3 := hcount
  obtain ⟨q, report, htick, rfl, rfl⟩ := hdone nofun 3 hthree
  exact ⟨q, report, htick, hthree, hfinal⟩

end Program

end Ratchet

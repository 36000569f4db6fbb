import Ratchet.Protocol.Threshold
import Ratchet.Proofs.Program.Layout
import Ratchet.Proofs.Threshold.Calls

/-!
# Counting voters

A count has two rules.  The first one copies the votes to the total, and the second one compares the
size of the total with the threshold and raises a flag.  The comparison is not monotone, as a
greater threshold asks for more, and a raised flag is never lowered.  So one comparison with a total
or a threshold that is not the final one of its tick would show for ever.

There is none.  The rules stand in the order in which they depend on each other, so the first pass
of a tick has copied all votes when it compares, and leaves nothing to do for the second
(`Holds.exists_pass`).  The threshold does not change in the course of a tick.  Between ticks
nothing is compared at all; what the next tick starts from just takes up what comes in
(`Collects.of_call`).  After every tick the total is the set of all votes, then, and the flag tells
whether at some tick there were enough of them (`Counts.of_tick`).

## Main result

* `run_counts`: total and flag of a tally or a quorum after each tick of a run.
-/

namespace Ratchet.Threshold

/-! ## Declarations -/

/-- The handles of a count on a program of its own. -/
def countOf (id : Nat) : Threshold where
  votes := ⟨⟨id, 0⟩⟩
  need := ⟨⟨id, 1⟩⟩
  done := ⟨⟨id, 2⟩⟩
  total := ⟨⟨id, 3⟩⟩

/-- The relations of a count. -/
def slots (votes need done total : String) : Store :=
  [(Slot.fresh votes (.set .text)).mark .input, .fresh need .max,
    (Slot.fresh done .flag).mark .output, .fresh total (.set .text)]

/-- The rule that copies votes to the total. -/
def copyRule (m : Threshold) (votes total : String) : Rule :=
  joinRule [votes] total (.of m.votes) m.total .sameTick fun _ voter => .ok (some voter)

/-- The rule that compares the total with the threshold. -/
def compareRule (m : Threshold) (done : String) : Rule :=
  joinRule [] done .unit m.done .sameTick fun facts _ => reached m.total m.need facts

/-- The names that a count is declared under. -/
structure Names where
  votes : String
  need : String
  done : String
  total : String

/-- What a count is made of. -/
def layout (names : Names) : Layout Threshold where
  handles := countOf
  slots := slots names.votes names.need names.done names.total
  rules m _ := [copyRule m names.votes names.total, compareRule m names.done]

variable {id : Nat} {here scope votes need done total : String} {limit : Option Nat}
  {names : Names} {m : Threshold} {p q : Program}

/-- Declaring a count on a fresh program succeeds if the names differ. -/
theorem runOn_declare (hnames : [votes, need, done, total].Nodup) :
    (declare votes need done total).runOn (.create id here limit) =
      (.ok (countOf id), { Program.create id here limit with
        store := slots votes need done total
        rules := [copyRule (countOf id) votes total, compareRule (countOf id) done] }) := by
  simp only [List.nodup_cons, List.mem_cons, List.not_mem_nil, or_false, not_or] at hnames
  obtain ⟨⟨hvn, hvd, hvt⟩, ⟨hnd, hnt⟩, hdt, _⟩ := hnames
  simp only [declare, Setup.copy, Setup.declare, Setup.mark, Setup.extendOnly, Setup.join,
    Setup.runOn_bind, Setup.runOn_extend, Setup.runOn_pure, Program.create]
  simp [Program.declare, Program.mark, Program.slotOf, Program.facts, Facts.slot, bind,
    Except.bind, pure, Except.pure, Program.join, Program.addRule, Program.nameOf, Source.of,
    Source.unit, Slot.fresh, Slot.mark, hvn, hvd, hvt, hnd, hnt, hdt]
  and_intros <;> rfl

/-- The program was set up as a tally or as a quorum, and as nothing else. -/
def Declared (m : Threshold) (limit : Option Nat) (p : Program) : Prop :=
  ∃ id here scope, (tally scope).runOn (.create id here limit) = (.ok m, p) ∨
    (quorum scope).runOn (.create id here limit) = (.ok m, p)

/-- What the relations of a count hold. -/
def Holds (m : Threshold) (program : Nat) (S : Store) (all : GrowSet String) (n : MaxInt)
    (flag : Flag) (kept : GrowSet String) : Prop :=
  S.Reads program [⟨m.votes, all⟩, ⟨m.need, n⟩, ⟨m.done, flag⟩, ⟨m.total, kept⟩]

/-- A count that was just declared holds nothing. -/
theorem hosted_of_declare (hnames : [names.votes, names.need, names.done, names.total].Nodup)
    (hrun : (declare names.votes names.need names.done names.total).runOn
      (.create id here limit) = (.ok m, p)) :
    (layout names).Hosted m p ∧ p.passLimit = limit ∧ p.pending = [] ∧
      m.Holds p.id p.store .empty ⟨0⟩ ⟨false⟩ .empty := by
  obtain ⟨hm, _, hlimit, hpending, hstore⟩ :=
    (layout names).hosted_of_runOn (runOn_declare hnames) hrun
  refine ⟨hm, hlimit, hpending, ⟨?_, by simp [hm.handles_eq, layout, countOf]⟩⟩
  rw [hm.handles_eq, hstore]
  and_intros
  all_goals exact Facts.get_eq_ok.2 ⟨rfl, _, rfl, Slot.valueAs_eq_ok.2 ⟨rfl, rfl⟩⟩

theorem Declared.hosted (h : m.Declared limit p) :
    ∃ names, (layout names).Hosted m p ∧ p.passLimit = limit ∧ p.pending = [] ∧
      m.Holds p.id p.store .empty ⟨0⟩ ⟨false⟩ .empty := by
  obtain ⟨id, here, scope, hrun | hrun⟩ := h
  · exact ⟨⟨_, _, _, _⟩, hosted_of_declare (by simp) hrun⟩
  · exact ⟨⟨_, _, _, _⟩, hosted_of_declare (by simp) hrun⟩

/-! ## The rules -/

variable {program : Nat} {S : Store} {all kept : GrowSet String} {n : MaxInt} {flag : Flag}

namespace Holds

variable (h : m.Holds program S all n flag kept)

include h

/-- The first rule makes the total the set of all votes. -/
theorem fire_copyRule (votes total : String) (hkept : ∀ voter ∈ kept, voter ∈ all) :
    (copyRule m votes total).fire program S = .ok (S.assign m.total all) := by
  obtain ⟨hvotes, _, _, htotal⟩ := h.get_eq
  have hrows : (Source.of m.votes).rows ⟨program, S⟩ = .ok all.elements := Source.rows_of hvotes
  have hadd : Relation.addAll kept (all.elements.filterMap some) = .ok all := by
    rw [List.filterMap_some, GrowSet.addAll_eq]
    refine congrArg Except.ok (GrowSet.ext_mem fun voter => ?_)
    rw [GrowSet.mem_foldl_insert]
    exact or_iff_right_of_imp (hkept voter)
  exact (Rule.fire_join rfl rfl htotal).2
    ⟨_, _, selected_of_forall hrows fun _ => rfl, hadd, rfl⟩

/-- The second rule raises the flag if there are enough voters. -/
theorem fire_compareRule (done : String) : (compareRule m done).fire program S =
    .ok (S.assign m.done ⟨flag.value || decide (n.value.toInt ≤ kept.size)⟩) := by
  obtain ⟨_, hneed, hdone, htotal⟩ := h.get_eq
  have hselect : reached m.total m.need ⟨program, S⟩ =
      .ok (some (decide (n.value.toInt ≤ kept.size))) := by
    unfold reached
    rw [htotal, hneed]
    rfl
  exact Rule.fire_join_unit rfl rfl hdone hselect rfl

/-- The first pass of a tick copies all votes and then compares, and leaves nothing to do. -/
theorem exists_pass (hm : (layout names).Hosted m p) (hkept : ∀ voter ∈ kept, voter ∈ all) :
    ∃ U changed, pass program p.sameTickRules S = .ok (U, changed) ∧
      (∀ r ∈ p.sameTickRules, r.Closed program U) ∧
      m.Holds program U all n ⟨flag.value || decide (n.value.toInt ≤ all.size)⟩ all := by
  have hrules : p.sameTickRules =
      [copyRule m names.votes names.total, compareRule m names.done] := hm.sameTickRules_eq
  rw [hrules]
  have hcopied : m.Holds program (S.assign m.total all) all n flag all :=
    h.assign [_, _, _] [] all
  have hfinal : m.Holds program _ all n ⟨flag.value || decide (n.value.toInt ≤ all.size)⟩ all :=
    hcopied.assign [_, _] [_] _
  obtain ⟨_, _, hdone, htotal⟩ := hfinal.get_eq
  obtain ⟨_, hpass⟩ := exists_pass_cons (hcopied.fire_compareRule names.done)
    (show pass program [] _ = .ok (_, false) from rfl)
  obtain ⟨changed, hpass⟩ :=
    exists_pass_cons (h.fire_copyRule names.votes names.total hkept) hpass
  refine ⟨_, changed, hpass, ?_, hfinal⟩
  simp only [List.forall_mem_cons, List.not_mem_nil, false_implies, implies_true, and_true]
  constructor
  · have hfire := hfinal.fire_copyRule names.votes names.total fun _ hvoter => hvoter
    rwa [assign_of_get htotal] at hfire
  · have hfire := hfinal.fire_compareRule names.done
    rwa [Bool.or_assoc, Bool.or_self, assign_of_get hdone] at hfire

end Holds

/-! ## What a count has taken up -/

variable {calls : List (Call .text)} {call : Call .text} {patience : Nat} {report : TickReport}
  {outcome : Outcome} {history : List (Program × Outcome)}

/-- A set of all votes has as many members as there are voters. -/
theorem size_eq_card_voters (h : ∀ voter, voter ∈ all ↔ voter ∈ ballots calls) :
    all.size = (voters calls).card := by
  have hvoters : voters calls = all.elements.toFinset := by
    ext voter
    rw [mem_voters, List.mem_toFinset]
    exact (h voter).symm
  rw [hvoters, List.toFinset_card_of_nodup all.nodup_elements]
  rfl

/-- The count has taken up a history.  Its next tick starts from all votes and from the threshold in
force, with no one in the total who has not voted, and with a flag that tells about the ticks up to
now. -/
structure Counts (m : Threshold) (names : Names) (p : Program) (calls : List (Call .text)) :
    Prop where
  hosted : (layout names).Hosted m p
  counted : ∃ S kept flag, Collects m.votes m.need p S calls ∧
    (Facts.mk p.id S).get m.total = .ok kept ∧ (Facts.mk p.id S).get m.done = .ok flag ∧
    (∀ voter ∈ kept, voter ∈ ballots calls) ∧ (flag.value = true ↔ Reached calls)

/-- What a count tells after a tick. -/
def Exact (m : Threshold) (p : Program) (calls : List (Call .text)) : Prop :=
  ∃ total done, p.facts.get m.total = .ok total ∧ m.isDone p = .ok done ∧
    (∀ voter, voter ∈ total ↔ voter ∈ voters calls) ∧ (done = true ↔ Reached (calls ++ [.tick]))

namespace Counts

theorem of_declared (h : m.Declared limit p) : ∃ names, m.Counts names p [] := by
  obtain ⟨names, hm, _, hpending, hholds⟩ := h.hosted
  obtain ⟨hvotes, hneed, hdone, htotal⟩ := hholds.get_eq
  have hlasting := hm.lasting (by simp [layout, slots, Slot.mark, Slot.fresh])
  exact ⟨names, hm, p.store, .empty, ⟨false⟩, .of_empty hlasting hpending hvotes hneed, htotal,
    hdone, by simp, by simp [Reached]⟩

theorem of_call (h : m.Counts names p calls) (hcall : call ≠ .tick)
    (hperform : p.perform patience (call.action m.votes m.need) = .ok (q, outcome)) :
    m.Counts names q (calls ++ [call]) := by
  obtain ⟨hm, S, kept, flag, hcollects, htotal, hdone, hkept, hflag⟩ := h
  obtain ⟨T, hcollects', hother⟩ := hcollects.of_call hcall hperform
  refine ⟨hm.of_sameSetup (Program.sameSetup_of_perform hperform), T, kept, flag, hcollects',
    ?_, ?_, ?_, hflag.trans (reached_concat hcall).symm⟩
  · refine (hother ?_ ?_).trans htotal <;> simp [hm.handles_eq, layout, countOf]
  · refine (hother ?_ ?_).trans hdone <;> simp [hm.handles_eq, layout, countOf]
  · intro voter hvoter
    rw [ballots_concat]
    exact List.mem_append_left _ (hkept voter hvoter)

/-- The passes of the next tick, if they come to an end, make the total the set of all votes. -/
theorem exists_pass (h : m.Counts names p calls) :
    ∃ S U all n flag changed, Collects m.votes m.need p S calls ∧
      pass p.id p.sameTickRules S = .ok (U, changed) ∧
      (∀ r ∈ p.sameTickRules, r.Closed p.id U) ∧ m.Holds p.id U all n flag all ∧
      (Facts.mk p.id S).get m.votes = .ok all ∧ (Facts.mk p.id S).get m.need = .ok n ∧
      (∀ voter, voter ∈ all ↔ voter ∈ ballots calls) ∧
      (flag.value = true ↔ Reached (calls ++ [.tick])) := by
  obtain ⟨hm, S, kept, flag, hcollects, htotal, hdone, hkept, hflag⟩ := h
  obtain ⟨all, hall, hmem⟩ := hcollects.votes
  obtain ⟨n, hn, hthreshold⟩ := hcollects.need
  have hholds : m.Holds p.id S all n flag kept :=
    ⟨⟨hall, hn, hdone, htotal⟩, by simp [hm.handles_eq, layout, countOf]⟩
  obtain ⟨U, changed, hpass, hclosed, hfinal⟩ :=
    hholds.exists_pass hm fun voter hvoter => (hmem voter).2 (hkept voter hvoter)
  refine ⟨S, U, all, n, _, changed, hcollects, hpass, hclosed, hfinal, hall, hn, hmem, ?_⟩
  rw [reached_concat_tick, ← hflag, ← hthreshold, ← size_eq_card_voters hmem, Bool.or_eq_true,
    decide_eq_true_iff]

/-- After a tick the total is exact, and the flag tells about one more tick. -/
theorem of_tick (h : m.Counts names p calls) (htick : p.tick patience = .ok (q, .ok report)) :
    m.Counts names q (calls ++ [.tick]) ∧ m.Exact q calls := by
  have hm := h.hosted
  obtain ⟨S, U, all, n, flag, changed, hcollects, hpass, hclosed, hfinal, hall, hn, hmem, hflag⟩ :=
    h.exists_pass
  obtain ⟨hvotes, hneed, _⟩ := hfinal.get_eq
  obtain ⟨hid, rfl, hcollects'⟩ := hcollects.of_tick hpass hclosed hm.nextTickRules_eq
    (hvotes.trans hall.symm) (hneed.trans hn.symm) htick
  rw [← hid] at hfinal
  obtain ⟨_, _, hdone, htotal⟩ := hfinal.get_eq
  refine ⟨⟨hm.of_sameSetup (Program.sameSetup_of_tick htick), _, all, flag, hcollects',
    htotal, hdone, ?_, hflag⟩, all, flag.value, htotal, bind_eq_ok.2 ⟨_, hdone, rfl⟩, ?_, hflag⟩
  · intro voter hvoter
    rw [ballots_concat]
    exact List.mem_append_left _ ((hmem voter).1 hvoter)
  · intro voter
    rw [mem_voters, hmem]

/-- A count keeps to its history, and is exact after each tick. -/
theorem keeps : Keeps m.votes m.need (m.Counts names) m.Exact where
  collects h := by
    obtain ⟨S, _, _, hcollects, _⟩ := h.counted
    exact ⟨S, hcollects⟩
  of_call := of_call
  exists_tick h hpasses := by
    obtain ⟨_, _, _, _, _, _, hcollects, hpass, hclosed, _⟩ := h.exists_pass
    exact hcollects.exists_tick hpass hclosed h.hosted.nextTickRules_eq hpasses
  of_tick := of_tick

/-- A raised flag stays raised. -/
theorem pairwise_isDone (h : m.Counts names p []) {actions : List Action}
    (hrun : p.run patience actions = .ok history) : history.Pairwise fun earlier later =>
      m.isDone earlier.1 = .ok true → m.isDone later.1 = .ok true := by
  have hisDone : ∀ q : Program, m.isDone q = .ok true ↔ q.facts.get m.done = .ok ⟨true⟩ := by
    intro q
    refine bind_eq_ok.trans ⟨?_, fun hget => ⟨_, hget, rfl⟩⟩
    rintro ⟨⟨_⟩, hget, heq⟩
    cases heq
    exact hget
  obtain ⟨S, _, flag, hcollects, _, hdone, _⟩ := h.counted
  have hdeclared := (Handle.declared_iff.2 ⟨flag, hdone⟩).of_sameShape
    hcollects.starts.sameShape.symm
  obtain ⟨flag', hflag'⟩ := Handle.declared_iff.1 hdeclared
  obtain ⟨_, s, hs, _⟩ := hdeclared
  have hresets : m.done.Resets p.store false :=
    ⟨s, hs, hcollects.lasting s (List.mem_of_getElem? hs)⟩
  refine (Program.pairwise_flag_of_run hresets hflag' hrun).imp ?_
  intro earlier later hstays hearlier
  exact (hisDone later.1).2 (hstays ((hisDone earlier.1).1 hearlier))

end Counts

/-- A history in which one voter votes twice and two are asked for, then there are two, and then
five are asked for. -/
def raisedCalls : List (Call .text) :=
  [.raise .sameTick 2, .vote .sameTick "a", .vote .nextTick "a", .tick,
    .votes .nextTick (.ofList ["a", "b"]), .tick, .raiseTo .nextTick ⟨5⟩, .tick]

/-- Counting is exact.  Whatever votes and raises come to a tally or a quorum, repeated or not, at
once or for the next tick, and whenever ticks are taken: if ticks may make two passes, then they all
come to their end; and if they do, then after each of them the total is the set of the voters up to
now, and the flag tells whether at one of the ticks up to now there were as many voters as the
threshold in force asked for.  While the threshold stays the same, that is whether there are as many
now.  A raised flag stays raised. -/
theorem run_counts (h : m.Declared limit p) (patience : Nat) (calls : List (Call .text)) :
    (2 ≤ limit.getD patience → ∃ history,
      p.run patience (calls.map (Call.action m.votes m.need)) = .ok history ∧
        Program.AllComplete history) ∧
      ∀ history, p.run patience (calls.map (Call.action m.votes m.need)) = .ok history →
        Program.AllComplete history →
        (∀ before after, calls = before ++ .tick :: after → ∃ q report total done,
          history[before.length]? = some (q, .ticked (.ok report)) ∧
            q.facts.get m.total = .ok total ∧ m.isDone q = .ok done ∧
            (∀ voter, voter ∈ total ↔ voter ∈ voters before) ∧
            (done = true ↔ Reached (before ++ [.tick])) ∧
            ((∀ earlier later, before = earlier ++ .tick :: later →
                threshold earlier = threshold before) →
              (done = true ↔ threshold before ≤ (voters before).card))) ∧
        history.Pairwise fun earlier later =>
          m.isDone earlier.1 = .ok true → m.isDone later.1 = .ok true := by
  obtain ⟨names, hcounts⟩ := Counts.of_declared h
  obtain ⟨_, _, hlimit, _⟩ := h.hosted
  refine ⟨fun hpasses => Counts.keeps.exists_run hcounts (hlimit ▸ hpasses) calls, ?_⟩
  intro history hrun hticks
  refine ⟨fun before after hcalls => ?_, hcounts.pairwise_isDone hrun⟩
  obtain ⟨q, report, hstep, total, done, htotal, hdone, hmem, hreached⟩ :=
    Counts.keeps.exists_told hcounts hrun hticks hcalls
  exact ⟨q, report, total, done, hstep, htotal, hdone, hmem, hreached,
    fun hconstant => hreached.trans (reached_iff_of_constant hconstant)⟩

theorem run_counts_raised : ∃ m p history q q' report report',
    (tally "").runOn (.create 0 "n" none) = (.ok m, p) ∧
      p.run 2 (raisedCalls.map (Call.action m.votes m.need)) = .ok history ∧
      history[3]? = some (q, .ticked (.ok report)) ∧ m.isDone q = .ok false ∧
      history[7]? = some (q', .ticked (.ok report')) ∧ m.isDone q' = .ok true := by
  obtain ⟨m, p, hdeclare⟩ : ∃ m p, (tally "").runOn (.create 0 "n" none) = (.ok m, p) :=
    ⟨_, _, rfl⟩
  have hdeclared : m.Declared none p := ⟨0, "n", "", .inl hdeclare⟩
  obtain ⟨hexists, hexact⟩ := run_counts hdeclared 2 raisedCalls
  obtain ⟨history, hrun, hticks⟩ := hexists (by decide)
  obtain ⟨hexact, _⟩ := hexact history hrun hticks
  obtain ⟨q, report, _, done, hq, _, hdone, _, _, hconstant⟩ :=
    hexact (raisedCalls.take 3) (raisedCalls.drop 4) rfl
  obtain ⟨q', report', _, done', hq', _, hdone', _, hreached, _⟩ :=
    hexact (raisedCalls.take 7) [] rfl
  refine ⟨m, p, history, q, q', report, report', hdeclare, hrun, hq, ?_, hq', ?_⟩
  · have hfew : ¬ threshold (raisedCalls.take 3) ≤ (voters (raisedCalls.take 3)).card := by decide
    have hfirst : ∀ earlier later, raisedCalls.take 3 = earlier ++ .tick :: later →
        threshold earlier = threshold (raisedCalls.take 3) := by
      intro earlier later hsplit
      simp [raisedCalls, List.cons_eq_append_iff] at hsplit
    rw [hdone, Bool.eq_false_iff.2 fun heq => hfew ((hconstant hfirst).1 heq)]
  · have hsecond : Reached (raisedCalls.take 7 ++ [.tick]) :=
      ⟨raisedCalls.take 5, raisedCalls.drop 6, rfl, by decide⟩
    rw [hdone', hreached.2 hsecond]

end Ratchet.Threshold

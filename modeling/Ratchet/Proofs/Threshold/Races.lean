import Ratchet.Protocol.RaceTally
import Ratchet.Proofs.Threshold.Counting

/-!
# Counting voters in many races

A program that counts voters in many races does for each race what a tally of its own would do.
What such a tally gets of a history is the votes in its race, and all raises and ticks
(`raceCalls`).

The rules are other ones than those of a tally.  Totals and verdicts of all races stand in two maps,
votes are put into the totals as entries with one voter each, and the verdict of a race is an entry
that is merged with the ones from before.  But a merge of maps leaves the other keys alone, and at
one key it is the merge of sets and of flags.  So what a pass leaves at a race depends on what was
there at that race, on the votes in it and on the threshold (`Counted`, `Judged`), and it is what a
tally has after a pass.  The only difference is with races without votes: there is nothing to judge,
while a tally with a threshold of zero would be done.

## Main result

* `run_separates`: each race of a run against a tally that gets its part of the history.
-/

namespace Ratchet.RaceTally

open Threshold (Call Collects Keeps ballots threshold voters Reached)

/-! ## The part of one race in a history -/

/-- What the count of a single race gets of a call. -/
def raceCall (race : String) : Call .raceVote → List (Call .text)
  | .vote timing v => if v.race = race then [.vote timing v.voter] else []
  | .votes timing vs =>
    [.votes timing (.ofList ((vs.elements.filter fun v => v.race = race).map RaceVote.voter))]
  | .raise timing n => [.raise timing n]
  | .raiseTo timing n => [.raiseTo timing n]
  | .tick => [.tick]

/-- What the count of a single race gets of a history. -/
def raceCalls (race : String) (calls : List (Call .raceVote)) : List (Call .text) :=
  calls.flatMap (raceCall race)

/-- Someone has voted in the race. -/
def voted (race : String) (calls : List (Call .raceVote)) : Bool :=
  (ballots calls).any fun v => v.race = race

/-- At every tick the threshold in force is at least one. -/
def Positive (calls : List (Call .raceVote)) : Prop :=
  ∀ earlier later, calls = earlier ++ .tick :: later → 1 ≤ threshold earlier

variable {race voter : String} {calls before after : List (Call .raceVote)}
  {call : Call .raceVote}

theorem voted_iff : voted race calls = true ↔ ∃ voter, ⟨race, voter⟩ ∈ ballots calls := by
  simp only [voted, List.any_eq_true, decide_eq_true_eq]
  constructor
  · rintro ⟨⟨race', voter⟩, hmem, rfl⟩
    exact ⟨voter, hmem⟩
  · rintro ⟨voter, hmem⟩
    exact ⟨_, hmem, rfl⟩

/-- The count of a race gets the votes in it. -/
theorem mem_ballots_raceCalls :
    voter ∈ ballots (raceCalls race calls) ↔ ⟨race, voter⟩ ∈ ballots calls := by
  have hcall : ∀ call : Call .raceVote,
      voter ∈ (raceCall race call).flatMap Call.ballots ↔ ⟨race, voter⟩ ∈ call.ballots := by
    intro call
    cases call with
    | vote timing v =>
        obtain ⟨race', voter'⟩ := v
        by_cases hrace : race' = race
        · simp [raceCall, Call.ballots, hrace]
        · simp [raceCall, Call.ballots, hrace, Ne.symm hrace]
    | votes timing vs =>
        have hset : voter ∈ GrowSet.ofList ((vs.elements.filter fun v => v.race = race).map
            RaceVote.voter) ↔ ⟨race, voter⟩ ∈ vs.elements := by
          rw [GrowSet.mem_ofList]
          simp only [List.mem_map, List.mem_filter, decide_eq_true_eq]
          constructor
          · rintro ⟨⟨_, _⟩, ⟨hmem, rfl⟩, rfl⟩
            exact hmem
          · intro hmem
            exact ⟨_, ⟨hmem, rfl⟩, rfl⟩
        rw [raceCall, List.flatMap_singleton]
        exact hset
    | raise | raiseTo | tick => simp [raceCall, Call.ballots]
  rw [ballots, raceCalls, List.flatMap_assoc, ballots, List.mem_flatMap, List.mem_flatMap]
  exact exists_congr fun call => and_congr_right fun _ => hcall call

/-- The count of a race gets all raises. -/
theorem threshold_raceCalls : threshold (raceCalls race calls) = threshold calls := by
  have hcall : ∀ call : Call .raceVote,
      (raceCall race call).flatMap Call.raised = call.raised := by
    intro call
    cases call with
    | vote timing v =>
        rw [raceCall]
        split <;> rfl
    | votes | raise | raiseTo | tick => rfl
  unfold threshold raceCalls
  rw [List.flatMap_assoc, List.flatMap_congr fun call _ => hcall call]

theorem raceCalls_concat :
    raceCalls race (calls ++ [call]) = raceCalls race calls ++ raceCall race call := by
  rw [raceCalls, List.flatMap_append, List.flatMap_singleton]
  rfl

/-- Only ticks change whether a race was reached. -/
theorem reached_raceCalls_concat (hcall : call ≠ .tick) :
    Reached (raceCalls race (calls ++ [call])) ↔ Reached (raceCalls race calls) := by
  rw [raceCalls_concat]
  cases call with
  | vote timing v =>
      rw [raceCall]
      split
      · exact Threshold.reached_concat nofun
      · rw [List.append_nil]
  | votes | raise | raiseTo => exact Threshold.reached_concat nofun
  | tick => exact absurd rfl hcall

theorem Positive.of_concat (h : Positive (calls ++ [call])) : Positive calls := by
  rintro earlier later rfl
  exact h earlier (later ++ [call]) (by simp)

theorem Positive.of_concat_tick (h : Positive (calls ++ [.tick])) : 1 ≤ threshold calls :=
  h calls [] rfl

/-! ## Declarations -/

/-- The handles of a count of races on a program of its own. -/
def tallyOf (id : Nat) : RaceTally where
  votes := ⟨⟨id, 0⟩⟩
  need := ⟨⟨id, 1⟩⟩
  done := ⟨⟨id, 2⟩⟩
  totals := ⟨⟨id, 3⟩⟩

/-- The relations of a count of races. -/
def slots (scope : String) : Store :=
  [(Slot.fresh (scope ++ "MultiTallyVote") (.set .raceVote)).mark .input,
    .fresh (scope ++ "MultiTallyNeed") .max,
    (Slot.fresh (scope ++ "MultiTallyDone") (.map .flag)).mark .output,
    .fresh (scope ++ "multiTallyTotal") (.map (.set .text))]

/-- The rule that puts votes into the totals. -/
def countRule (m : RaceTally) (scope : String) : Rule :=
  joinRule [scope ++ "MultiTallyVote"] (scope ++ "multiTallyTotal") (.of m.votes) m.totals
    .sameTick fun _ vote => .ok (some (countVote vote))

/-- The rule that compares the totals with the threshold. -/
def judgeRule (m : RaceTally) (scope : String) : Rule :=
  joinRule [scope ++ "multiTallyTotal"] (scope ++ "MultiTallyDone") (.of m.totals) m.done
    .sameTick (judgeRace m.need)

/-- What a count of races is made of. -/
def layout (scope : String) : Layout RaceTally where
  handles := tallyOf
  slots := slots scope
  rules m _ := [countRule m scope, judgeRule m scope]

variable {id : Nat} {here scope : String} {limit : Option Nat} {m : RaceTally} {p q : Program}

/-- Declaring a count of races on a fresh program succeeds. -/
theorem runOn_declare : (declare scope).runOn (.create id here limit) =
    (.ok (tallyOf id), { Program.create id here limit with
      store := slots scope
      rules := [countRule (tallyOf id) scope, judgeRule (tallyOf id) scope] }) := by
  simp only [declare, Setup.declare, Setup.mark, Setup.extendOnly, Setup.join, Setup.runOn_bind,
    Setup.runOn_extend, Setup.runOn_pure, Program.create]
  simp [Program.declare, Program.mark, Program.slotOf, Program.facts, Facts.slot, bind,
    Except.bind, pure, Except.pure, Program.join, Program.addRule, Program.nameOf, Source.of,
    Slot.fresh, Slot.mark]
  and_intros <;> rfl

/-- The program was set up as a count of races, and as nothing else. -/
def Declared (m : RaceTally) (limit : Option Nat) (p : Program) : Prop :=
  ∃ id here scope, (declare scope).runOn (.create id here limit) = (.ok m, p)

/-- What the relations of a count of races hold. -/
def Holds (m : RaceTally) (program : Nat) (S : Store) (votes : GrowSet RaceVote) (n : MaxInt)
    (done : StringMap Flag) (totals : StringMap (GrowSet String)) : Prop :=
  S.Reads program [⟨m.votes, votes⟩, ⟨m.need, n⟩, ⟨m.done, done⟩, ⟨m.totals, totals⟩]

/-- A count of races that was just declared holds nothing. -/
theorem Declared.hosted (h : m.Declared limit p) :
    ∃ scope, (layout scope).Hosted m p ∧ p.passLimit = limit ∧ p.pending = [] ∧
      m.Holds p.id p.store .empty ⟨0⟩ .empty .empty := by
  obtain ⟨id, here, scope, hrun⟩ := h
  obtain ⟨hm, _, hlimit, hpending, hstore⟩ := (layout scope).hosted_of_runOn runOn_declare hrun
  refine ⟨scope, hm, hlimit, hpending, ⟨?_, by simp [hm.handles_eq, layout, tallyOf]⟩⟩
  rw [hm.handles_eq, hstore]
  and_intros
  all_goals exact Facts.get_eq_ok.2 ⟨rfl, _, rfl, Slot.valueAs_eq_ok.2 ⟨rfl, rfl⟩⟩

/-! ## The maps -/

variable {votes : GrowSet RaceVote} {n : MaxInt} {totals totals' : StringMap (GrowSet String)}
  {done done' : StringMap Flag}

/-- The verdict on a race. -/
def verdict (n : MaxInt) (total : MapEntry (GrowSet String)) : MapEntry Flag :=
  ⟨total.key, ⟨decide (n.value.toInt ≤ total.value.size)⟩⟩

/-- The totals say who has voted in which race. -/
theorem mem_totals (htotals : ∀ race total, totals.get? race = some total →
      ∀ voter ∈ total, ⟨race, voter⟩ ∈ votes)
    (hadd : Relation.addAll totals (votes.elements.map countVote) = .ok totals') :
    (∃ total, totals'.get? race = some total ∧ voter ∈ total) ↔ ⟨race, voter⟩ ∈ votes := by
  constructor
  · rintro ⟨total, htotal, hmem⟩
    have hjoin : ∀ a b c : GrowSet String, Lattice.join a b = .ok c → voter ∈ c →
        voter ∈ a ∨ voter ∈ b := by
      intro a b c hc hmem
      obtain rfl := Except.ok.inj hc
      exact GrowSet.mem_union.1 hmem
    rcases StringMap.mem_of_addAll hjoin hadd htotal hmem with ⟨old, hold, hmem⟩ |
      ⟨entry, hentry, rfl, hmem⟩
    · exact htotals race old hold voter hmem
    · obtain ⟨v, hv, rfl⟩ := List.mem_map.1 hentry
      rw [countVote, GrowSet.mem_singleton] at hmem
      rw [hmem]
      exact hv
  · intro hvote
    obtain ⟨total, htotal, hbelow⟩ :=
      StringMap.exists_below_of_addAll hadd (List.mem_map_of_mem hvote)
    exact ⟨total, htotal, GrowSet.mem_of_below hbelow (GrowSet.mem_singleton.2 rfl)⟩

/-- A total that is there is not empty. -/
theorem exists_mem_totals (htotals : ∀ race total, totals.get? race = some total →
      ∃ voter, voter ∈ total)
    (hadd : Relation.addAll totals (votes.elements.map countVote) = .ok totals')
    {total : GrowSet String} (htotal : totals'.get? race = some total) :
    ∃ voter, voter ∈ total := by
  rcases (StringMap.exists_get?_of_addAll_iff hadd).1 ⟨total, htotal⟩ with ⟨old, hold⟩ |
    ⟨entry, hentry, rfl⟩
  · obtain ⟨voter, hvoter⟩ := htotals race old hold
    obtain ⟨total', htotal', hbelow⟩ :=
      StringMap.below_iff.1 (Relation.below_of_addAll hadd) race old hold
    cases htotal.symm.trans htotal'
    exact ⟨voter, GrowSet.mem_of_below hbelow hvoter⟩
  · obtain ⟨total', htotal', hbelow⟩ := StringMap.exists_below_of_addAll hadd hentry
    obtain ⟨v, _, rfl⟩ := List.mem_map.1 hentry
    cases htotal.symm.trans htotal'
    exact ⟨v.voter, GrowSet.mem_of_below hbelow (GrowSet.mem_singleton.2 rfl)⟩

/-- A race has a verdict if it has a total, or had one before. -/
theorem exists_done (hadd : Relation.addAll done
    ((Relation.tuples totals').map (verdict n)) = .ok done') :
    (∃ flag, done'.get? race = some flag) ↔
      (∃ flag, done.get? race = some flag) ∨ ∃ total, totals'.get? race = some total := by
  rw [StringMap.exists_get?_of_addAll_iff hadd]
  refine or_congr_right ⟨?_, ?_⟩
  · rintro ⟨entry, hentry, rfl⟩
    obtain ⟨total, htotal, rfl⟩ := List.mem_map.1 hentry
    exact ⟨total.value, StringMap.mem_tuples.1 htotal⟩
  · rintro ⟨total, htotal⟩
    have hentry : (⟨race, total⟩ : MapEntry (GrowSet String)) ∈ Relation.tuples totals' :=
      StringMap.mem_tuples.2 htotal
    exact ⟨_, List.mem_map_of_mem hentry, rfl⟩

/-- A race is done if it was before or its total is large enough now. -/
theorem done_iff (hadd : Relation.addAll done
    ((Relation.tuples totals').map (verdict n)) = .ok done') :
    (done'.get? race).any Flag.value = true ↔ (done.get? race).any Flag.value = true ∨
      ∃ total, totals'.get? race = some total ∧ n.value.toInt ≤ total.size := by
  simp only [Option.any_eq_true]
  constructor
  · rintro ⟨flag, hflag, htrue⟩
    have hjoin : ∀ a b c : Flag, Lattice.join a b = .ok c → c.value = true →
        a.value = true ∨ b.value = true := by
      intro a b c hc htrue
      obtain rfl := Except.ok.inj hc
      exact Bool.or_eq_true_iff.1 htrue
    rcases StringMap.mem_of_addAll hjoin hadd hflag htrue with hold | ⟨entry, hentry, rfl, htrue⟩
    · exact .inl hold
    · obtain ⟨total, htotal, rfl⟩ := List.mem_map.1 hentry
      exact .inr ⟨total.value, StringMap.mem_tuples.1 htotal, of_decide_eq_true htrue⟩
  · rintro (⟨flag, hflag, htrue⟩ | ⟨total, htotal, hle⟩)
    · obtain ⟨flag', hflag', hbelow⟩ :=
        StringMap.below_iff.1 (Relation.below_of_addAll hadd) race flag hflag
      exact ⟨flag', hflag', Flag.value_of_below hbelow htrue⟩
    · have hentry : (⟨race, total⟩ : MapEntry (GrowSet String)) ∈ Relation.tuples totals' :=
        StringMap.mem_tuples.2 htotal
      obtain ⟨flag, hflag, hbelow⟩ :=
        StringMap.exists_below_of_addAll hadd (List.mem_map_of_mem hentry)
      exact ⟨flag, hflag, Flag.value_of_below hbelow (decide_eq_true hle)⟩

/-! ## The rules -/

variable {program : Nat} {S : Store}

namespace Holds

variable (h : m.Holds program S votes n done totals)

include h

/-- The first rule puts the votes into the totals. -/
theorem fire_countRule (scope : String)
    (hadd : Relation.addAll totals (votes.elements.map countVote) = .ok totals') :
    (countRule m scope).fire program S = .ok (S.assign m.totals totals') := by
  obtain ⟨hvotes, _, _, htotals⟩ := h.get_eq
  have hrows : (Source.of m.votes).rows ⟨program, S⟩ = .ok votes.elements :=
    Source.rows_of hvotes
  refine (Rule.fire_join rfl rfl htotals).2
    ⟨_, _, selected_of_forall hrows fun _ => rfl, ?_, rfl⟩
  rw [List.filterMap_eq_map']
  exact hadd

/-- The second rule puts a verdict on every race with a total. -/
theorem fire_judgeRule (scope : String)
    (hadd : Relation.addAll done ((Relation.tuples totals).map (verdict n)) = .ok done') :
    (judgeRule m scope).fire program S = .ok (S.assign m.done done') := by
  obtain ⟨_, hneed, hdone, htotals⟩ := h.get_eq
  have hselect : ∀ total, judgeRace m.need ⟨program, S⟩ total = .ok (some (verdict n total)) := by
    intro total
    unfold judgeRace
    rw [hneed]
    rfl
  refine (Rule.fire_join rfl rfl hdone).2
    ⟨_, _, selected_of_forall (Source.rows_of htotals) hselect, ?_, rfl⟩
  rw [List.filterMap_eq_map']
  exact hadd

/-- The first pass of a tick counts all votes and then judges, and leaves nothing to do. -/
theorem exists_pass (hm : (layout scope).Hosted m p) : ∃ U changed totals' done',
    pass program p.sameTickRules S = .ok (U, changed) ∧
      (∀ r ∈ p.sameTickRules, r.Closed program U) ∧ m.Holds program U votes n done' totals' ∧
      Relation.addAll totals (votes.elements.map countVote) = .ok totals' ∧
      Relation.addAll done ((Relation.tuples totals').map (verdict n)) = .ok done' := by
  have hrules : p.sameTickRules = [countRule m scope, judgeRule m scope] := hm.sameTickRules_eq
  rw [hrules]
  obtain ⟨totals', htotals⟩ := RelationType.IsTotal.exists_addAll (t := .map (.set .text)) trivial
    totals (votes.elements.map countVote)
  obtain ⟨done', hdone⟩ := RelationType.IsTotal.exists_addAll (t := .map .flag) trivial
    done ((Relation.tuples totals').map (verdict n))
  have hcounted : m.Holds program (S.assign m.totals totals') votes n done totals' :=
    h.assign [_, _, _] [] totals'
  have hfinal : m.Holds program _ votes n done' totals' := hcounted.assign [_, _] [_] done'
  obtain ⟨_, _, hgetDone, hgetTotals⟩ := hfinal.get_eq
  obtain ⟨_, hpass⟩ := exists_pass_cons (hcounted.fire_judgeRule scope hdone)
    (show pass program [] _ = .ok (_, false) from rfl)
  obtain ⟨changed, hpass⟩ := exists_pass_cons (h.fire_countRule scope htotals) hpass
  refine ⟨_, changed, totals', done', hpass, ?_, hfinal, htotals, hdone⟩
  simp only [List.forall_mem_cons, List.not_mem_nil, false_implies, implies_true, and_true]
  -- what was added before changes nothing any more
  constructor
  · have hfire := hfinal.fire_countRule scope
      (Relation.addAll_of_subset htotals (Lattice.below_refl totals') fun _ he => he)
    rwa [assign_of_get hgetTotals] at hfire
  · have hfire := hfinal.fire_judgeRule scope
      (Relation.addAll_of_subset hdone (Lattice.below_refl done') fun _ he => he)
    rwa [assign_of_get hgetDone] at hfire

end Holds

/-! ## What a count of races has taken up -/

variable {patience : Nat} {report : TickReport} {outcome : Outcome}
  {history : List (Program × Outcome)}

/-- What a count of races tells about a race: the voters seen so far, if there are any, and whether
they are enough. -/
def standing (m : RaceTally) (p : Program) (race : String) :
    Except Fault (Option (GrowSet String) × Option Flag) := do
  return ((← p.facts.get m.totals).get? race, (← p.facts.get m.done).get? race)

/-- A count has taken up a history.  Its next tick starts from all votes and from the threshold in
force.  No one is in a total who has not voted, only races with votes have an entry, and a race is
done just if its part of the history has reached the threshold. -/
structure Counts (m : RaceTally) (scope : String) (p : Program) (calls : List (Call .raceVote)) :
    Prop where
  hosted : (layout scope).Hosted m p
  counted : ∃ S done totals, Collects m.votes m.need p S calls ∧
    (Facts.mk p.id S).get m.done = .ok done ∧ (Facts.mk p.id S).get m.totals = .ok totals ∧
    (∀ race total, totals.get? race = some total →
      (∃ voter, voter ∈ total) ∧ ∀ voter ∈ total, ⟨race, voter⟩ ∈ ballots calls) ∧
    (∀ race flag, done.get? race = some flag → voted race calls = true) ∧
    (Positive calls → ∀ race, (done.get? race).any Flag.value = true ↔
      Reached (raceCalls race calls))

/-- What a count of races tells after a tick about each of them. -/
def Exact (m : RaceTally) (p : Program) (calls : List (Call .raceVote)) : Prop :=
  Positive (calls ++ [.tick]) → ∀ race, ∃ (total : GrowSet String) (done : Bool),
    (∀ voter, voter ∈ total ↔ voter ∈ voters (raceCalls race calls)) ∧
    (done = true ↔ Reached (raceCalls race calls ++ [.tick])) ∧
    m.isDone p race = .ok done ∧
    m.standing p race = .ok (if voted race calls then (some total, some ⟨done⟩) else (none, none))

section Totals

variable (hmem : ∀ voter, (∃ total, totals.get? race = some total ∧ voter ∈ total) ↔
  ⟨race, voter⟩ ∈ ballots calls) {total : GrowSet String} (htotal : totals.get? race = some total)

include hmem htotal

/-- The total of a race is the set of the votes in it. -/
theorem mem_total_iff : voter ∈ total ↔ voter ∈ ballots (raceCalls race calls) := by
  rw [mem_ballots_raceCalls, ← hmem]
  constructor
  · exact fun hvoter => ⟨total, htotal, hvoter⟩
  · rintro ⟨total', htotal', hvoter⟩
    cases htotal.symm.trans htotal'
    exact hvoter

/-- The total of a race has as many members as there are voters in it. -/
theorem size_eq_card : total.size = (voters (raceCalls race calls)).card :=
  Threshold.size_eq_card_voters fun _ => mem_total_iff hmem htotal

end Totals

namespace Counts

theorem of_declared (h : m.Declared limit p) : ∃ scope, m.Counts scope p [] := by
  obtain ⟨scope, hm, _, hpending, hholds⟩ := h.hosted
  obtain ⟨hvotes, hneed, hdone, htotals⟩ := hholds.get_eq
  have hlasting := hm.lasting (by simp [layout, slots, Slot.mark, Slot.fresh])
  refine ⟨scope, hm, p.store, .empty, .empty, .of_empty hlasting hpending hvotes hneed, hdone,
    htotals, ?_, ?_, ?_⟩
  · intro race total htotal
    cases htotal
  · intro race flag hflag
    cases hflag
  · simp [Reached, raceCalls]

theorem of_call (h : m.Counts scope p calls) (hcall : call ≠ .tick)
    (hperform : p.perform patience (call.action m.votes m.need) = .ok (q, outcome)) :
    m.Counts scope q (calls ++ [call]) := by
  obtain ⟨hm, S, done, totals, hcollects, hdone, htotals, hmem, hvoted, hreached⟩ := h
  obtain ⟨T, hcollects', hother⟩ := hcollects.of_call hcall hperform
  have hgrow : ∀ v ∈ ballots calls, v ∈ ballots (calls ++ [call]) := by
    intro v hv
    rw [Threshold.ballots_concat]
    exact List.mem_append_left _ hv
  refine ⟨hm.of_sameSetup (Program.sameSetup_of_perform hperform), T, done, totals, hcollects',
    ?_, ?_, ?_, ?_, ?_⟩
  · refine (hother ?_ ?_).trans hdone <;> simp [hm.handles_eq, layout, tallyOf]
  · refine (hother ?_ ?_).trans htotals <;> simp [hm.handles_eq, layout, tallyOf]
  · intro race total htotal
    obtain ⟨hsome, hall⟩ := hmem race total htotal
    exact ⟨hsome, fun voter hvoter => hgrow _ (hall voter hvoter)⟩
  · intro race flag hflag
    obtain ⟨voter, hvoter⟩ := voted_iff.1 (hvoted race flag hflag)
    exact voted_iff.2 ⟨voter, hgrow _ hvoter⟩
  · intro hpositive race
    rw [hreached hpositive.of_concat, reached_raceCalls_concat hcall]

/-- What the passes of the next tick make of the totals and the verdicts. -/
theorem exists_pass (h : m.Counts scope p calls) :
    ∃ S U votes n done totals changed, Collects m.votes m.need p S calls ∧
      pass p.id p.sameTickRules S = .ok (U, changed) ∧
      (∀ r ∈ p.sameTickRules, r.Closed p.id U) ∧ m.Holds p.id U votes n done totals ∧
      (Facts.mk p.id S).get m.votes = .ok votes ∧ (Facts.mk p.id S).get m.need = .ok n ∧
      (∀ race voter, (∃ total, totals.get? race = some total ∧ voter ∈ total) ↔
        ⟨race, voter⟩ ∈ ballots calls) ∧
      (∀ race total, totals.get? race = some total → ∃ voter, voter ∈ total) ∧
      (∀ race, (∃ flag, done.get? race = some flag) ↔ voted race calls = true) ∧
      (Positive (calls ++ [.tick]) → ∀ race, (done.get? race).any Flag.value = true ↔
        Reached (raceCalls race calls ++ [.tick])) := by
  obtain ⟨hm, S, done, totals, hcollects, hdone, htotals, hmem, hvoted, hreached⟩ := h
  obtain ⟨votes, hvotes, hballots⟩ := hcollects.votes
  obtain ⟨n, hn, hthreshold⟩ := hcollects.need
  have hholds : m.Holds p.id S votes n done totals :=
    ⟨⟨hvotes, hn, hdone, htotals⟩, by simp [hm.handles_eq, layout, tallyOf]⟩
  obtain ⟨U, changed, totals', done', hpass, hclosed, hfinal, haddTotals, haddDone⟩ :=
    hholds.exists_pass hm
  have hmem' : ∀ race voter, (∃ total, totals'.get? race = some total ∧ voter ∈ total) ↔
      ⟨race, voter⟩ ∈ ballots calls := by
    intro race voter
    rw [← hballots]
    exact mem_totals (fun race total htotal voter hvoter =>
      (hballots _).2 ((hmem race total htotal).2 voter hvoter)) haddTotals
  have hnonempty : ∀ race total, totals'.get? race = some total → ∃ voter, voter ∈ total :=
    fun race total htotal =>
      exists_mem_totals (fun race total htotal => (hmem race total htotal).1) haddTotals htotal
  refine ⟨S, U, votes, n, done', totals', changed, hcollects, hpass, hclosed, hfinal, hvotes, hn,
    hmem', hnonempty, ?_, ?_⟩
  · intro race
    rw [exists_done haddDone]
    constructor
    · rintro (⟨flag, hflag⟩ | ⟨total, htotal⟩)
      · exact hvoted race flag hflag
      · obtain ⟨voter, hvoter⟩ := hnonempty race total htotal
        exact voted_iff.2 ⟨voter, (hmem' race voter).1 ⟨total, htotal, hvoter⟩⟩
    · intro hvote
      obtain ⟨voter, hvoter⟩ := voted_iff.1 hvote
      obtain ⟨total, htotal, _⟩ := (hmem' race voter).2 hvoter
      exact .inr ⟨total, htotal⟩
  · intro hpositive race
    rw [done_iff haddDone, hreached hpositive.of_concat, Threshold.reached_concat_tick,
      threshold_raceCalls, ← hthreshold]
    have hsize : ∀ total, totals'.get? race = some total →
        total.size = (voters (raceCalls race calls)).card := fun total htotal =>
      size_eq_card (hmem' race) htotal
    refine or_congr_right ⟨?_, ?_⟩
    · rintro ⟨total, htotal, hle⟩
      rwa [hsize total htotal] at hle
    · -- a positive threshold is not reached without votes
      intro hle
      have hpos : 0 < (voters (raceCalls race calls)).card := by
        have hone := hpositive.of_concat_tick
        omega
      obtain ⟨voter, hvoter⟩ := Finset.card_pos.1 hpos
      obtain ⟨total, htotal, _⟩ :=
        (hmem' race voter).2 (mem_ballots_raceCalls.1 (Threshold.mem_voters.1 hvoter))
      exact ⟨total, htotal, by rwa [hsize total htotal]⟩

theorem of_tick (h : m.Counts scope p calls) (htick : p.tick patience = .ok (q, .ok report)) :
    m.Counts scope q (calls ++ [.tick]) ∧ m.Exact q calls := by
  have hm := h.hosted
  obtain ⟨S, U, votes, n, done, totals, changed, hcollects, hpass, hclosed, hfinal, hvotes, hn,
    hmem, hnonempty, hvoted, hreached⟩ := h.exists_pass
  obtain ⟨hvotes', hneed, _⟩ := hfinal.get_eq
  obtain ⟨hid, rfl, hcollects'⟩ := hcollects.of_tick hpass hclosed hm.nextTickRules_eq
    (hvotes'.trans hvotes.symm) (hneed.trans hn.symm) htick
  rw [← hid] at hfinal
  obtain ⟨_, _, hdone, htotals⟩ := hfinal.get_eq
  have hballots : ballots (calls ++ [.tick]) = ballots calls := by
    rw [Threshold.ballots_concat]
    exact List.append_nil _
  refine ⟨⟨hm.of_sameSetup (Program.sameSetup_of_tick htick), _, done, totals, hcollects',
    hdone, htotals, ?_, ?_, ?_⟩, ?_⟩
  · intro race total htotal
    refine ⟨hnonempty race total htotal, fun voter hvoter => ?_⟩
    rw [hballots]
    exact (hmem race voter).1 ⟨total, htotal, hvoter⟩
  · intro race flag hflag
    rw [voted, hballots]
    exact (hvoted race).1 ⟨flag, hflag⟩
  · intro hpositive race
    rw [hreached hpositive, raceCalls_concat]
    rfl
  · intro hpositive race
    have hisDone : m.isDone q race = .ok ((done.get? race).any Flag.value) :=
      bind_eq_ok.2 ⟨done, hdone, rfl⟩
    have hstanding : m.standing q race = .ok (totals.get? race, done.get? race) :=
      bind_eq_ok.2 ⟨totals, htotals, bind_eq_ok.2 ⟨done, hdone, rfl⟩⟩
    have hreached := hreached hpositive race
    rw [hisDone, hstanding]
    cases hvote : voted race calls with
    | true =>
        obtain ⟨⟨done'⟩, hflag⟩ := (hvoted race).2 hvote
        obtain ⟨voter, hvoter⟩ := voted_iff.1 hvote
        obtain ⟨total, htotal, _⟩ := (hmem race voter).2 hvoter
        rw [hflag] at hreached ⊢
        rw [htotal]
        refine ⟨total, done', fun voter => ?_, hreached, rfl, rfl⟩
        rw [mem_total_iff (hmem race) htotal, Threshold.mem_voters]
    | false =>
        have hnobody : ∀ voter, ⟨race, voter⟩ ∉ ballots calls := by
          intro voter hvoter
          rw [voted_iff.2 ⟨voter, hvoter⟩] at hvote
          cases hvote
        have hnone : totals.get? race = none := by
          refine Option.eq_none_iff_forall_ne_some.2 fun total htotal => ?_
          obtain ⟨voter, hvoter⟩ := hnonempty race total htotal
          exact hnobody voter ((hmem race voter).1 ⟨total, htotal, hvoter⟩)
        have hnone' : done.get? race = none := by
          refine Option.eq_none_iff_forall_ne_some.2 fun flag hflag => ?_
          rw [(hvoted race).1 ⟨flag, hflag⟩] at hvote
          cases hvote
        rw [hnone'] at hreached ⊢
        rw [hnone]
        refine ⟨.empty, false, fun voter => ?_, hreached, rfl, rfl⟩
        rw [Threshold.mem_voters, mem_ballots_raceCalls]
        exact iff_of_false GrowSet.not_mem_empty (hnobody voter)

/-- A count of races keeps to its history, and is exact after each tick. -/
theorem keeps : Keeps m.votes m.need (m.Counts scope) m.Exact where
  collects h := by
    obtain ⟨S, _, _, hcollects, _⟩ := h.counted
    exact ⟨S, hcollects⟩
  of_call := of_call
  exists_tick h hpasses := by
    obtain ⟨_, _, _, _, _, _, _, hcollects, hpass, hclosed, _⟩ := h.exists_pass
    exact hcollects.exists_tick hpass hclosed h.hosted.nextTickRules_eq hpasses
  of_tick := of_tick

end Counts

/-! ## One race against a tally -/

theorem raceCalls_split (h : calls = before ++ .tick :: after) :
    raceCalls race calls = raceCalls race before ++ .tick :: raceCalls race after := by
  rw [h, raceCalls, List.flatMap_append, List.flatMap_cons]
  rfl

theorem Positive.of_split (hpositive : Positive calls) (h : calls = before ++ .tick :: after) :
    Positive (before ++ [.tick]) := by
  intro earlier later hsplit
  refine hpositive earlier (later ++ after) ?_
  rw [h, List.append_cons, hsplit, List.append_assoc, List.cons_append]

theorem voted_congr {calls' : List (Call .raceVote)}
    (h : raceCalls race calls' = raceCalls race calls) : voted race calls' = voted race calls := by
  rw [Bool.eq_iff_iff, voted_iff, voted_iff]
  refine exists_congr fun voter => ?_
  rw [← mem_ballots_raceCalls, h, mem_ballots_raceCalls]

/-- Sets of the same voters and truths about the same history are the same. -/
theorem eq_of_told {part : List (Call .text)} {total total' : GrowSet String} {done done' : Bool}
    {P : Prop} (htotal : ∀ voter, voter ∈ total ↔ voter ∈ voters part) (hdone : done = true ↔ P)
    (htotal' : ∀ voter, voter ∈ total' ↔ voter ∈ voters part) (hdone' : done' = true ↔ P) :
    total' = total ∧ done' = done :=
  ⟨GrowSet.ext_mem fun voter => (htotal' voter).trans (htotal voter).symm,
    Bool.eq_iff_iff.2 (hdone'.trans hdone.symm)⟩

/-- A history of two races.  Both have two voters in the end, when three are asked for, but only one
of them had both while two were asked for. -/
def rivalCalls : List (Call .raceVote) :=
  [.raise .sameTick 2, .vote .sameTick ⟨"a", "x"⟩,
    .votes .nextTick (.ofList [⟨"b", "x"⟩, ⟨"b", "y"⟩]), .tick, .vote .nextTick ⟨"a", "y"⟩,
    .raise .nextTick 3, .tick]

/-- A count of many races is a count of each.  Take any votes, in any number of races and at any
time, any raises that ask for at least one voter when the first tick is taken, and any ticks; if
ticks may make two passes, they all come to their end.  If they do, then compare any of the races
after any of the ticks with a tally on another program that got only the votes in that race, and all
raises and ticks.  Whether the race is done is what the tally tells, and the total of the race is
that of the tally.  Both have an entry just if someone has voted in the race, the verdict being an
explicit one.  Votes in other races change nothing about it: every run with the same part for the
race gives the race the same standing. -/
theorem run_separates (h : m.Declared limit p) (patience : Nat) (calls : List (Call .raceVote))
    (race : String) :
    (2 ≤ limit.getD patience → ∃ history,
      p.run patience (calls.map (Call.action m.votes m.need)) = .ok history ∧
        Program.AllComplete history) ∧
      ∀ history, p.run patience (calls.map (Call.action m.votes m.need)) = .ok history →
        Program.AllComplete history → Positive calls →
        ∀ before after, calls = before ++ .tick :: after → ∃ q report,
          history[before.length]? = some (q, .ticked (.ok report)) ∧
          (∀ (tally : Threshold) limit' p', tally.Declared limit' p' → ∀ patience',
            (2 ≤ limit'.getD patience' → ∃ history', p'.run patience'
              ((raceCalls race calls).map (Call.action tally.votes tally.need)) = .ok history' ∧
                Program.AllComplete history') ∧
            ∀ history', p'.run patience'
              ((raceCalls race calls).map (Call.action tally.votes tally.need)) = .ok history' →
              Program.AllComplete history' → ∃ q' report' total done,
                history'[(raceCalls race before).length]? = some (q', .ticked (.ok report')) ∧
                q'.facts.get tally.total = .ok total ∧ tally.isDone q' = .ok done ∧
                m.isDone q race = .ok done ∧
                m.standing q race = .ok (if voted race before then (some total, some ⟨done⟩)
                  else (none, none)) ∧
                (voted race before = false → total = .empty)) ∧
          ∀ (m' : RaceTally) limit' p', m'.Declared limit' p' →
            ∀ patience' calls' history' before' after',
              p'.run patience' (calls'.map (Call.action m'.votes m'.need)) = .ok history' →
              Program.AllComplete history' → Positive calls' →
              calls' = before' ++ .tick :: after' →
              raceCalls race before' = raceCalls race before → ∃ q' report',
                history'[before'.length]? = some (q', .ticked (.ok report')) ∧
                m'.standing q' race = m.standing q race := by
  obtain ⟨scope, hcounts⟩ := Counts.of_declared h
  obtain ⟨_, _, hlimit, _⟩ := h.hosted
  refine ⟨fun hpasses => Counts.keeps.exists_run hcounts (hlimit ▸ hpasses) calls, ?_⟩
  intro history hrun hticks hpositive before after hcalls
  obtain ⟨q, report, hstep, htold⟩ := Counts.keeps.exists_told hcounts hrun hticks hcalls
  obtain ⟨total, done, htotal, hdone, hisDone, hstanding⟩ := htold (hpositive.of_split hcalls) race
  refine ⟨q, report, hstep, ?_, ?_⟩
  · intro tally limit' p' hdeclared patience'
    obtain ⟨names, hcounts'⟩ := Threshold.Counts.of_declared hdeclared
    obtain ⟨_, _, hlimit', _⟩ := hdeclared.hosted
    refine ⟨fun hpasses => Threshold.Counts.keeps.exists_run hcounts' (hlimit' ▸ hpasses) _, ?_⟩
    intro history' hrun' hticks'
    obtain ⟨q', report', hstep', total', done', htotal', hdone', hmem, hreached⟩ :=
      Threshold.Counts.keeps.exists_told hcounts' hrun' hticks' (raceCalls_split hcalls)
    obtain ⟨rfl, rfl⟩ := eq_of_told htotal hdone hmem hreached
    refine ⟨q', report', total', done', hstep', htotal', hdone', hisDone, hstanding,
      fun hnone => ?_⟩
    refine GrowSet.ext_mem fun voter => iff_of_false ?_ GrowSet.not_mem_empty
    rw [hmem, Threshold.mem_voters, mem_ballots_raceCalls]
    intro hvoter
    rw [voted_iff.2 ⟨voter, hvoter⟩] at hnone
    cases hnone
  · intro m' limit' p' hdeclared patience' calls' history' before' after' hrun' hticks' hpositive'
      hcalls' hpart
    obtain ⟨scope', hcounts'⟩ := Counts.of_declared hdeclared
    obtain ⟨q', report', hstep', htold'⟩ :=
      Counts.keeps.exists_told hcounts' hrun' hticks' hcalls'
    obtain ⟨total', done', htotal', hdone', _, hstanding'⟩ :=
      htold' (hpositive'.of_split hcalls') race
    rw [hpart] at htotal' hdone'
    obtain ⟨rfl, rfl⟩ := eq_of_told htotal hdone htotal' hdone'
    exact ⟨q', report', hstep', by rw [hstanding', hstanding, voted_congr hpart]⟩

theorem run_separates_rivals : ∃ m p history q report tally p' history' q' report' total,
    (declare "").runOn (.create 0 "n" none) = (.ok m, p) ∧
      (Threshold.tally "").runOn (.create 1 "n" none) = (.ok tally, p') ∧
      p.run 2 (rivalCalls.map (Call.action m.votes m.need)) = .ok history ∧
      p'.run 2 ((raceCalls "a" rivalCalls).map (Call.action tally.votes tally.need)) =
        .ok history' ∧
      history[6]? = some (q, .ticked (.ok report)) ∧
      history'[6]? = some (q', .ticked (.ok report')) ∧
      m.isDone q "a" = .ok false ∧ m.isDone q "b" = .ok true ∧ tally.isDone q' = .ok false ∧
      q'.facts.get tally.total = .ok total ∧
      m.standing q "a" = .ok (some total, some ⟨false⟩) := by
  obtain ⟨m, p, history, q, report, hdeclare, hrun, hstep, hfew, hmany⟩ :
      ∃ m p history q report, (declare "").runOn (.create 0 "n" none) = (.ok m, p) ∧
        p.run 2 (rivalCalls.map (Call.action m.votes m.need)) = .ok history ∧
        history[6]? = some (q, .ticked (.ok report)) ∧ m.isDone q "a" = .ok false ∧
        m.isDone q "b" = .ok true := ⟨_, _, _, _, _, rfl, rfl, rfl, rfl, rfl⟩
  obtain ⟨tally, p', hdeclare'⟩ : ∃ tally p',
      (Threshold.tally "").runOn (.create 1 "n" none) = (.ok tally, p') := ⟨_, _, rfl⟩
  have hpositive : Positive rivalCalls := by
    intro earlier later hsplit
    simp [rivalCalls, List.cons_eq_append_iff] at hsplit
    obtain ⟨_, rfl, ⟨rfl, _⟩ | ⟨rfl, _⟩⟩ := hsplit <;> decide
  have hdeclared : m.Declared none p := ⟨0, "n", "", hdeclare⟩
  obtain ⟨hexists, hseparates⟩ := run_separates hdeclared 2 rivalCalls "a"
  obtain ⟨_, hrun', hticks⟩ := hexists (by decide)
  cases hrun.symm.trans hrun'
  obtain ⟨_, _, hstep', hagainst, _⟩ :=
    hseparates history hrun hticks hpositive (rivalCalls.take 6) [] rfl
  cases hstep.symm.trans hstep'
  obtain ⟨hexists', htold⟩ := hagainst tally none p' ⟨1, "n", "", .inl hdeclare'⟩ 2
  obtain ⟨history', hrun', hticks'⟩ := hexists' (by decide)
  obtain ⟨q', report', total, done, hstep', htotal, hdone, hisDone, hstanding, _⟩ :=
    htold history' hrun' hticks'
  cases hfew.symm.trans hisDone
  exact ⟨m, p, history, q, report, tally, p', history', q', report', total, hdeclare, hdeclare',
    hrun, hrun', hstep, hstep', hfew, hmany, hdone, htotal, hstanding⟩

end Ratchet.RaceTally

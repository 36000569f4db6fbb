import Mathlib.Data.Finset.Card
import Ratchet.Protocol.AddressedQuorum
import Ratchet.Proofs.Program.Derived
import Ratchet.Proofs.Program.Growth
import Ratchet.Proofs.Program.Layout

/-!
# Counting votes

The rules of a quorum are declared in the order in which they depend on each other: one keeps the
votes, one counts them and one compares their number with the size.  So the first pass of a tick
leaves nothing to do (`Holds.exists_pass`), although a count is only ever added to a register and a
verdict to a flag.  What the register held before is too small at most, since no vote is dropped,
and no pass counts a vote that is not kept.

The kept votes all carry the address of the quorum, so there are as many of them as voters
(`size_eq_card_voters`).  Between two ticks a vote that has come is counted or waits (`Heard`).
Queueing a message and ticking keep this, and a tick makes the quorum exact about all the votes that
have come (`Heard.of_tick`).

## Main results

* `Heard.exists_run`: if ticks may make two passes, then every tick comes to its end.
* `Heard.exact_of_run`: what a quorum tells and sends after any tick of a run.
* `Heard.reached_of_run`: a quorum that was reached stays reached.
-/

namespace Ratchet

namespace AddressedQuorum

/-! ## Voters -/

section Voters

/-- The names that stand on the votes for `here`. -/
def voters (here : String) (votes : List QuorumVote) : Finset String :=
  ((votes.filter fun vote => vote.addr = here).map QuorumVote.voter).toFinset

variable {here : String} {votes votes' : List QuorumVote}

theorem mem_voters {voter : String} : voter ∈ voters here votes ↔ ⟨here, voter⟩ ∈ votes := by
  simp only [voters, List.mem_toFinset, List.mem_map, List.mem_filter, decide_eq_true_eq]
  constructor
  · rintro ⟨vote, ⟨hvote, rfl⟩, rfl⟩
    exact hvote
  · intro hvote
    exact ⟨_, ⟨hvote, rfl⟩, rfl⟩

theorem card_voters_le (h : ∀ vote ∈ votes, vote ∈ votes') :
    (voters here votes).card ≤ (voters here votes').card := by
  apply Finset.card_le_card
  intro voter hvoter
  exact mem_voters.2 (h _ (mem_voters.1 hvoter))

theorem voters_congr (h : ∀ vote, vote ∈ votes ↔ vote ∈ votes') :
    voters here votes = voters here votes' := by
  ext voter
  rw [mem_voters, mem_voters, h]

/-- A set of votes for one address has one vote of each voter. -/
theorem size_eq_card_voters {kept : GrowSet QuorumVote}
    (h : ∀ vote, vote ∈ kept ↔ vote.addr = here ∧ vote ∈ votes) :
    kept.size = (voters here votes).card := by
  have hvoters : voters here votes = (kept.elements.map QuorumVote.voter).toFinset := by
    ext voter
    rw [mem_voters, List.mem_toFinset, List.mem_map]
    constructor
    · intro hvote
      exact ⟨⟨here, voter⟩, (h _).2 ⟨rfl, hvote⟩, rfl⟩
    · rintro ⟨vote, hvote, rfl⟩
      obtain ⟨rfl, hmem⟩ := (h vote).1 hvote
      exact hmem
  have hnodup : (kept.elements.map QuorumVote.voter).Nodup := by
    refine kept.nodup_elements.map_on ?_
    intro vote hvote vote' hvote' hvoter
    have haddr : vote.addr = vote'.addr := ((h vote).1 hvote).1.trans ((h vote').1 hvote').1.symm
    cases vote
    cases vote'
    simp_all
  rw [hvoters, List.toFinset_card_of_nodup hnodup, List.length_map]
  rfl

end Voters

/-! ## Declarations -/

/-- The handles of a quorum on a program of its own. -/
def quorumOf (id : Nat) : AddressedQuorum where
  channels := ⟨⟨⟨id, 0⟩⟩, ⟨⟨id, 1⟩⟩⟩
  votes := ⟨⟨id, 2⟩⟩
  tally := ⟨⟨id, 3⟩⟩
  reached := ⟨⟨id, 4⟩⟩

/-- The relations of a quorum. -/
def quorumSlots (scope : String) : Store :=
  [((Slot.fresh (scope ++ "QuorumVote") (.set (.message .quorumVote))).mark .channel).mark .input,
    (Slot.fresh (scope ++ "QuorumResult") (.set (.message .quorumResult))).mark .channel,
    .fresh (scope ++ "quorumVotes") (.set (.message .quorumVote)),
    .fresh (scope ++ "quorumTally") .max,
    (Slot.fresh (scope ++ "quorumReached") .flag).mark .output]

section Rules

variable (m : AddressedQuorum) (here scope resultAddr : String) (size : Int64)

/-- The rule that keeps votes. -/
def keepRule : Rule :=
  joinRule [scope ++ "QuorumVote"] (scope ++ "quorumVotes") (.of m.channels.vote) m.votes .sameTick
    fun _ vote => .ok (keepVote here vote)

/-- The rule that counts the votes. -/
def countRule : Rule :=
  joinRule [] (scope ++ "quorumTally") .unit m.tally .sameTick fun facts _ =>
    countVotes m.votes facts

/-- The rule that compares their number with the size of the quorum. -/
def compareRule : Rule :=
  joinRule [] (scope ++ "quorumReached") .unit m.reached .sameTick fun facts _ =>
    compareTally m.tally size facts

/-- The rule that sends the result. -/
def reportRule : Rule :=
  joinRule [] (scope ++ "QuorumResult") .unit m.channels.result .nextTick fun facts _ =>
    report m.reached resultAddr facts

end Rules

/-- What a quorum is made of. -/
def layout (scope resultAddr : String) (size : Int64) : Layout AddressedQuorum where
  handles := quorumOf
  slots := quorumSlots scope
  rules m here := [keepRule m here scope, countRule m scope, compareRule m scope size,
    reportRule m scope resultAddr]

variable {here scope resultAddr : String} {size : Int64} {id : Nat} {limit : Option Nat}
  {m : AddressedQuorum} {p q : Program}

/-- Declaring a quorum on a fresh program succeeds. -/
theorem runOn_declare :
    (declare scope size resultAddr).runOn (.create id here limit) =
      (.ok (quorumOf id), { Program.create id here limit with
        store := quorumSlots scope
        rules := [keepRule (quorumOf id) here scope, countRule (quorumOf id) scope,
          compareRule (quorumOf id) scope size, reportRule (quorumOf id) scope resultAddr] }) := by
  simp only [declare, QuorumChannels.declare, Setup.channel, Setup.declare, Setup.mark,
    Setup.extendOnly, Setup.join, Setup.runOn_bind, Setup.runOn_extend, Setup.runOn_pure,
    Setup.runOn_addr, Program.create]
  simp [Program.declareChannel, Program.declare, Program.mark, Program.slotOf, Program.facts,
    Facts.slot, bind, Except.bind, pure, Except.pure, Program.join, Program.addRule,
    Program.nameOf, Source.of, Source.unit, Slot.fresh, Slot.mark]
  and_intros <;> rfl

/-- A quorum that was just declared has sent nothing. -/
theorem fresh_of_declare
    (h : (declare scope size resultAddr).runOn (.create id here limit) = (.ok m, p)) :
    p.addr = here ∧ p.passLimit = limit ∧ p.pending = [] ∧
      p.facts.get m.channels.result = .ok GrowSet.empty := by
  obtain ⟨hm, rfl⟩ := Prod.mk.inj (runOn_declare.symm.trans h)
  obtain rfl := Except.ok.inj hm
  exact ⟨rfl, rfl, rfl, Facts.get_eq_ok.2 ⟨rfl, _, rfl, Slot.valueAs_eq_ok.2 ⟨rfl, rfl⟩⟩⟩

/-- The program holds just the quorum. -/
def Hosted (m : AddressedQuorum) (scope resultAddr : String) (size : Int64) (p : Program) : Prop :=
  (layout scope resultAddr size).Hosted m p

namespace Hosted

section Slots

variable (hm : m.Hosted scope resultAddr size p)

include hm

theorem declared_vote : m.channels.vote.Declared p.id p.store := by
  rw [hm.handles_eq]
  exact .of_sameShape ⟨rfl, _, rfl, rfl⟩ hm.sameShape

theorem declared_result : m.channels.result.Declared p.id p.store := by
  rw [hm.handles_eq]
  exact .of_sameShape ⟨rfl, _, rfl, rfl⟩ hm.sameShape

/-- The channels and the kept votes have slots of their own. -/
theorem slot_ne : m.channels.vote.id.slot ≠ m.votes.id.slot ∧
    m.channels.result.id.slot ≠ m.votes.id.slot ∧
    m.channels.vote.id.slot ≠ m.channels.result.id.slot := by
  rw [hm.handles_eq]
  simp [layout, quorumOf]

/-- Only the channels start every tick empty. -/
theorem resets : m.channels.vote.Resets p.store true ∧ m.channels.result.Resets p.store true ∧
    m.votes.Resets p.store false ∧ m.tally.Resets p.store false ∧
    m.reached.Resets p.store false := by
  rw [hm.handles_eq]
  exact ⟨.of_sameShape ⟨_, rfl, rfl⟩ hm.sameShape, .of_sameShape ⟨_, rfl, rfl⟩ hm.sameShape,
    .of_sameShape ⟨_, rfl, rfl⟩ hm.sameShape, .of_sameShape ⟨_, rfl, rfl⟩ hm.sameShape,
    .of_sameShape ⟨_, rfl, rfl⟩ hm.sameShape⟩

theorem sameTickRules_eq : p.sameTickRules =
    [keepRule m p.addr scope, countRule m scope, compareRule m scope size] :=
  Layout.Hosted.sameTickRules_eq hm

/-- No rule of the same tick makes results. -/
theorem target_ne_result : ∀ r ∈ p.sameTickRules, r.target ≠ m.channels.result.id.slot := by
  rw [hm.sameTickRules_eq, hm.handles_eq]
  simp [keepRule, countRule, compareRule, joinRule, layout, quorumOf]

/-- A name stands for the relation that was declared under it. -/
theorem relation_eq {t : RelationType} (name : String) : p.relation t name =
    Program.relation { p with store := quorumSlots scope } t name := by
  have hsame : Program.SameSetup { p with store := quorumSlots scope } p :=
    ⟨rfl, rfl, rfl, hm.sameShape⟩
  exact hsame.relation_eq

theorem relation_vote :
    p.relation (.set (.message .quorumVote)) (scope ++ "QuorumVote") = .ok m.channels.vote := by
  rw [hm.relation_eq, hm.handles_eq]
  simp [Program.relation, quorumSlots, Slot.mark, Slot.fresh, List.findIdx?_cons, Program.facts,
    Facts.slot, Slot.valueAs, bind, Except.bind, pure, Except.pure, layout, quorumOf]

theorem relation_result :
    p.relation (.set (.message .quorumResult)) (scope ++ "QuorumResult") =
      .ok m.channels.result := by
  rw [hm.relation_eq, hm.handles_eq]
  simp [Program.relation, quorumSlots, Slot.mark, Slot.fresh, List.findIdx?_cons, Program.facts,
    Facts.slot, Slot.valueAs, bind, Except.bind, pure, Except.pure, layout, quorumOf]

theorem name_votes : ∃ s, p.store[m.votes.id.slot]? = some s ∧ s.name = scope ++ "quorumVotes" := by
  rw [hm.handles_eq]
  obtain ⟨hlength, hslots⟩ := hm.sameShape
  obtain ⟨s, hs⟩ := Store.exists_of_length_eq hlength (i := 2) rfl
  obtain ⟨v, rfl⟩ := hslots 2 _ s rfl hs
  exact ⟨_, hs, rfl⟩

end Slots

end Hosted

/-! ## The rules -/

/-- The kept votes, with those of the mail that are for `here`. -/
def keep (here : String) (kept mail : GrowSet QuorumVote) : GrowSet QuorumVote :=
  (mail.elements.filterMap (keepVote here)).foldl .insert kept

variable {kept mail : GrowSet QuorumVote} {tally : MaxInt} {reached : Flag} {program : Nat}
  {S : Store} {vote : QuorumVote}

theorem mem_keep : vote ∈ keep here kept mail ↔ vote ∈ kept ∨ vote ∈ mail ∧ vote.addr = here := by
  rw [keep, GrowSet.mem_foldl_insert, List.mem_filterMap]
  refine or_congr_right ⟨?_, ?_⟩
  · rintro ⟨vote', hvote', hkeep⟩
    unfold keepVote at hkeep
    split at hkeep
    · next haddr =>
        cases hkeep
        exact ⟨hvote', haddr⟩
    · cases hkeep
  · rintro ⟨hvote, haddr⟩
    exact ⟨vote, hvote, if_pos haddr⟩

theorem keep_keep : keep here (keep here kept mail) mail = keep here kept mail := by
  apply GrowSet.ext_mem
  intro vote
  rw [mem_keep, mem_keep]
  tauto

theorem size_le_size_keep : kept.size ≤ (keep here kept mail).size :=
  GrowSet.size_le_of_forall_mem fun _ hvote => mem_keep.2 (.inl hvote)

/-- The result, if the quorum was reached. -/
def results (m : AddressedQuorum) (resultAddr : String) (reached : Bool) : List Deposit :=
  if reached then [⟨m.channels.result.id.slot, .add (.set (.message .quorumResult)) ⟨resultAddr⟩⟩]
  else []

theorem mem_results {d : Deposit} {b : Bool} : d ∈ results m resultAddr b ↔ b = true ∧
    d = ⟨m.channels.result.id.slot, .add (.set (.message .quorumResult)) ⟨resultAddr⟩⟩ := by
  cases b <;> simp [results]

/-- What the relations of a quorum hold, apart from the results. -/
def Holds (m : AddressedQuorum) (program : Nat) (S : Store) (mail kept : GrowSet QuorumVote)
    (tally : MaxInt) (reached : Flag) : Prop :=
  S.Reads program [⟨m.channels.vote, mail⟩, ⟨m.votes, kept⟩, ⟨m.tally, tally⟩, ⟨m.reached, reached⟩]

namespace Holds

variable (h : m.Holds program S mail kept tally reached)

include h

theorem fire_keepRule :
    (keepRule m here scope).fire program S = .ok (S.assign m.votes (keep here kept mail)) := by
  obtain ⟨hmail, hvotes, _⟩ := h.get_eq
  have hrows : (Source.of m.channels.vote).rows ⟨program, S⟩ = .ok mail.elements :=
    Source.rows_of hmail
  exact (Rule.fire_join rfl rfl hvotes).2
    ⟨_, _, selected_of_forall hrows fun _ => rfl, GrowSet.addAll_eq, rfl⟩

theorem fire_countRule (hle : tally.value ≤ (MaxInt.ofCount kept.size).value) :
    (countRule m scope).fire program S = .ok (S.assign m.tally (.ofCount kept.size)) := by
  obtain ⟨_, hvotes, htally, _⟩ := h.get_eq
  have hselect : countVotes m.votes ⟨program, S⟩ = .ok (some (MaxInt.ofCount kept.size).value) := by
    unfold countVotes
    rw [hvotes]
    rfl
  exact Rule.fire_join_unit rfl rfl htally hselect
    (congrArg Except.ok (Prod.ext (MaxInt.add_of_le hle) rfl))

theorem fire_compareRule (himp : reached.value = true → size ≤ tally.value) :
    (compareRule m scope size).fire program S =
      .ok (S.assign m.reached ⟨decide (size ≤ tally.value)⟩) := by
  obtain ⟨_, _, htally, hreached⟩ := h.get_eq
  have hselect : compareTally m.tally size ⟨program, S⟩ =
      .ok (some (decide (size ≤ tally.value))) := by
    unfold compareTally
    rw [htally]
    rfl
  have hadd : (reached.add (decide (size ≤ tally.value))).1 = ⟨decide (size ≤ tally.value)⟩ := by
    obtain ⟨b⟩ := reached
    cases b with
    | false => simp [Flag.add]
    | true => simp [Flag.add, himp rfl]
  exact Rule.fire_join_unit rfl rfl hreached hselect (congrArg Except.ok (Prod.ext hadd rfl))

theorem consequences_reportRule : (reportRule m scope resultAddr).consequences ⟨program, S⟩ =
    .ok (results m resultAddr reached.value) := by
  obtain ⟨_, _, _, hreached⟩ := h.get_eq
  have hselect : report m.reached resultAddr ⟨program, S⟩ =
      .ok (if reached.value then some ⟨resultAddr⟩ else none) := by
    unfold report
    rw [hreached]
    rfl
  rw [Rule.consequences_eq rfl, selected_unit hselect]
  cases reached.value <;> rfl

theorem allConsequences_eq (hm : m.Hosted scope resultAddr size p) :
    allConsequences ⟨program, S⟩ p.nextTickRules = .ok (results m resultAddr reached.value) := by
  have hrules : p.nextTickRules = [reportRule m scope resultAddr] := hm.nextTickRules_eq
  rw [hrules]
  exact allConsequences_cons.2 ⟨_, [], h.consequences_reportRule, rfl, (List.append_nil _).symm⟩

end Holds

/-! ## One tick -/

/-- A store in which all votes are kept and counted is closed: firing a rule assigns what is there
already. -/
theorem Holds.closed (hm : m.Hosted scope resultAddr size p)
    (h : m.Holds p.id S mail kept (.ofCount kept.size)
      ⟨decide (size ≤ (MaxInt.ofCount kept.size).value)⟩)
    (hkept : keep p.addr kept mail = kept) : ∀ rule ∈ p.sameTickRules, rule.Closed p.id S := by
  obtain ⟨_, hvotes, htally, hreached⟩ := h.get_eq
  rw [hm.sameTickRules_eq]
  intro rule hrule
  rcases List.mem_cons.1 hrule with rfl | hrule
  · rw [Rule.Closed, h.fire_keepRule, hkept, assign_of_get hvotes]
  rcases List.mem_cons.1 hrule with rfl | hrule
  · rw [Rule.Closed, h.fire_countRule (Int64.le_refl _), assign_of_get htally]
  · obtain rfl := List.mem_singleton.1 hrule
    rw [Rule.Closed, h.fire_compareRule of_decide_eq_true, assign_of_get hreached]

/-- The first pass keeps the votes, counts them and compares their number, and leaves nothing to do.

The rules are declared in the order in which they depend on each other, so each of them sees what
the one before it has just stored. -/
theorem Holds.exists_pass {start : Store} (hm : m.Hosted scope resultAddr size p)
    (h : m.Holds p.id start mail kept tally reached)
    (hle : tally.value ≤ (MaxInt.ofCount kept.size).value)
    (himp : reached.value = true → size ≤ tally.value) :
    let total := MaxInt.ofCount (keep p.addr kept mail).size
    ∃ final changed, pass p.id p.sameTickRules start = .ok (final, changed) ∧
      (∀ rule ∈ p.sameTickRules, rule.Closed p.id final) ∧
      m.Holds p.id final mail (keep p.addr kept mail) total ⟨decide (size ≤ total.value)⟩ := by
  intro total
  have hkept : m.Holds p.id (start.assign m.votes (keep p.addr kept mail)) mail
      (keep p.addr kept mail) tally reached := h.assign [_] [_, _] _
  have hcounted : m.Holds p.id _ mail (keep p.addr kept mail) total reached :=
    hkept.assign [_, _] [_] total
  have hfinal : m.Holds p.id _ mail (keep p.addr kept mail) total ⟨decide (size ≤ total.value)⟩ :=
    hcounted.assign [_, _, _] [] _
  have hle' : tally.value ≤ total.value :=
    Int64.le_trans hle (MaxInt.ofCount_le_ofCount size_le_size_keep)
  have hcompare : (compareRule m scope size).fire p.id _ = .ok _ :=
    hcounted.fire_compareRule fun hreached => Int64.le_trans (himp hreached) hle'
  obtain ⟨_, hpass⟩ := exists_pass_cons hcompare (show pass p.id [] _ = .ok (_, false) from rfl)
  obtain ⟨_, hpass⟩ := exists_pass_cons (hkept.fire_countRule hle') hpass
  obtain ⟨changed, hpass⟩ := exists_pass_cons h.fire_keepRule hpass
  rw [← hm.sameTickRules_eq] at hpass
  exact ⟨_, changed, hpass, hfinal.closed hm keep_keep, hfinal⟩

/-- Where the quorum stands between two ticks when it has counted the votes of a list.  Nothing
waits but facts for other sets than the kept votes. -/
structure Counts (m : AddressedQuorum) (scope resultAddr : String) (size : Int64) (p : Program)
    (votes : List QuorumVote) : Prop where
  hosted : m.Hosted scope resultAddr size p
  onlyFacts : p.OnlyFacts
  mailed : ∀ d ∈ p.pending, d.slot ≠ m.votes.id.slot
  counted : ∃ kept tally reached, p.facts.get m.votes = .ok kept ∧
    p.facts.get m.tally = .ok tally ∧ p.facts.get m.reached = .ok reached ∧
    (∀ vote, vote ∈ kept ↔ vote.addr = p.addr ∧ vote ∈ votes) ∧
    tally.value ≤ (MaxInt.ofCount kept.size).value ∧ (reached.value = true → size ≤ tally.value)

/-- What the quorum tells after a tick, and what it sends, when it has counted the votes of a
list. -/
def Exact (m : AddressedQuorum) (here resultAddr : String) (size : Int64)
    (votes : List QuorumVote) (p : Program) : Prop :=
  ∃ tally reached, m.count p = .ok tally ∧ m.isReached p = .ok reached ∧
    tally.toInt = min ((voters here votes).card : Int) Int64.maxValue.toInt ∧
    (reached = true ↔ size ≤ tally) ∧ p.pending = results m resultAddr reached

namespace Counts

variable {votes : List QuorumVote} {patience : Nat} {report : TickReport}
  (h : m.Counts scope resultAddr size p votes)

include h

theorem exists_holds {start : Store} {applied : Nat}
    (hstart : p.store.resetScratch.depositAll p.id p.pending = .ok (start, applied)) :
    ∃ mail kept tally reached, m.Holds p.id start mail kept tally reached ∧
      (∀ vote, vote ∈ mail ↔ vote ∈ p.waiting m.channels.vote) ∧
      (∀ vote, vote ∈ kept ↔ vote.addr = p.addr ∧ vote ∈ votes) ∧
      tally.value ≤ (MaxInt.ofCount kept.size).value ∧
      (reached.value = true → size ≤ tally.value) := by
  obtain ⟨kept, tally, reached, hvotes, htally, hreached, hrest⟩ := h.counted
  obtain ⟨hmail, _, ⟨s, hs, hscratch⟩, hresets, hresets'⟩ := h.hosted.resets
  obtain ⟨mail, hget⟩ := Handle.declared_iff.1
    (h.hosted.declared_vote.of_sameShape (Program.sameShape_start hstart))
  have hreset := get_resetScratch hs hvotes
  rw [hscratch, if_neg Bool.false_ne_true] at hreset
  have hkept := (get_of_depositAll_of_ne h.mailed hstart).trans hreset
  refine ⟨mail, kept, tally, reached, ⟨⟨hget, hkept, ?_, ?_⟩, ?_⟩, ?_, hrest⟩
  · exact Program.get_of_start hstart h.onlyFacts nofun hresets htally
  · exact Program.get_of_start hstart h.onlyFacts nofun hresets' hreached
  · simp [h.hosted.handles_eq, layout, quorumOf]
  · exact fun vote => Program.mem_of_start hstart h.hosted.declared_vote hmail hget

/-- A tick that may make two passes comes to its end. -/
theorem exists_tick (hpasses : 2 ≤ p.passLimit.getD patience) :
    ∃ q report, p.tick patience = .ok (q, .ok report) := by
  obtain ⟨start, applied, hstart⟩ := Program.exists_start h.onlyFacts
  obtain ⟨_, _, _, _, hholds, _, _, hle, himp⟩ := h.exists_holds hstart
  obtain ⟨final, changed, hpass, hclosed, hfinal⟩ := hholds.exists_pass h.hosted hle himp
  have htick := Program.tick_of_pass hpasses hstart hpass hclosed
  rw [hfinal.allConsequences_eq h.hosted] at htick
  exact ⟨_, _, htick⟩

/-- A tick counts the votes that waited for it. -/
theorem of_tick (htick : p.tick patience = .ok (q, .ok report)) :
    m.Counts scope resultAddr size q (votes ++ p.waiting m.channels.vote) ∧
      m.Exact p.addr resultAddr size (votes ++ p.waiting m.channels.vote) q := by
  have hq : m.Hosted scope resultAddr size q :=
    h.hosted.of_sameSetup (Program.sameSetup_of_tick htick)
  obtain ⟨start, applied, store, count, queue, hstart, hsettle, hqueue, rfl, _⟩ :=
    Program.tick_eq_ok.1 htick
  obtain ⟨mail, kept, tally, reached, hholds, hmail, hkept, hle, himp⟩ := h.exists_holds hstart
  obtain ⟨final, changed, hpass, hclosed, hfinal⟩ := hholds.exists_pass h.hosted hle himp
  obtain rfl := eq_of_settle_of_pass hpass hclosed hsettle
  obtain rfl := Except.ok.inj ((hfinal.allConsequences_eq h.hosted).symm.trans hqueue)
  have hmem : ∀ vote, vote ∈ keep p.addr kept mail ↔
      vote.addr = p.addr ∧ vote ∈ votes ++ p.waiting m.channels.vote := by
    intro vote
    rw [mem_keep, hkept, hmail, List.mem_append]
    tauto
  obtain ⟨_, hvotes, htally, hreached⟩ := hfinal.get_eq
  refine ⟨⟨hq, ?_, ?_, ?_⟩, _, _, bind_eq_ok.2 ⟨_, htally, rfl⟩, bind_eq_ok.2 ⟨_, hreached, rfl⟩,
    ?_, decide_eq_true_iff, rfl⟩
  · intro d hd
    obtain ⟨_, rfl⟩ := mem_results.1 hd
    exact ⟨_, _, _, hq.declared_result, rfl⟩
  · intro d hd
    obtain ⟨_, rfl⟩ := mem_results.1 hd
    exact h.hosted.slot_ne.2.1
  · exact ⟨_, _, _, hvotes, htally, hreached, hmem, Int64.le_refl _, of_decide_eq_true⟩
  · rw [MaxInt.toInt_ofCount, size_eq_card_voters hmem]

end Counts

/-! ## Messages and ticks in any order -/

/-- The votes of a list have come to the quorum.  They are counted or wait for the next tick. -/
def Heard (m : AddressedQuorum) (scope resultAddr : String) (size : Int64) (p : Program)
    (heard : List QuorumVote) : Prop :=
  ∃ votes, m.Counts scope resultAddr size p votes ∧
    ∀ vote, vote ∈ heard ↔ vote ∈ votes ++ p.waiting m.channels.vote

theorem Exact.congr {votes votes' : List QuorumVote} (h : m.Exact here resultAddr size votes p)
    (hvotes : ∀ vote, vote ∈ votes ↔ vote ∈ votes') : m.Exact here resultAddr size votes' p := by
  unfold Exact
  rw [← voters_congr hvotes]
  exact h

theorem Exact.le_card {votes : List QuorumVote} (h : m.Exact here resultAddr size votes p)
    (hreached : m.isReached p = .ok true) : size.toInt ≤ (voters here votes).card := by
  obtain ⟨tally, _, _, hreached', htally, hiff, _⟩ := h
  obtain rfl := Except.ok.inj (hreached.symm.trans hreached')
  have hle := Int64.le_iff_toInt_le.1 (hiff.1 rfl)
  omega

namespace Heard

variable {heard heard' : List QuorumVote} {patience : Nat} {report : TickReport}

theorem of_declared (hdeclare : (declare scope size resultAddr).runOn (.create id here limit) =
    (.ok m, p)) : m.Heard scope resultAddr size p [] := by
  obtain ⟨hm, rfl⟩ := Prod.mk.inj (runOn_declare.symm.trans hdeclare)
  obtain rfl := Except.ok.inj hm
  refine ⟨[], ⟨⟨rfl, (Store.below_refl _).sameShape, rfl⟩, nofun, nofun, ?_⟩, fun _ => Iff.rfl⟩
  refine ⟨.empty, ⟨0⟩, ⟨false⟩, Facts.get_eq_ok.2 ?_, Facts.get_eq_ok.2 ?_, Facts.get_eq_ok.2 ?_,
    by simp, by decide, nofun⟩
  all_goals exact ⟨rfl, _, rfl, Slot.valueAs_eq_ok.2 ⟨rfl, rfl⟩⟩

theorem of_tick (h : m.Heard scope resultAddr size p heard)
    (htick : p.tick patience = .ok (q, .ok report)) :
    m.Heard scope resultAddr size q heard ∧ m.Exact p.addr resultAddr size heard q := by
  obtain ⟨votes, hcounts, hheard⟩ := h
  obtain ⟨hcounts', hexact⟩ := hcounts.of_tick htick
  refine ⟨⟨_, hcounts', fun vote => ?_⟩, hexact.congr fun vote => (hheard vote).symm⟩
  · obtain ⟨_, _, _, _, _, _, hpending⟩ := hexact
    -- nothing waits after a tick but the result
    have hnone : vote ∉ q.waiting m.channels.vote := by
      rw [Program.mem_waiting, hpending]
      rintro ⟨d, hd, hslot, _⟩
      obtain ⟨_, rfl⟩ := mem_results.1 hd
      exact hcounts.hosted.slot_ne.2.2 hslot.symm
    rw [hheard, List.mem_append (s := votes ++ _), or_iff_left hnone]

/-- Messages that are queued join the votes that have come. -/
theorem of_queued {ds : List Deposit} (h : m.Heard scope resultAddr size p heard)
    (hds : ∀ d ∈ ds, d.slot ≠ m.votes.id.slot ∧ ∃ (f : FactType) (k : Handle (.set f))
      (x : f.Carrier), k.Declared p.id p.store ∧ d = ⟨k.id.slot, .add (.set f) x⟩)
    (hheard : ∀ vote, vote ∈ heard' ↔ vote ∈ heard ∨ m.channels.vote.PutBy ds vote) :
    m.Heard scope resultAddr size { p with pending := p.pending ++ ds } heard' := by
  obtain ⟨votes, hcounts, hmem⟩ := h
  refine ⟨votes, ⟨hcounts.hosted.of_sameSetup ⟨rfl, rfl, rfl, p.store.below_refl.sameShape⟩, ?_, ?_,
    hcounts.counted⟩, fun vote => ?_⟩
  · exact List.forall_mem_append.2 ⟨hcounts.onlyFacts, fun d hd => (hds d hd).2⟩
  · exact List.forall_mem_append.2 ⟨hcounts.mailed, fun d hd => (hds d hd).1⟩
  · have hwaiting : vote ∈ Program.waiting { p with pending := p.pending ++ ds } m.channels.vote ↔
        vote ∈ p.waiting m.channels.vote ∨ m.channels.vote.PutBy ds vote := by
      rw [Program.mem_waiting, Program.mem_waiting]
      exact Handle.putBy_append
    rw [hheard, hmem, List.mem_append, List.mem_append, hwaiting, or_assoc]

end Heard

/-! ## Runs -/

/-- What happens to a quorum that is counted by message. -/
inductive Post where
  | vote (vote : QuorumVote)
  | result (result : QuorumResult)
  | tick

namespace Post

/-- What is done to the program. -/
def action (m : AddressedQuorum) : Post → Action
  | .vote v => .addNext m.channels.vote v
  | .result r => .addNext m.channels.result r
  | .tick => .tick

/-- The vote that comes in. -/
def votes : Post → List QuorumVote
  | .vote v => [v]
  | .result _ => []
  | .tick => []

end Post

section Runs

variable {heard : List QuorumVote} {patience : Nat} {post : Post} {posts before after : List Post}
  {outcome : Outcome} {history : List (Program × Outcome)}

/-- A message for a channel can be queued. -/
theorem perform_addNext {f : FactType} {k : Handle (.set f)} {x : f.Carrier}
    (hk : k.Declared p.id p.store) : p.perform patience (.addNext k x) =
      .ok ({ p with pending := p.pending ++ [⟨k.id.slot, .add (.set f) x⟩] }, .queued) :=
  bind_eq_ok.2 ⟨_, (Program.send_eq_ok hk).2 rfl, rfl⟩

namespace Heard

variable (h : m.Heard scope resultAddr size p heard)

include h

theorem hosted : m.Hosted scope resultAddr size p := h.choose_spec.1.hosted

theorem of_vote (vote : QuorumVote) : m.Heard scope resultAddr size
    { p with pending := p.pending ++
      [⟨m.channels.vote.id.slot, .add (.set (.message .quorumVote)) vote⟩] } (heard ++ [vote]) := by
  refine h.of_queued (List.forall_mem_singleton.2
    ⟨h.hosted.slot_ne.1, _, _, _, h.hosted.declared_vote, rfl⟩) fun vote' => ?_
  simp [Handle.PutBy, Write.factsOf_add]

theorem of_result (result : QuorumResult) : m.Heard scope resultAddr size
    { p with pending := p.pending ++
      [⟨m.channels.result.id.slot, .add (.set (.message .quorumResult)) result⟩] } heard := by
  obtain ⟨_, hkept, hvote⟩ := h.hosted.slot_ne
  refine h.of_queued
    (List.forall_mem_singleton.2 ⟨hkept, _, _, _, h.hosted.declared_result, rfl⟩) fun vote => ?_
  simp [Handle.PutBy, hvote.symm]

/-- A message can be queued, and a tick that may make two passes comes to its end. -/
theorem exists_post (post : Post) (hpasses : 2 ≤ p.passLimit.getD patience) :
    ∃ q outcome, p.perform patience (post.action m) = .ok (q, outcome) ∧
      ∀ result, outcome = .ticked result → ∃ report, result = .ok report := by
  cases post with
  | vote vote => exact ⟨_, _, perform_addNext h.hosted.declared_vote, nofun⟩
  | result result => exact ⟨_, _, perform_addNext h.hosted.declared_result, nofun⟩
  | tick =>
      obtain ⟨votes, hcounts, _⟩ := h
      obtain ⟨q, report, htick⟩ := hcounts.exists_tick hpasses
      refine ⟨q, .ticked (.ok report), bind_eq_ok.2 ⟨_, htick, rfl⟩, ?_⟩
      rintro _ ⟨⟩
      exact ⟨report, rfl⟩

theorem of_post (hpost : p.perform patience (post.action m) = .ok (q, outcome))
    (hcomplete : ∀ result, outcome = .ticked result → ∃ report, result = .ok report) :
    m.Heard scope resultAddr size q (heard ++ post.votes) ∧
      (post = .tick → (∃ report, outcome = .ticked (.ok report)) ∧
        m.Exact p.addr resultAddr size heard q) := by
  cases post with
  | vote vote =>
      cases (perform_addNext h.hosted.declared_vote).symm.trans hpost
      exact ⟨h.of_vote vote, nofun⟩
  | result result =>
      cases (perform_addNext h.hosted.declared_result).symm.trans hpost
      rw [Post.votes, List.append_nil]
      exact ⟨h.of_result result, nofun⟩
  | tick =>
      obtain ⟨⟨_, result⟩, htick, heq⟩ := bind_eq_ok.1 hpost
      cases heq
      obtain ⟨report, rfl⟩ := hcomplete result rfl
      obtain ⟨hq, hexact⟩ := h.of_tick htick
      rw [Post.votes, List.append_nil]
      exact ⟨hq, fun _ => ⟨⟨report, rfl⟩, hexact⟩⟩

/-- If ticks may make two passes, then no run breaks off, and every tick comes to its end. -/
theorem exists_run (posts : List Post) (hpasses : 2 ≤ p.passLimit.getD patience) :
    ∃ history, p.run patience (posts.map (Post.action m)) = .ok history ∧
      ∀ q result, (q, .ticked result) ∈ history → ∃ report, result = .ok report := by
  induction posts generalizing p heard with
  | nil => exact ⟨[], rfl, nofun⟩
  | cons post posts ih =>
      obtain ⟨q, outcome, hperform, hcomplete⟩ := h.exists_post post hpasses
      have hlimit : q.passLimit = p.passLimit := by rw [(Program.eq_of_perform hperform).1]
      obtain ⟨history, hrun, hticks⟩ := ih (h.of_post hperform hcomplete).1 (hlimit ▸ hpasses)
      have hcons := Program.run_cons.2 ⟨q, outcome, history, hperform, hrun, rfl⟩
      refine ⟨(q, outcome) :: history, hcons, fun q' result hstep => ?_⟩
      rcases List.mem_cons.1 hstep with heq | hstep
      · cases heq
        exact hcomplete result rfl
      · exact hticks q' result hstep

/-- After a tick the quorum is exact about the votes that came before it. -/
theorem exact_of_run (hrun : p.run patience (posts.map (Post.action m)) = .ok history)
    (hticks : ∀ q result, (q, .ticked result) ∈ history → ∃ report, result = .ok report)
    (hposts : posts = before ++ .tick :: after) :
    ∃ q report, history[before.length]? = some (q, .ticked (.ok report)) ∧
      m.Exact p.addr resultAddr size (heard ++ before.flatMap Post.votes) q := by
  induction before generalizing p heard posts history with
  | nil =>
      subst hposts
      obtain ⟨q, outcome, rest, hperform, hrest, rfl⟩ := Program.run_cons.1 hrun
      have htick : p.perform patience (Post.tick.action m) = .ok (q, outcome) := hperform
      obtain ⟨_, htick⟩ := h.of_post htick fun result heq =>
        hticks q result (heq ▸ List.mem_cons_self)
      obtain ⟨⟨report, rfl⟩, hexact⟩ := htick rfl
      rw [List.flatMap_nil, List.append_nil]
      exact ⟨q, report, rfl, hexact⟩
  | cons post before ih =>
      subst hposts
      obtain ⟨q, outcome, rest, hperform, hrest, rfl⟩ := Program.run_cons.1 hrun
      obtain ⟨hq, _⟩ := h.of_post hperform fun result heq =>
        hticks q result (heq ▸ List.mem_cons_self)
      obtain ⟨r, report, hr, hexact⟩ := ih hq hrest
        (fun q' result hstep => hticks q' result (List.mem_cons_of_mem _ hstep)) rfl
      rw [(Program.sameSetup_of_perform hperform).addr_eq, List.append_assoc] at hexact
      exact ⟨r, report, hr, hexact⟩

/-- A quorum that was reached stays reached, whether ticks come to their end or not. -/
theorem reached_of_run {actions : List Action} (hrun : p.run patience actions = .ok history) :
    history.Pairwise fun earlier later =>
      m.isReached earlier.1 = .ok true → m.isReached later.1 = .ok true := by
  obtain ⟨votes, hcounts, _⟩ := h
  obtain ⟨_, _, reached, _, _, hreached, _⟩ := hcounts.counted
  obtain ⟨_, _, _, _, hresets⟩ := hcounts.hosted.resets
  have hgrows := (List.pairwise_cons.1 (Program.pairwise_get_of_run hresets hreached hrun)).2
  refine (List.pairwise_map.1 hgrows).imp ?_
  rintro earlier later ⟨v, w, hv, hw, hvw⟩ htrue
  have hv' : m.isReached earlier.1 = .ok v.value := bind_eq_ok.2 ⟨v, hv, rfl⟩
  have hw' : m.isReached later.1 = .ok w.value := bind_eq_ok.2 ⟨w, hw, rfl⟩
  have hvalue : v.value = true := Except.ok.inj (hv'.symm.trans htrue)
  have hjoin : (⟨v.value || w.value⟩ : Flag) = w := Except.ok.inj hvw
  rw [hw', ← hjoin, hvalue, Bool.true_or]

end Heard

end Runs

end AddressedQuorum

end Ratchet

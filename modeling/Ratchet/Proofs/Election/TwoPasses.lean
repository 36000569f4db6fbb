import Ratchet.Proofs.Election.Overflow

/-!
# Members settle in two passes

How a tick of a member ends, from any values of its relations and with anything waiting for them.

The first pass leaves every rule of the same tick closed (`Hosts.exists_steps`).  So the second one
is the last, and a bound that allows for two passes is never met.  After that a rule of the next
tick computes the next term, and there is none after the greatest one.  With or without a timeout,
the tick breaks off just if the member hears of the greatest term.

The flag that says whether the member leads is false when the tick starts, unless somebody deposits
into it.  One rule writes it.  What this rule reads, the term and what was won, is not written by
any rule after it, so at the end the flag still agrees with it (`isLeader_of_steps`).

## Main result

* `Member.tick_settles`: any tick of a member that nothing is deposited into the flag of.
-/

namespace Ratchet.Election

variable {id : Nat} {here scope : String} {S : Store} {σ τ : State}

/-! ## The queue -/

section Queue

variable (hσ : Reads id S σ)

include hσ

theorem exists_advanceTerm_of_term (hterm : (σ .term).value ≠ Int64.maxValue) :
    ∃ ds, (advanceTermRule id scope).consequences ⟨id, S⟩ = .ok ds := by
  refine exists_consequences hσ.rows fun fired _ => ?_
  obtain ⟨next, hnext⟩ := exists_checkedAdd_one hterm
  unfold advanceTerm
  rw [hσ.currentTerm]
  cases fired with
  | false => exact ⟨none, rfl⟩
  | true => exact ⟨some next, bind_eq_ok.2 ⟨_, rfl, bind_eq_ok.2 ⟨next, hnext, rfl⟩⟩⟩

theorem advanceTerm_overflow (hfired : (σ .electionTimeout).value = true)
    (hterm : (σ .term).value = Int64.maxValue) :
    (advanceTermRule id scope).consequences ⟨id, S⟩ = .error .overflow := by
  refine consequences_overflow hσ ?_
  unfold advanceTerm
  rw [hfired, if_pos rfl, hσ.currentTerm, hterm]
  simp only [bind, Except.bind, checkedAdd_maxValue_one]

/-- In the greatest term the rules of the next tick break off, with or without a timeout. -/
theorem queue_overflow_of_term (hterm : (σ .term).value = Int64.maxValue) :
    allConsequences ⟨id, S⟩ (sendRules id here scope) = .error .overflow := by
  cases hfired : (σ .electionTimeout).value with
  | false => exact queue_overflow hσ hfired hterm
  | true => exact bind_eq_error.2 (.inl (advanceTerm_overflow hσ hfired hterm))

end Queue

/-! ## The flag for the leader -/

/-- The clauses up to the one that writes the flag for the leader. -/
def clausesBeforeLead (here : String) : List Clause :=
  followClauses ++ (voteClauses here ++
    [countVoteClause here, declareVictoryClause, recordOwnLeadClause here])

theorem mem_leadsCurrentTerm : true ∈ leadsCurrentTermClause.facts σ ↔
    (σ .won).get? (termKey (σ .term).value) = some ⟨true⟩ := by
  refine List.mem_singleton.trans ?_
  rw [eq_comm, Option.any_eq_true]
  constructor
  · rintro ⟨⟨_⟩, hwon, rfl⟩
    exact hwon
  · exact fun hwon => ⟨_, hwon, rfl⟩

/-- After a pass the flag for the leader is set if it was before, or if the term that the pass ends
in is won at its end. -/
theorem isLeader_of_steps (h : Clause.Steps (sameTickClauses here) σ τ) :
    (τ .isLeader).value = true ↔ (σ .isLeader).value = true ∨
      (τ .won).get? (termKey (τ .term).value) = some ⟨true⟩ := by
  have hsplit : sameTickClauses here =
      clausesBeforeLead here ++ leadsCurrentTermClause :: [recordLeaderClause here] := rfl
  rw [hsplit] at h
  obtain ⟨υ, hbefore, ρ, hlead, hafter⟩ := Clause.steps_append.1 h
  have hstart : υ .isLeader = σ .isLeader := hbefore.of_spare rfl
  have hend : τ .isLeader = ρ .isLeader := hafter.of_spare rfl
  -- what the clause has read is what there is at the end
  have hlast : Clause.Steps [leadsCurrentTermClause, recordLeaderClause here] υ τ :=
    ⟨ρ, hlead, hafter⟩
  have hterm : τ .term = υ .term := hlast.of_spare rfl
  have hwon : τ .won = υ .won := hlast.of_spare rfl
  rw [hend, hterm, hwon, ← hstart, ← mem_leadsCurrentTerm]
  exact Flag.value_of_addAll hlead.addAll

/-- The flag says whether the member won the term that it is in. -/
def Member.LeadsAsWon (m : Member) (p : Program) : Prop :=
  ∃ term won leads, m.termOf p = .ok term ∧ p.facts.get m.won = .ok won ∧
    m.leads p = .ok leads ∧ (leads = true ↔ won.get? (termKey term) = some ⟨true⟩)

theorem Reads.leadsAsWon {p : Program} (hσ : Reads p.id p.store σ)
    (hleads : (σ .isLeader).value = true ↔
      (σ .won).get? (termKey (σ .term).value) = some ⟨true⟩) :
    (memberOf p.id).LeadsAsWon p := by
  have hflag : (memberOf p.id).leads p = .ok (σ .isLeader).value :=
    bind_eq_ok.2 ⟨_, hσ .isLeader, rfl⟩
  exact ⟨_, _, _, hσ.currentTerm, hσ .won, hflag, hleads⟩

/-! ## Ticks -/

section Tick

variable {p : Program} {patience : Nat}

/-- Nothing is deposited into the flag, so a tick starts with a member that does not lead. -/
theorem Hosts.isLeader_of_start {start : Store} {applied : Nat} {υ : State} (hp : Hosts scope p)
    (hpending : ∀ d ∈ p.pending, d.slot ≠ Cell.isLeader.slot)
    (hstart : p.store.resetScratch.depositAll p.id p.pending = .ok (start, applied))
    (hυ : Reads p.id start υ) : υ .isLeader = ⟨false⟩ := by
  obtain ⟨σ, hσ⟩ : ∃ σ, Reads p.id p.store σ := exists_reads hp.shape
  have hget := get_of_depositAll_of_ne (h := Cell.handle p.id .isLeader) hpending hstart
  rw [hυ .isLeader, hσ.resetScratch hp.shape .isLeader] at hget
  exact Except.ok.inj hget

/-- A tick of a member takes two passes at most, unless the member hears of the greatest term. -/
theorem Hosts.exists_settled (hp : Hosts scope p) (hlimit : 2 ≤ p.passLimit.getD patience)
    (hpending : ∀ d ∈ p.pending, d.slot ≠ Cell.isLeader.slot)
    (hhears : ¬ (memberOf p.id).Hears p Int64.maxValue) :
    ∃ q report, p.tick patience = .ok (q, .ok report) ∧ report.passes ≤ 2 ∧
      (∀ r ∈ p.sameTickRules, r.Closed p.id q.store) ∧ (memberOf p.id).LeadsAsWon q := by
  obtain ⟨start, applied, υ, T, changed, τ, hstart, hυ, hpass, hclosed, hτ, hsteps⟩ :=
    hp.exists_steps
  obtain ⟨queue, hqueue⟩ : ∃ queue, allConsequences ⟨p.id, T⟩ p.nextTickRules = .ok queue := by
    have hterm : (τ .term).value ≠ Int64.maxValue := by
      rw [Ne, term_of_steps hsteps, ← hp.hears_iff hstart hυ]
      exact hhears
    rw [Program.nextTickRules, hp.rules, filter_nextTick_memberRules]
    exact exists_queue_of_advanceTerm hτ (exists_advanceTerm_of_term hτ hterm) hterm
  have htick := Program.tick_of_pass hlimit hstart hpass hclosed
  rw [hqueue] at htick
  refine ⟨_, _, htick, ?_, hclosed, Reads.leadsAsWon hτ ?_⟩
  · cases changed <;> simp
  · have hfalse : ¬ (υ .isLeader).value = true := by
      rw [hp.isLeader_of_start hpending hstart hυ]
      exact Bool.false_ne_true
    rw [isLeader_of_steps hsteps, or_iff_right hfalse]

/-- A tick of a member breaks off if the member hears of the greatest term. -/
theorem Hosts.tick_eq_overflow (hp : Hosts scope p) (hlimit : 2 ≤ p.passLimit.getD patience)
    (hhears : (memberOf p.id).Hears p Int64.maxValue) : p.tick patience = .error .overflow := by
  obtain ⟨start, applied, T, changed, τ, hstart, hpass, hclosed, hτ, _, hterm⟩ := hp.exists_pass
  have hqueue : allConsequences ⟨p.id, T⟩ p.nextTickRules = .error .overflow := by
    rw [Program.nextTickRules, hp.rules, filter_nextTick_memberRules]
    exact queue_overflow_of_term hτ (hterm.2 hhears)
  rw [Program.tick_of_pass hlimit hstart hpass hclosed, hqueue]
  rfl

end Tick

/-- The relations of a member may hold anything, and anything may wait for them, as long as nothing
waits for the flag that says whether it leads.  If a tick may take two passes, then an overflow is
all that can break it off, and it does so just if the member hears of the greatest term.  Otherwise
the tick comes to its end with the second pass at the latest.  It leaves all rules of the same tick
closed, and a member that leads just if it won the term that it is in then. -/
theorem Member.tick_settles {scope addr : String} {id patience : Nat} {limit : Option Nat}
    {m : Member} {p q : Program}
    (hdeclare : (Member.declare scope).runOn (.create id addr limit) = (.ok m, p))
    (hstate : p.SameSetup q) (hfit : q.AllFit)
    (hpending : ∀ d ∈ q.pending, d.slot ≠ m.isLeader.id.slot)
    (hlimit : 2 ≤ q.passLimit.getD patience) :
    (q.tick patience = .error .overflow ↔ m.Hears q Int64.maxValue) ∧
      (q.tick patience ≠ .error .overflow → ∃ q' report,
        q.tick patience = .ok (q', .ok report) ∧ report.passes ≤ 2 ∧
        (∀ r ∈ q.sameTickRules, r.Closed q.id q'.store) ∧ m.LeadsAsWon q') := by
  obtain ⟨rfl, hp⟩ := hosts_declared hdeclare
  have hq := hp.of_sameSetup hstate hfit
  rw [← hstate.id_eq] at hpending ⊢
  have hoverflow : q.tick patience = .error .overflow → (memberOf q.id).Hears q Int64.maxValue := by
    intro htick
    by_contra hhears
    obtain ⟨_, _, hok, _⟩ := hq.exists_settled hlimit hpending hhears
    cases htick.symm.trans hok
  refine ⟨⟨hoverflow, hq.tick_eq_overflow hlimit⟩, fun htick => ?_⟩
  exact hq.exists_settled hlimit hpending (mt (hq.tick_eq_overflow hlimit) htick)

/-- The relations of a member with the values of a state. -/
def State.toStore (scope : String) (σ : State) : Store :=
  Cell.all.map fun c => { c.fresh scope with value := σ c }

theorem State.sameShape_toStore : (memberSlots scope).SameShape (σ.toStore scope) := by
  refine ⟨by rw [memberSlots, toStore, List.length_map, List.length_map], ?_⟩
  intro i s t hs ht
  rw [memberSlots, List.getElem?_map] at hs
  rw [toStore, List.getElem?_map] at ht
  obtain ⟨c, hc, rfl⟩ := Option.map_eq_some_iff.1 hs
  obtain ⟨d, hd, rfl⟩ := Option.map_eq_some_iff.1 ht
  cases hc.symm.trans hd
  exact ⟨σ c, rfl⟩

/-- A member that has won a term without a vote.  It waits for a message from that term, for one
from an earlier term and for a timeout, and may take two passes. -/
def usurper : Program :=
  { lone with
    store := State.toStore ""
      (Function.update (fun c => c.type.bottom) .won (.singleton "5" ⟨true⟩))
    pending := [⟨Cell.voteReply.slot, .add Cell.voteReply.type ⟨"b", "c", 5, false⟩⟩,
      ⟨Cell.voteRequest.slot, .add Cell.voteRequest.type ⟨"a", 4, "b", 0, 0⟩⟩,
      ⟨Cell.electionTimeout.slot, .add Cell.electionTimeout.type true⟩]
    passLimit := some 2 }

theorem Member.tick_settles_usurper : ∃ q report, usurper.tick 0 = .ok (q, .ok report) ∧
    report.passes ≤ 2 ∧ (memberOf 0).LeadsAsWon q ∧ (memberOf 0).leads q = .ok true := by
  have hsome : (usurper.tick 0).toOption.any
      (fun r => decide (((memberOf 0).leads r.1).toOption = some true)) = true := by
    decide +kernel
  have hok : usurper.tick 0 ≠ .error .overflow := by
    intro herror
    rw [herror] at hsome
    cases hsome
  have hstate : lone.SameSetup usurper := by
    refine ⟨rfl, rfl, rfl, ?_⟩
    have hshape : (memberSlots "").SameShape usurper.store := State.sameShape_toStore
    rw [lone_eq]
    exact hshape
  have hfit : usurper.AllFit := by
    unfold Program.AllFit
    simp only [usurper, List.forall_mem_cons]
    exact ⟨Cell.fits_add .voteReply _ State.sameShape_toStore,
      Cell.fits_add .voteRequest _ State.sameShape_toStore,
      Cell.fits_add .electionTimeout _ State.sameShape_toStore, nofun⟩
  have hpending : ∀ d ∈ usurper.pending, d.slot ≠ (memberOf 0).isLeader.id.slot := by
    unfold usurper
    decide
  obtain ⟨q, report, htick, hpasses, _, hleads⟩ :=
    (Member.tick_settles runOn_lone hstate hfit hpending (by decide : 2 ≤ 2)).2 hok
  rw [htick] at hsome
  exact ⟨q, report, htick, hpasses, hleads, toOption_eq_some.1 (of_decide_eq_true hsome)⟩

end Ratchet.Election

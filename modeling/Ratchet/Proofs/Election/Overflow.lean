import Ratchet.Proofs.Election.OnePass
import Ratchet.Proofs.Program.Fault
import Ratchet.Proofs.Program.Growth
import Ratchet.Proofs.Program.Lasting

/-!
# Members at the last term

What can break off a tick of a member.  Its relations are total, so nothing that waits for the tick
does, and the rules of the same tick ask for facts whatever the state is.  Of the rules of the next
tick two compute a sum.  The term advances only when a timeout fired, but a campaign computes the
next term in every tick, and there is none after the greatest one.  So a tick without a timeout
breaks off just if it ends in the greatest term.

The term only moves by what the member hears of: the deposits that wait for it, and the messages
that wait in the channels (`Member.Hears`).  As the greatest term is a lasting fact of a register,
the tick ends there just if the member is there already or hears of it, from whomever.

## Main result

* `Member.tick_overflow`: ticks without a timeout, along a run among any messages.
-/

namespace Ratchet.Election

variable {id : Nat} {here scope : String} {S T : Store} {σ τ : State}

/-! ## Rules of the next tick -/

section Rules

variable {ρ : Type} {sources : List Cell} {timing : Timing} {source : Source ρ} {c d : Cell}
  {select : Facts → ρ → Except Fault (Option c.type.Tuple)} {facts : Facts} {rows : List ρ}

theorem exists_consequences (hrows : source.rows facts = .ok rows)
    (hselect : ∀ row ∈ rows, ∃ o, select facts row = .ok o) :
    ∃ ds, (rule scope sources c timing id source select).consequences facts = .ok ds := by
  obtain ⟨xs, hxs⟩ := exists_selected hrows hselect
  rw [Rule.consequences_eq rfl, hxs]
  exact ⟨_, rfl⟩

theorem Reads.rows_product (hσ : Reads id S σ) :
    (Source.product (.of (Cell.handle id c)) (.of (Cell.handle id d))).rows ⟨id, S⟩ =
      .ok ((Relation.tuples (σ c)).flatMap fun x =>
        (Relation.tuples (σ d)).map fun y => (x, y)) := by
  simp only [Source.product, hσ.rows, bind, Except.bind, pure, Except.pure]

end Rules

section Queue

variable (hσ : Reads id S σ)

include hσ

theorem exists_advanceTerm (hfired : (σ .electionTimeout).value = false) :
    ∃ ds, (advanceTermRule id scope).consequences ⟨id, S⟩ = .ok ds := by
  refine exists_consequences hσ.rows fun fired hmem => ?_
  obtain rfl : fired = (σ .electionTimeout).value := List.mem_singleton.1 hmem
  rw [hfired]
  exact ⟨none, rfl⟩

theorem exists_campaign (hterm : (σ .term).value ≠ Int64.maxValue) :
    ∃ ds, (campaignRule id scope).consequences ⟨id, S⟩ = .ok ds := by
  refine exists_consequences hσ.rows fun fired _ => ?_
  obtain ⟨next, hnext⟩ := exists_checkedAdd_one hterm
  unfold campaign
  rw [hσ.currentTerm]
  exact ⟨_, bind_eq_ok.2 ⟨_, rfl, bind_eq_ok.2 ⟨next, hnext, rfl⟩⟩⟩

/-- A rule that looks at the timeout finds one row, fired or not. -/
theorem consequences_overflow {sources : List Cell} {c : Cell} {timing : Timing}
    {select : Facts → Bool → Except Fault (Option c.type.Tuple)}
    (hselect : select ⟨id, S⟩ (σ .electionTimeout).value = .error .overflow) :
    (rule scope sources c timing id (.of (Cell.handle id .electionTimeout)) select).consequences
      ⟨id, S⟩ = .error .overflow := by
  have hrows : (Source.of (Cell.handle id .electionTimeout)).rows ⟨id, S⟩ =
      .ok [(σ .electionTimeout).value] := hσ.rows
  have hselected : (Source.of (Cell.handle id .electionTimeout)).selected select ⟨id, S⟩ =
      .error .overflow := by
    unfold Source.selected
    simp only [hrows, bind, Except.bind, List.mapM_cons, hselect]
  exact (Rule.consequences_eq rfl).trans (by rw [hselected]; rfl)

/-- A campaign computes the next term whether or not a timeout fired. -/
theorem campaign_overflow (hterm : (σ .term).value = Int64.maxValue) :
    (campaignRule id scope).consequences ⟨id, S⟩ = .error .overflow := by
  refine consequences_overflow hσ ?_
  unfold campaign
  rw [hσ.currentTerm, hterm]
  simp only [bind, Except.bind, checkedAdd_maxValue_one]

theorem exists_requestVote :
    ∃ ds, (requestVoteRule id here scope).consequences ⟨id, S⟩ = .ok ds := by
  refine exists_consequences hσ.rows_product fun row _ => ?_
  have hleaders : (Facts.mk id S).get (memberOf id).leaders = .ok (σ .leaders) := hσ .leaders
  unfold requestVote
  simp only [hσ.currentTerm, hleaders, bind, Except.bind]
  exact ⟨_, rfl⟩

theorem exists_answerVoteRequest :
    ∃ ds, (answerVoteRequestRule id here scope).consequences ⟨id, S⟩ = .ok ds := by
  refine exists_consequences hσ.rows fun request _ => ?_
  unfold answerVoteRequest
  split
  · simp only [hσ.currentTerm, hσ.votedFor, bind, Except.bind]
    exact ⟨_, rfl⟩
  · exact ⟨_, rfl⟩

theorem exists_announce : ∃ ds, (announceRule id here scope).consequences ⟨id, S⟩ = .ok ds := by
  refine exists_consequences hσ.rows_product fun row _ => ?_
  unfold announce
  split
  · simp only [hσ.currentTerm, bind, Except.bind]
    exact ⟨_, rfl⟩
  · exact ⟨_, rfl⟩

theorem exists_answerLeader :
    ∃ ds, (answerLeaderRule id here scope).consequences ⟨id, S⟩ = .ok ds := by
  refine exists_consequences hσ.rows fun request _ => ?_
  unfold answerLeader
  split
  · simp only [hσ.currentTerm, bind, Except.bind]
    exact ⟨_, rfl⟩
  · exact ⟨_, rfl⟩

theorem exists_queue_of_advanceTerm
    (hadvance : ∃ ds, (advanceTermRule id scope).consequences ⟨id, S⟩ = .ok ds)
    (hterm : (σ .term).value ≠ Int64.maxValue) :
    ∃ queue, allConsequences ⟨id, S⟩ (sendRules id here scope) = .ok queue := by
  have hrules : ∀ r ∈ sendRules id here scope, ∃ ds, r.consequences ⟨id, S⟩ = .ok ds := by
    simp only [sendRules, List.forall_mem_cons]
    exact ⟨hadvance, exists_campaign hσ hterm, exists_requestVote hσ,
      exists_answerVoteRequest hσ, exists_announce hσ, exists_answerLeader hσ,
      List.forall_mem_nil _⟩
  exact exists_allConsequences hrules

/-- Without a timeout the rules of the next tick give a queue unless the term is the greatest
one. -/
theorem exists_queue (hfired : (σ .electionTimeout).value = false)
    (hterm : (σ .term).value ≠ Int64.maxValue) :
    ∃ queue, allConsequences ⟨id, S⟩ (sendRules id here scope) = .ok queue :=
  exists_queue_of_advanceTerm hσ (exists_advanceTerm hσ hfired) hterm

theorem queue_overflow (hfired : (σ .electionTimeout).value = false)
    (hterm : (σ .term).value = Int64.maxValue) :
    allConsequences ⟨id, S⟩ (sendRules id here scope) = .error .overflow := by
  obtain ⟨ds, hds⟩ : ∃ ds, (advanceTermRule id scope).consequences ⟨id, S⟩ = .ok ds :=
    exists_advanceTerm hσ hfired
  -- the rule before it asks for nothing, and the rules after it are not reached
  have hcampaign : allConsequences ⟨id, S⟩ (sendRules id here scope).tail = .error .overflow :=
    bind_eq_error.2 (.inl (campaign_overflow hσ hterm))
  exact bind_eq_error.2 (.inr ⟨ds, hds, bind_eq_error.2 (.inl hcampaign)⟩)

end Queue

/-! ## Programs with a member -/

/-- A program with a member on it, and nothing waiting that does not fit. -/
structure Hosts (scope : String) (p : Program) : Prop where
  rules : p.rules = memberRules p.id p.addr scope
  shape : (memberSlots scope).SameShape p.store
  allFit : p.AllFit

section Hosts

variable {p q : Program} {patience : Nat}

theorem isTotal_of_declared {t : RelationType} {h : Handle t}
    (hS : (memberSlots scope).SameShape S) (hh : h.Declared id S) : t.IsTotal := by
  obtain ⟨_, s, hs, rfl⟩ := hh
  obtain ⟨s', hs'⟩ := Store.exists_of_length_eq hS.1.symm hs
  obtain ⟨_, rfl⟩ := hS.2 _ s' s hs' hs
  obtain ⟨c, _, rfl⟩ := List.mem_map.1 (List.mem_of_getElem? hs')
  exact c.isTotal

theorem Cell.fits_add (c : Cell) (x : c.type.Tuple) (hS : (memberSlots scope).SameShape S) :
    Deposit.Fits id S ⟨c.slot, .add c.type x⟩ :=
  ⟨c.handle id, c.declared_handle hS, rfl⟩

theorem hosts_declared {limit : Option Nat} {m : Member}
    (h : (Member.declare scope).runOn (.create id here limit) = (.ok m, p)) :
    m = memberOf p.id ∧ Hosts scope p := by
  rw [runOn_declare] at h
  obtain ⟨hm, rfl⟩ := Prod.mk.inj h
  exact ⟨(Except.ok.inj hm).symm, rfl, (memberSlots scope).below_refl.sameShape, nofun⟩

theorem Hosts.of_sameSetup (hp : Hosts scope p) (hpq : p.SameSetup q) (hq : q.AllFit) :
    Hosts scope q where
  rules := by rw [hpq.rules_eq, hpq.id_eq, hpq.addr_eq, hp.rules]
  shape := hp.shape.trans hpq.sameShape
  allFit := hq

/-- What a tick of a member queues fits. -/
theorem Hosts.of_tick {result : Except ProgramError TickReport} (hp : Hosts scope p)
    (h : p.tick patience = .ok (q, result)) : Hosts scope q := by
  have hsetup := Program.sameSetup_of_tick h
  refine hp.of_sameSetup hsetup ?_
  obtain ⟨_, _, _, _, _, hqueue, _⟩ := Program.passes_of_tick h
  intro d hd
  rcases hqueue with hqueue | hnone
  · rw [Program.nextTickRules, hp.rules, filter_nextTick_memberRules] at hqueue
    obtain ⟨r, hr, ds, hds, hd⟩ := mem_of_allConsequences hqueue hd
    have hfits : ∃ (c : Cell) (x : c.type.Tuple), d = ⟨c.slot, .add c.type x⟩ := by
      simp only [sendRules, List.mem_cons, List.not_mem_nil, or_false] at hr
      rcases hr with rfl | rfl | rfl | rfl | rfl | rfl <;>
        obtain ⟨_, _, x, _, heq⟩ := exists_of_consequences hds hd <;> exact ⟨_, x, heq⟩
    obtain ⟨c, x, rfl⟩ := hfits
    exact c.fits_add x (hp.shape.trans hsetup.sameShape)
  · rw [hnone] at hd
    cases hd

theorem Hosts.of_perform {action : Action} {outcome : Outcome} (hp : Hosts scope p)
    (haction : action.Fits p.id p.store) (h : p.perform patience action = .ok (q, outcome)) :
    Hosts scope q := by
  rcases hp.allFit.of_perform haction h with ⟨result, htick⟩ | hfit
  · exact hp.of_tick htick
  · exact hp.of_sameSetup (Program.sameSetup_of_perform h) hfit

theorem Hosts.of_run {actions : List Action} {steps : List (Program × Outcome)}
    (hp : Hosts scope p) (hactions : ∀ action ∈ actions, action.Fits p.id p.store)
    (h : p.run patience actions = .ok steps) :
    ∀ q ∈ p :: steps.map Prod.fst, Hosts scope q ∧ q.id = p.id := by
  induction actions generalizing p steps with
  | nil =>
      cases h
      exact List.forall_mem_cons.2 ⟨⟨hp, rfl⟩, nofun⟩
  | cons action actions ih =>
      obtain ⟨r, outcome, rest, hperform, hrest, rfl⟩ := Program.run_cons.1 h
      obtain ⟨haction, hactions⟩ := List.forall_mem_cons.1 hactions
      have hsetup := Program.sameSetup_of_perform hperform
      have hr : Hosts scope r := hp.of_perform haction hperform
      have hactions' : ∀ action ∈ actions, action.Fits r.id r.store := fun action haction =>
        hsetup.id_eq ▸ (hactions action haction).of_sameShape hsetup.sameShape
      have hsteps := ih hr hactions' hrest
      rw [hsetup.id_eq] at hsteps
      exact List.forall_mem_cons.2 ⟨⟨hp, rfl⟩, hsteps⟩

end Hosts

/-! ## The term at the end of a tick -/

/-- The member is in the term, or a deposit or a message that waits for it is from that term. -/
def Member.Hears (m : Member) (p : Program) (term : Int64) : Prop :=
  m.termOf p = .ok term ∨ p.Awaits m.term term ∨
    (∃ request ∈ p.waiting m.channels.voteRequest, request.candidateTerm = term) ∨
    (∃ reply ∈ p.waiting m.channels.voteReply, reply.term = term) ∨
    ∃ request ∈ p.waiting m.channels.appendRequest, request.leaderTerm = term

theorem term_of_follow {c : Cell} {termOf : c.type.Tuple → Int64}
    (h : (followClause c termOf).Step σ τ) : (τ .term).value = Int64.maxValue ↔
      (σ .term).value = Int64.maxValue ∨
        ∃ m ∈ Relation.tuples (σ c), termOf m = Int64.maxValue := by
  have hmem := lasting_max.mem_of_addAll h.addAll
  have hfacts : Int64.maxValue ∈ (followClause c termOf).facts σ ↔
      ∃ m ∈ Relation.tuples (σ c), termOf m = Int64.maxValue := by
    refine List.mem_filterMap.trans ?_
    simp
  exact MaxInt.mem_tuples.symm.trans (hmem.trans (or_congr MaxInt.mem_tuples hfacts))

/-- A pass ends in the greatest term just if it starts there or finds a message from there. -/
theorem term_of_steps (h : Clause.Steps (sameTickClauses here) σ τ) :
    (τ .term).value = Int64.maxValue ↔ (σ .term).value = Int64.maxValue ∨
      (∃ m ∈ σ .voteRequest, m.candidateTerm = Int64.maxValue) ∨
      (∃ m ∈ σ .voteReply, m.term = Int64.maxValue) ∨
      ∃ m ∈ σ .appendRequest, m.leaderTerm = Int64.maxValue := by
  obtain ⟨υ, hfollow, hrest⟩ := Clause.steps_append.1 h
  obtain ⟨σ₁, h₁, σ₂, h₂, _, h₃, rfl⟩ := hfollow
  have hreplies : σ₁ .voteReply = σ .voteReply := h₁.of_ne (c := .voteReply) nofun
  have happends : σ₂ .appendRequest = σ .appendRequest :=
    (h₂.of_ne (c := .appendRequest) nofun).trans (h₁.of_ne (c := .appendRequest) nofun)
  have hterm : τ .term = υ .term := hrest.of_spare rfl
  rw [hterm, term_of_follow h₃, term_of_follow h₂, term_of_follow h₁, hreplies, happends, or_assoc,
    or_assoc]
  rfl

section Tick

variable {p : Program} {patience : Nat}

theorem resets_memberSlots (c : Cell) (hS : (memberSlots scope).SameShape S) :
    (Cell.handle id c).Resets S c.scratch :=
  Handle.Resets.of_sameShape ⟨_, getElem?_memberSlots c, rfl⟩ hS

section Start

variable {start : Store} {applied : Nat} {υ : State} (hp : Hosts scope p)
  (hstart : p.store.resetScratch.depositAll p.id p.pending = .ok (start, applied))
  (hυ : Reads p.id start υ)

include hp hstart hυ

theorem Hosts.awaits_iff_fired :
    p.Awaits (memberOf p.id).electionTimeout true ↔ (υ .electionTimeout).value = true := by
  obtain ⟨σ, hσ⟩ := exists_reads hp.shape
  have hfired := Program.mem_tuples_of_start lasting_flag
    (resets_memberSlots .electionTimeout hp.shape) (hσ .electionTimeout) hstart
    (hυ .electionTimeout)
  have hbottom : ¬ (Flag.mk false).value = true := nofun
  rw [← Flag.mem_tuples, hfired, Flag.mem_tuples]
  exact (or_iff_right hbottom).symm

/-- What a member hears of is there when the passes start. -/
theorem Hosts.hears_iff : (memberOf p.id).Hears p Int64.maxValue ↔
    (υ .term).value = Int64.maxValue ∨
      (∃ m ∈ υ .voteRequest, m.candidateTerm = Int64.maxValue) ∨
      (∃ m ∈ υ .voteReply, m.term = Int64.maxValue) ∨
      ∃ m ∈ υ .appendRequest, m.leaderTerm = Int64.maxValue := by
  obtain ⟨σ, hσ⟩ := exists_reads hp.shape
  have hterm := Program.mem_tuples_of_start lasting_max
    (resets_memberSlots .term hp.shape) (hσ .term) hstart (hυ .term)
  have hcurrent : (memberOf p.id).termOf p = .ok (σ .term).value := hσ.currentTerm
  have hdeclared : ∀ c : Cell, (Cell.handle p.id c).Declared p.id p.store := fun c =>
    Handle.declared_iff.2 ⟨_, hσ c⟩
  have hrequests : ∀ m, m ∈ υ .voteRequest ↔ m ∈ p.waiting _ := fun m =>
    Program.mem_of_start hstart (hdeclared .voteRequest)
      (resets_memberSlots .voteRequest hp.shape) (hυ .voteRequest)
  have hreplies : ∀ m, m ∈ υ .voteReply ↔ m ∈ p.waiting _ := fun m =>
    Program.mem_of_start hstart (hdeclared .voteReply)
      (resets_memberSlots .voteReply hp.shape) (hυ .voteReply)
  have happends : ∀ m, m ∈ υ .appendRequest ↔ m ∈ p.waiting _ := fun m =>
    Program.mem_of_start hstart (hdeclared .appendRequest)
      (resets_memberSlots .appendRequest hp.shape) (hυ .appendRequest)
  unfold Member.Hears
  rw [hcurrent, Except.ok.injEq, ← MaxInt.mem_tuples (a := υ .term), hterm, MaxInt.mem_tuples,
    or_assoc]
  simp only [hrequests, hreplies, happends]
  rfl

end Start

/-- The first pass of a tick leaves every rule of the same tick closed, and takes the state that it
starts from through the clauses. -/
theorem Hosts.exists_steps (hp : Hosts scope p) :
    ∃ start applied υ T changed τ,
      p.store.resetScratch.depositAll p.id p.pending = .ok (start, applied) ∧
      Reads p.id start υ ∧ pass p.id p.sameTickRules start = .ok (T, changed) ∧
      (∀ r ∈ p.sameTickRules, r.Closed p.id T) ∧ Reads p.id T τ ∧
      Clause.Steps (sameTickClauses p.addr) υ τ := by
  obtain ⟨start, applied, hstart⟩ : ∃ start applied,
      p.store.resetScratch.depositAll p.id p.pending = .ok (start, applied) := by
    refine Store.exists_depositAll_of_fits fun d hd => ?_
    obtain ⟨h, hh, _⟩ := hp.allFit d hd
    exact ⟨(hp.allFit d hd).of_sameShape p.store.sameShape_resetScratch,
      isTotal_of_declared hp.shape hh⟩
  obtain ⟨υ, hυ⟩ := exists_reads (hp.shape.trans (Program.sameShape_start hstart))
  have hpass := exists_closed_pass p.addr scope hυ
  rw [← filter_sameTick_memberRules, ← hp.rules] at hpass
  obtain ⟨T, changed, τ, hpass, hτ, hsteps, hclosed⟩ := hpass
  exact ⟨start, applied, υ, T, changed, τ, hstart, hυ, hpass, hclosed, hτ, hsteps⟩

/-- The first pass of a tick leaves every rule of the same tick closed.  It finds the timeout that
waits, if there is one, and ends in the greatest term just if the member hears of that. -/
theorem Hosts.exists_pass (hp : Hosts scope p) :
    ∃ start applied T changed τ,
      p.store.resetScratch.depositAll p.id p.pending = .ok (start, applied) ∧
      pass p.id p.sameTickRules start = .ok (T, changed) ∧
      (∀ r ∈ p.sameTickRules, r.Closed p.id T) ∧ Reads p.id T τ ∧
      ((τ .electionTimeout).value = true ↔ p.Awaits (memberOf p.id).electionTimeout true) ∧
      ((τ .term).value = Int64.maxValue ↔ (memberOf p.id).Hears p Int64.maxValue) := by
  obtain ⟨start, applied, υ, T, changed, τ, hstart, hυ, hpass, hclosed, hτ, hsteps⟩ :=
    hp.exists_steps
  have hfired : τ .electionTimeout = υ .electionTimeout := hsteps.of_spare rfl
  refine ⟨start, applied, T, changed, τ, hstart, hpass, hclosed, hτ, ?_, ?_⟩
  · rw [hfired, hp.awaits_iff_fired hstart hυ]
  · rw [term_of_steps hsteps, hp.hears_iff hstart hυ]

/-- A tick without a timeout takes two passes at most, unless the member hears of the greatest
term. -/
theorem Hosts.exists_tick (hp : Hosts scope p) (hpatience : 2 ≤ patience)
    (hquiet : ¬ p.Awaits (memberOf p.id).electionTimeout true)
    (hhears : ¬ (memberOf p.id).Hears p Int64.maxValue) :
    ∃ q result, p.tick patience = .ok (q, result) ∧
      (2 ≤ p.passLimit.getD patience → ∃ report, result = .ok report ∧ report.passes ≤ 2) := by
  obtain ⟨start, applied, T, changed, τ, hstart, hpass, hclosed, hτ, hfired, hterm⟩ :=
    hp.exists_pass
  obtain ⟨queue, hqueue⟩ : ∃ queue, allConsequences ⟨p.id, T⟩ p.nextTickRules = .ok queue := by
    rw [Program.nextTickRules, hp.rules, filter_nextTick_memberRules]
    exact exists_queue hτ (Bool.eq_false_iff.2 (mt hfired.1 hquiet)) (mt hterm.1 hhears)
  obtain ⟨q, result, htick, _, hsettles⟩ :=
    Program.exists_result_of_pass hpatience hstart hpass hclosed hqueue
  exact ⟨q, result, htick, hsettles⟩

theorem Hosts.tick_of_hears (hp : Hosts scope p) (hlimit : 2 ≤ p.passLimit.getD patience)
    (hquiet : ¬ p.Awaits (memberOf p.id).electionTimeout true)
    (hhears : (memberOf p.id).Hears p Int64.maxValue) : p.tick patience = .error .overflow := by
  obtain ⟨start, applied, T, changed, τ, hstart, hpass, hclosed, hτ, hfired, hterm⟩ :=
    hp.exists_pass
  have hqueue : allConsequences ⟨p.id, T⟩ p.nextTickRules = .error .overflow := by
    rw [Program.nextTickRules, hp.rules, filter_nextTick_memberRules]
    exact queue_overflow hτ (Bool.eq_false_iff.2 (mt hfired.1 hquiet)) (hterm.2 hhears)
  rw [Program.tick_of_pass hlimit hstart hpass hclosed, hqueue]
  rfl

end Tick

/-! ## Runs -/

/-- Messages cannot break off a tick of a member, save for one thing.  Whatever was deposited into
the relations of the member before, and whatever waits for them, a tick for which no timeout waits
comes to its end, with the second pass at the latest, if the member does not hear of the greatest
term.  If it does, from anyone and addressed to anyone, then the next term is computed although
nobody stands for election in it, and the tick breaks off with an overflow. -/
theorem Member.tick_overflow {scope addr : String} {id patience wait : Nat} {limit : Option Nat}
    {m : Member} {p q : Program} {actions : List Action} {steps : List (Program × Outcome)}
    (hdeclare : (Member.declare scope).runOn (.create id addr limit) = (.ok m, p))
    (hactions : ∀ action ∈ actions, action.Fits p.id p.store)
    (hrun : p.run patience actions = .ok steps) (hq : q ∈ p :: steps.map Prod.fst)
    (hquiet : ¬ q.Awaits m.electionTimeout true) (hwait : 2 ≤ wait) :
    (¬ m.Hears q Int64.maxValue → ∃ q' result, q.tick wait = .ok (q', result) ∧
        (2 ≤ q.passLimit.getD wait → ∃ report, result = .ok report ∧ report.passes ≤ 2)) ∧
      (m.Hears q Int64.maxValue → 2 ≤ q.passLimit.getD wait →
        q.tick wait = .error .overflow) := by
  obtain ⟨rfl, hp⟩ := hosts_declared hdeclare
  obtain ⟨hq, hid⟩ := hp.of_run hactions hrun q hq
  rw [← hid] at hquiet ⊢
  exact ⟨hq.exists_tick hwait hquiet, fun hhears hlimit => hq.tick_of_hears hlimit hquiet hhears⟩

/-- A program with nothing but a member on it. -/
def lone : Program := ((Member.declare "").runOn (.create 0 "a" none)).2

theorem lone_eq : lone = { Program.create 0 "a" none with
    store := memberSlots ""
    rules := memberRules 0 "a" "" } := by
  rw [lone, runOn_declare]

theorem runOn_lone : (Member.declare "").runOn (.create 0 "a" none) = (.ok (memberOf 0), lone) := by
  rw [lone_eq, runOn_declare]

/-- A member stands for election, and after that it hears of a term that is not the greatest one,
and of the greatest one. -/
def rumour : List Action :=
  [.addNext (memberOf 0).electionTimeout true, .tick, .tick,
    .addNext (memberOf 0).channels.voteRequest ⟨"a", Int64.maxValue - 1, "b", 0, 0⟩,
    .addNext (memberOf 0).channels.voteReply ⟨"b", "c", Int64.maxValue, false⟩]

theorem fits_of_mem_rumour : ∀ action ∈ rumour, action.Fits lone.id lone.store := by
  have hdeclared : ∀ c : Cell, (Cell.handle 0 c).Declared 0 (memberSlots "") := fun c =>
    ⟨rfl, _, getElem?_memberSlots c, rfl⟩
  rw [lone_eq]
  simp only [rumour, List.forall_mem_cons]
  exact ⟨hdeclared .electionTimeout, trivial, trivial, hdeclared .voteRequest,
    hdeclared .voteReply, nofun⟩

theorem Member.tick_overflow_rumour :
    ∃ steps q r, lone.run 9 rumour = .ok steps ∧ steps[3]? = some q ∧ steps[4]? = some r ∧
      (∃ q' report, q.1.tick 9 = .ok (q', .ok report) ∧ report.passes ≤ 2) ∧
      r.1.tick 9 = .error .overflow := by
  have hsome : (lone.run 9 rumour).toOption.any (fun steps =>
      (steps[3]?.any fun q => decide (q.1.passLimit = none ∧ (∀ d ∈ q.1.pending, d.slot = 0) ∧
        ((memberOf 0).termOf q.1).toOption = some 1 ∧
        ∀ request ∈ q.1.waiting (memberOf 0).channels.voteRequest,
          request.candidateTerm ≠ Int64.maxValue)) &&
      steps[4]?.any fun r => decide (r.1.passLimit = none ∧ (∀ d ∈ r.1.pending, d.slot ≤ 1) ∧
        ∃ reply ∈ r.1.waiting (memberOf 0).channels.voteReply,
          reply.term = Int64.maxValue)) = true := by
    decide +kernel
  obtain ⟨steps, hsteps, hsome⟩ := (Option.any_eq_true _ _).1 hsome
  obtain ⟨hfirst, hlast⟩ := Bool.and_eq_true_iff.1 hsome
  obtain ⟨q, hq, hfirst⟩ := (Option.any_eq_true _ _).1 hfirst
  obtain ⟨r, hr, hlast⟩ := (Option.any_eq_true _ _).1 hlast
  obtain ⟨hqlimit, hqslots, hqterm, hqrequests⟩ := of_decide_eq_true hfirst
  obtain ⟨hrlimit, hrslots, hrreplies⟩ := of_decide_eq_true hlast
  have hrun := toOption_eq_some.1 hsteps
  have mem_programs : ∀ {k : Nat} {step : Program × Outcome}, steps[k]? = some step →
      step.1 ∈ lone :: steps.map Prod.fst := fun hstep =>
    List.mem_cons_of_mem _ (List.mem_map_of_mem (List.mem_of_getElem? hstep))
  refine ⟨steps, q, r, hrun, hq, hr, ?_, ?_⟩
  · have hquiet : ¬ q.1.Awaits (memberOf 0).electionTimeout true := by
      rintro ⟨d, hd, hslot, _⟩
      cases (hqslots d hd).symm.trans hslot
    have hhears : ¬ (memberOf 0).Hears q.1 Int64.maxValue := by
      rintro (hterm | ⟨d, hd, hslot, _⟩ | ⟨request, hrequest, hmax⟩ | ⟨reply, hreply, _⟩ |
        ⟨request, hrequest, _⟩)
      · rw [hterm] at hqterm
        revert hqterm
        decide
      · cases (hqslots d hd).symm.trans hslot
      · exact hqrequests request hrequest hmax
      · obtain ⟨d, hd, hslot, _⟩ := Program.mem_waiting.1 hreply
        cases (hqslots d hd).symm.trans hslot
      · obtain ⟨d, hd, hslot, _⟩ := Program.mem_waiting.1 hrequest
        cases (hqslots d hd).symm.trans hslot
    obtain ⟨q', result, htick, hreport⟩ := (tick_overflow runOn_lone fits_of_mem_rumour hrun
      (mem_programs hq) hquiet (by decide : 2 ≤ 9)).1 hhears
    obtain ⟨report, rfl, hpasses⟩ := hreport (by rw [hqlimit]; decide)
    exact ⟨q', report, htick, hpasses⟩
  · have hquiet : ¬ r.1.Awaits (memberOf 0).electionTimeout true := by
      rintro ⟨d, hd, hslot, _⟩
      have hle := hrslots d hd
      rw [hslot] at hle
      revert hle
      decide
    exact (tick_overflow runOn_lone fits_of_mem_rumour hrun (mem_programs hr) hquiet
      (by decide : 2 ≤ 9)).2 (.inr (.inr (.inr (.inl hrreplies)))) (by rw [hrlimit]; decide)

/-- A request for the vote of somebody else, from the greatest term. -/
def stray : VoteRequest := ⟨"x", Int64.maxValue, "b", 0, 0⟩

/-- A single message for somebody else breaks off the next tick of a member that has done nothing
before, with nothing queued for its timeout. -/
theorem Member.tick_stray :
    ∃ q, lone.send (memberOf 0).channels.voteRequest stray = .ok q ∧
      (∀ d ∈ q.pending, d.slot ≠ (memberOf 0).electionTimeout.id.slot) ∧
      q.tick 9 = .error .overflow := by
  obtain ⟨hmember, hlone⟩ := hosts_declared runOn_lone
  have hpending : lone.pending = [] := by rw [lone_eq]; rfl
  have hlimit : lone.passLimit = none := by rw [lone_eq]; rfl
  have hdeclared : (memberOf lone.id).channels.voteRequest.Declared lone.id lone.store :=
    Handle.Declared.of_sameShape ⟨rfl, _, getElem?_memberSlots .voteRequest, rfl⟩ hlone.shape
  have hsend := (Program.send_eq_ok (x := stray) hdeclared).2 rfl
  have hq := hlone.of_sameSetup (Program.sameSetup_of_depositNext hsend)
    (hlone.allFit.of_depositNext hdeclared hsend)
  have hslots : ∀ d ∈ lone.pending ++ [⟨Cell.voteRequest.slot, .add Cell.voteRequest.type stray⟩],
      d.slot ≠ Cell.electionTimeout.slot := by
    rw [hpending]
    decide
  rw [hmember]
  refine ⟨_, hsend, hslots, hq.tick_of_hears ?_ ?_ (.inr (.inr (.inl ⟨stray, ?_, rfl⟩)))⟩
  · dsimp only
    rw [hlimit]
    decide
  · rintro ⟨d, hd, hslot, _⟩
    exact hslots d hd hslot
  · exact Program.mem_waiting.2 ⟨_, List.mem_append_right _ (List.mem_singleton_self _), rfl,
      List.mem_singleton_self _⟩

end Ratchet.Election

import Ratchet.Proofs.Election.Tick
import Ratchet.Proofs.Program.Growth

/-!
# One vote in a term

A member on its own, among messages that nobody has to have sent.  Requests and replies come from
any sender with any content, timeouts and peers come at any time, and even the term is moved from
outside.

A vote is only recorded in a term that has none on record, and the record is not an input.  That is
all it takes for a vote to stay on record (`recorded_of_tick`).  Several requests may be seen by one
rule before any of them is on record, but then they are added to the same empty place, and what the
rules of the next tick see is the one vote that came out of that.  So a reply that grants a vote
names the vote on record when it is queued (`answers_of_tick`), and with that every reply of the
term names the same candidate.

## Main result

* `Member.run_singleVote`: the vote and the granted replies of a term, along a run.
-/

namespace Ratchet.Election

variable {id : Nat} {here scope : String} {S T : Store} {σ τ origin : State}

/-! ## Rules -/

/-- The votes on record in one state are on record in another one. -/
def Retains (σ τ : State) : Prop :=
  ∀ key vote, (σ .voted).get? key = some vote → (τ .voted).get? key = some vote

/-- The store has a state that retains the votes of `origin`. -/
def Retained (id : Nat) (origin : State) (S : Store) : Prop := ∃ σ, Reads id S σ ∧ Retains origin σ

section Rules

variable {c : Cell} {sources : List Cell} {ρ : Type} {source : Source ρ} {r : Rule}

/-- A rule for another relation than the votes leaves the votes alone. -/
theorem Retained.of_other {select : Facts → ρ → Except Fault (Option c.type.Tuple)}
    (h : Retained id origin S) (hc : Cell.voted ≠ c)
    (hfire : (rule scope sources c .sameTick id source select).fire id S = .ok T) :
    Retained id origin T := by
  obtain ⟨σ, hσ, hvotes⟩ := h
  obtain ⟨_, value, _, _, hT⟩ := hσ.exists_of_fire hfire
  refine ⟨_, hT, ?_⟩
  unfold Retains
  rw [Function.update_of_ne hc]
  exact hvotes

/-- A rule that records votes where none is on record retains the votes. -/
theorem Retained.of_voted
    {select : Facts → c.type.Tuple → Except Fault (Option (MapEntry MaxText))}
    (h : Retained id origin S)
    (hfire : (rule scope sources .voted .sameTick id (.of (Cell.handle id c)) select).fire id S =
      .ok T)
    (hnew : ∀ σ row e, Reads id S σ → select ⟨id, S⟩ row = .ok (some e) →
      (σ .voted).get? e.key = none) :
    Retained id origin T := by
  obtain ⟨σ, hσ, hvotes⟩ := h
  obtain ⟨votes, hT, hkept⟩ := exists_of_fire_voted hσ hfire fun row e => hnew σ row e hσ
  exact ⟨_, hT, fun key vote hvote => hkept key vote (hvotes key vote hvote)⟩

/-- No rule of the same tick takes back a vote. -/
theorem retained_of_fire : ∀ r ∈ followRules id scope ++ countRules id here scope, ∀ S T,
    Retained id origin S → r.fire id S = .ok T → Retained id origin T := by
  simp only [followRules, countRules, List.cons_append, List.nil_append, List.forall_mem_cons]
  exact ⟨fun _ _ h => h.of_other (by decide), fun _ _ h => h.of_other (by decide),
    fun _ _ h => h.of_other (by decide),
    fun _ _ h hfire => h.of_voted hfire fun _ _ _ hσ hselect => get?_of_voteForSelf hσ hselect,
    fun _ _ h => h.of_other (by decide),
    fun _ _ h hfire => h.of_voted hfire fun _ _ _ hσ hselect => get?_of_recordVote hσ hselect,
    fun _ _ h => h.of_other (by decide), fun _ _ h => h.of_other (by decide),
    fun _ _ h => h.of_other (by decide), fun _ _ h => h.of_other (by decide),
    fun _ _ h => h.of_other (by decide), List.forall_mem_nil _⟩

end Rules

/-! ## Members among any messages -/

/-- A program with a member on it, whose waiting deposits leave the votes alone. -/
structure Open (scope : String) (p : Program) : Prop where
  rules : p.rules = memberRules p.id p.addr scope
  shape : (memberSlots scope).SameShape p.store
  pending : ∀ d ∈ p.pending, d.slot ≤ Cell.campaigns.slot

/-- The member has voted for the candidate. -/
def Recorded (p : Program) (key candidate : String) : Prop :=
  ∃ σ, Reads p.id p.store σ ∧ (σ .voted).get? key = some ⟨candidate⟩

/-- What was voted is not taken back from the one program to the other. -/
def KeepsVotes (p q : Program) : Prop :=
  ∀ key candidate, Recorded p key candidate → Recorded q key candidate

/-- The replies that wait to be sent grant only votes on record. -/
def Answers (p : Program) : Prop :=
  ∀ d ∈ p.pending, ∀ reply ∈ d.write.factsOf (.message .voteReply), reply.granted →
    Recorded p (termKey reply.term) reply.addr

section Program

variable {p q : Program} {key candidate other : String} {patience : Nat}

theorem Recorded.unique (h : Recorded p key candidate) (h' : Recorded p key other) :
    candidate = other := by
  obtain ⟨σ, hσ, hvote⟩ := h
  obtain ⟨τ, hτ, hvote'⟩ := h'
  obtain rfl := hσ.unique hτ
  exact congrArg MaxText.value (Option.some.inj (hvote.symm.trans hvote'))

theorem keepsVotes_of_reads (hσ : Reads p.id p.store σ) (hτ : Reads q.id q.store τ)
    (h : Retains σ τ) : KeepsVotes p q := by
  rintro key candidate ⟨υ, hυ, hvote⟩
  obtain rfl := hσ.unique hυ
  exact ⟨τ, hτ, h key _ hvote⟩

theorem Open.votedFor_iff {term : Int64} (hp : Open scope p) :
    votedFor (memberOf p.id) p.facts term = .ok (some candidate) ↔
      Recorded p (termKey term) candidate := by
  obtain ⟨σ, hσ⟩ := exists_reads hp.shape
  have hvoted : votedFor (memberOf p.id) p.facts term =
      .ok (((σ .voted).get? (termKey term)).map MaxText.value) := hσ.votedFor term
  rw [hvoted]
  constructor
  · intro h
    obtain ⟨⟨_⟩, hvote, rfl⟩ := Option.map_eq_some_iff.1 (Except.ok.inj h)
    exact ⟨σ, hσ, hvote⟩
  · rintro ⟨τ, hτ, hvote⟩
    obtain rfl := hσ.unique hτ
    rw [hvote]
    rfl

/-! ## Steps -/

/-- Deposits that reach no further than the campaigns leave the votes alone. -/
theorem Open.of_depositNow {c : Cell} {w : Write} {grew : Bool} (hp : Open scope p)
    (hc : Cell.voted ≠ c) (h : p.depositNow (Cell.handle p.id c).id w = .ok (q, grew)) :
    Open scope q ∧ KeepsVotes p q := by
  obtain ⟨_, _, h⟩ := bind_eq_ok.1 h
  obtain ⟨⟨store, grew'⟩, hdeposit, heq⟩ := bind_eq_ok.1 h
  cases heq
  obtain ⟨σ, hσ⟩ := exists_reads hp.shape
  obtain ⟨value, hvalue⟩ := hσ.exists_of_deposit (c := c) rfl hdeposit
  refine ⟨⟨hp.rules, hp.shape.trans (Store.deposit_least hdeposit).1.sameShape, hp.pending⟩, ?_⟩
  refine keepsVotes_of_reads hσ hvalue ?_
  unfold Retains
  rw [Function.update_of_ne hc]
  exact fun _ _ => id

theorem Open.of_depositNext {c : Cell} {w : Write} (hp : Open scope p)
    (hc : c.slot ≤ Cell.campaigns.slot)
    (h : p.depositNext (Cell.handle p.id c).id w = .ok q) : Open scope q ∧ KeepsVotes p q := by
  obtain ⟨_, _, heq⟩ := bind_eq_ok.1 h
  cases heq
  refine ⟨⟨hp.rules, hp.shape, ?_⟩, fun _ _ => id⟩
  intro d hd
  rcases List.mem_append.1 hd with hd | hd
  · exact hp.pending d hd
  · obtain rfl := List.mem_singleton.1 hd
    exact hc

/-- A tick takes back no vote, and queues only replies that grant a vote on record. -/
theorem Open.of_tick {result : Except ProgramError TickReport} (hp : Open scope p)
    (h : p.tick patience = .ok (q, result)) : Open scope q ∧ KeepsVotes p q ∧ Answers q := by
  obtain ⟨σ, hσ⟩ := exists_reads hp.shape
  have hsetup := Program.sameSetup_of_tick h
  obtain ⟨start, applied, n, hstart, hpasses, hqueue, heq⟩ := Program.passes_of_tick h
  have hid : q.id = p.id := hsetup.id_eq
  -- the deposits that waited do not reach the votes
  have hpending : ∀ d ∈ p.pending, Tame (fun _ _ _ => True) d := fun d hd =>
    ⟨hp.pending d hd, fun _ _ _ => trivial⟩
  obtain ⟨υ, hυ, hsame, _, _⟩ := exists_start hp.shape hσ hpending hstart
  have hvoted : υ .voted = σ .voted := hsame .voted (by decide)
  rw [Program.sameTickRules, hp.rules, filter_sameTick_memberRules] at hpasses
  have hretains : Retains σ υ := by
    unfold Retains
    rw [hvoted]
    exact fun _ _ => id
  obtain ⟨τ, hτ, hretains⟩ : Retained p.id σ q.store :=
    of_passes (fun _ _ _ hS hpass => of_pass retained_of_fire hS hpass) ⟨υ, hυ, hretains⟩ hpasses
  have hτ' : Reads q.id q.store τ := hid ▸ hτ
  have hsent : ∀ d ∈ q.pending, Tame (Backed (fun _ _ _ => False) p.addr τ) d := by
    intro d hd
    rcases hqueue with hqueue | hnone
    · rw [Program.nextTickRules, hp.rules, filter_nextTick_memberRules] at hqueue
      obtain ⟨r, hr, ds, hds, hd⟩ := mem_of_allConsequences hqueue hd
      exact (tame_of_send hτ hr hds hd).1
    · rw [hnone] at hd
      cases hd
  refine ⟨⟨?_, hp.shape.trans hsetup.sameShape, fun d hd => (hsent d hd).1⟩,
    keepsVotes_of_reads hσ hτ' hretains, ?_⟩
  · rw [hsetup.rules_eq, hsetup.id_eq, hsetup.addr_eq, hp.rules]
  · intro d hd reply hreply hgranted
    rcases (hsent d hd).2 reply hreply hgranted with hfalse | ⟨_, hvote⟩
    · exact hfalse.elim
    · exact ⟨τ, hτ', hvote⟩

/-! ## Runs -/

/-- The relations of a member that are written from outside: the channels, what it is told, and its
term. -/
def Member.inputs (m : Member) : List RelationId :=
  [m.channels.voteRequest.id, m.channels.voteReply.id, m.channels.appendRequest.id,
    m.channels.appendReply.id, m.peers.id, m.electionTimeout.id, m.term.id]

theorem exists_cell_of_mem_inputs {target : RelationId} (h : target ∈ (memberOf id).inputs) :
    ∃ c : Cell, target = (Cell.handle id c).id ∧ Cell.voted ≠ c ∧
      c.slot ≤ Cell.campaigns.slot := by
  simp only [Member.inputs, memberOf, List.mem_cons, List.not_mem_nil, or_false] at h
  rcases h with h | h | h | h | h | h | h <;> exact ⟨_, h, by decide, by decide⟩

theorem Open.of_perform {action : Action} {outcome : Outcome} (hp : Open scope p)
    (haction : ∀ target, action.target? = some target → target ∈ (memberOf p.id).inputs)
    (h : p.perform patience action = .ok (q, outcome)) :
    Open scope q ∧ q.id = p.id ∧ KeepsVotes p q ∧
      ∀ result, outcome = .ticked result → Answers q := by
  have hid := (Program.sameSetup_of_perform h).id_eq
  rcases Program.perform_cases h with ⟨target, w, hdeposit, houtcome, h⟩ | ⟨_, _, htick, _⟩
  · have hinput := haction target (Action.target?_of_deposit? hdeposit)
    obtain ⟨c, rfl, hvoted, hslot⟩ := exists_cell_of_mem_inputs hinput
    rcases h with ⟨grew, h⟩ | h
    · obtain ⟨hq, hkeeps⟩ := hp.of_depositNow hvoted h
      exact ⟨hq, hid, hkeeps, fun result hresult => absurd hresult (houtcome result)⟩
    · obtain ⟨hq, hkeeps⟩ := hp.of_depositNext hslot h
      exact ⟨hq, hid, hkeeps, fun result hresult => absurd hresult (houtcome result)⟩
  · obtain ⟨hq, hkeeps, hanswers⟩ := hp.of_tick htick
    exact ⟨hq, hid, hkeeps, fun _ _ => hanswers⟩

/-- Along a run votes are kept from each program to all later ones. -/
theorem Open.of_run {actions : List Action} {trace : List (Program × Outcome)}
    (hp : Open scope p)
    (hactions : ∀ action ∈ actions, ∀ target, action.target? = some target →
      target ∈ (memberOf p.id).inputs)
    (h : p.run patience actions = .ok trace) :
    (p :: trace.map Prod.fst).Pairwise KeepsVotes ∧
      ∀ step ∈ trace, Open scope step.1 ∧ step.1.id = p.id ∧
        ∀ result, step.2 = .ticked result → Answers step.1 := by
  induction actions generalizing p trace with
  | nil =>
      cases h
      exact ⟨List.pairwise_singleton _ _, nofun⟩
  | cons action actions ih =>
      obtain ⟨q, outcome, rest, hperform, hrest, rfl⟩ := Program.run_cons.1 h
      obtain ⟨haction, hactions⟩ := List.forall_mem_cons.1 hactions
      obtain ⟨hq, hid, hkeeps, hanswers⟩ := hp.of_perform haction hperform
      obtain ⟨hpairwise, hsteps⟩ := ih hq (hid ▸ hactions) hrest
      rw [hid] at hsteps
      refine ⟨List.pairwise_cons.2 ⟨?_, hpairwise⟩,
        List.forall_mem_cons.2 ⟨⟨hq, hid, hanswers⟩, hsteps⟩⟩
      intro r hr
      rcases List.mem_cons.1 hr with rfl | hr
      · exact hkeeps
      · exact fun key candidate hvote =>
          (List.pairwise_cons.1 hpairwise).1 r hr key candidate (hkeeps key candidate hvote)

theorem keepsVotes_of_le {steps : List (Program × Outcome)} {i j : Nat}
    {earlier later : Program × Outcome} (h : (steps.map Prod.fst).Pairwise KeepsVotes)
    (hi : steps[i]? = some earlier) (hj : steps[j]? = some later) (hij : i ≤ j) :
    KeepsVotes earlier.1 later.1 := by
  rcases Nat.eq_or_lt_of_le hij with rfl | hlt
  · obtain rfl := Option.some.inj (hi.symm.trans hj)
    exact fun _ _ => id
  · obtain ⟨hlt_i, rfl⟩ := List.getElem?_eq_some_iff.1 hi
    obtain ⟨hlt_j, rfl⟩ := List.getElem?_eq_some_iff.1 hj
    exact List.pairwise_iff_getElem.1 (List.pairwise_map.1 h) i j hlt_i hlt_j hlt

end Program

theorem open_declared {limit : Option Nat} {m : Member} {p : Program}
    (h : (Member.declare scope).runOn (.create id here limit) = (.ok m, p)) :
    m = memberOf p.id ∧ Open scope p := by
  rw [runOn_declare] at h
  obtain ⟨hm, rfl⟩ := Prod.mk.inj h
  exact ⟨(Except.ok.inj hm).symm, rfl, (memberSlots scope).below_refl.sameShape, nofun⟩

/-- A member votes once in a term.  Whatever reaches its inputs between ticks, a vote that is on
record stays there, and all replies that grant a vote in the term, those queued earlier included,
go to the candidate on record. -/
theorem Member.run_singleVote {scope addr candidate : String} {id patience i : Nat}
    {limit : Option Nat} {m : Member} {p : Program} {actions : List Action}
    {steps : List (Program × Outcome)} {step : Program × Outcome} {term : Int64}
    (hdeclare : (Member.declare scope).runOn (.create id addr limit) = (.ok m, p))
    (hactions : ∀ action ∈ actions, ∀ target, action.target? = some target → target ∈ m.inputs)
    (hrun : p.run patience actions = .ok steps) (hstep : steps[i]? = some step)
    (hvote : votedFor m step.1.facts term = .ok (some candidate)) :
    (∀ (j : Nat) (later : Program × Outcome), i ≤ j → steps[j]? = some later →
        votedFor m later.1.facts term = .ok (some candidate)) ∧
      ∀ (j : Nat) (sender : Program) (result : Except ProgramError TickReport),
        steps[j]? = some (sender, .ticked result) →
          ∀ d ∈ sender.pending, ∀ reply ∈ d.write.factsOf (.message .voteReply),
            reply.granted → reply.term = term → reply.addr = candidate := by
  obtain ⟨rfl, hp⟩ := open_declared hdeclare
  obtain ⟨hpairwise, hsteps⟩ := hp.of_run hactions hrun
  have hkeeps := (List.pairwise_cons.1 hpairwise).2
  have voted_iff : ∀ {k : Nat} {step : Program × Outcome}, steps[k]? = some step →
      (votedFor (memberOf p.id) step.1.facts term = .ok (some candidate) ↔
        Recorded step.1 (termKey term) candidate) := by
    intro k step hk
    obtain ⟨hopen, hid, _⟩ := hsteps step (List.mem_of_getElem? hk)
    rw [← hid]
    exact hopen.votedFor_iff
  have hrecorded := (voted_iff hstep).1 hvote
  constructor
  · intro j later hij hj
    exact (voted_iff hj).2 (keepsVotes_of_le hkeeps hstep hj hij _ _ hrecorded)
  · intro j sender result hj d hd reply hreply hgranted hterm
    obtain ⟨_, _, hanswers⟩ := hsteps _ (List.mem_of_getElem? hj)
    have hanswer : Recorded sender (termKey term) reply.addr :=
      hterm ▸ hanswers result rfl d hd reply hreply hgranted
    -- the later one of the two records holds both votes
    rcases Nat.le_total i j with hij | hji
    · exact hanswer.unique (keepsVotes_of_le hkeeps hstep hj hij _ _ hrecorded)
    · exact (keepsVotes_of_le hkeeps hj hstep hji _ _ hanswer).unique hrecorded

/-- Two candidates ask for the same vote, and later on a third one does, with a timeout in
between. -/
def contest : List Action :=
  [.addNext (memberOf 0).channels.voteRequest ⟨"a", 1, "b", 0, 0⟩,
    .addNext (memberOf 0).channels.voteRequest ⟨"a", 1, "c", 0, 0⟩, .tick,
    .addNext (memberOf 0).electionTimeout true,
    .merge (memberOf 0).channels.voteReply (.ofList [⟨"d", "a", 1, true⟩]),
    .addNext (memberOf 0).channels.voteRequest ⟨"a", 1, "d", 0, 0⟩,
    .addNext (memberOf 0).channels.voteRequest ⟨"a", 1, "c", 0, 0⟩, .tick]

theorem Member.run_singleVote_contest :
    ∃ steps step later result,
      ((Member.declare "").runOn (.create 0 "a" none)).2.run 9 contest = .ok steps ∧
      steps[2]? = some step ∧ votedFor (memberOf 0) step.1.facts 1 = .ok (some "c") ∧
      steps[7]? = some (later, .ticked result) ∧
      votedFor (memberOf 0) later.facts 1 = .ok (some "c") ∧
      ∀ d ∈ later.pending, ∀ reply ∈ d.write.factsOf (.message .voteReply),
        reply.granted → reply.term = 1 → reply.addr = "c" := by
  have hsome : (((Member.declare "").runOn (.create 0 "a" none)).2.run 9 contest).toOption.any
      (fun steps => (steps[2]?.any fun step =>
          (votedFor (memberOf 0) step.1.facts 1).toOption == some (some "c")) &&
        steps[7]?.any fun later => later.2.isTick) = true := by
    decide +kernel
  obtain ⟨steps, hsteps, hsome⟩ := (Option.any_eq_true _ _).1 hsome
  obtain ⟨hfirst, hlast⟩ := Bool.and_eq_true_iff.1 hsome
  obtain ⟨step, hstep, hvote⟩ := (Option.any_eq_true _ _).1 hfirst
  obtain ⟨⟨later, outcome⟩, hlater, htick⟩ := (Option.any_eq_true _ _).1 hlast
  have hrun := toOption_eq_some.1 hsteps
  have hvote := toOption_eq_some.1 (beq_iff_eq.1 hvote)
  cases outcome with
  | deposited grew => cases htick
  | queued => cases htick
  | ticked result =>
      obtain ⟨hkept, hreplies⟩ := run_singleVote (Prod.ext_iff.2 ⟨rfl, rfl⟩)
        (by decide +kernel) hrun hstep hvote
      exact ⟨steps, step, later, result, hrun, hstep, hvote, hlater,
        hkept 7 _ (by decide) hlater, hreplies 7 later result hlater⟩

end Ratchet.Election

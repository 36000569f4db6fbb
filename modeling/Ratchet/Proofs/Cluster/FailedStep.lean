import Ratchet.Proofs.Cluster.Steps
import Ratchet.Proofs.Program.Quiescence

/-!
# What is left after a failed step

A step can fail in each of its three phases, and what becomes of a message depends on the phase.

In a network without losses a message in flight stays there until it is queued at its target, or
until its target refuses it.  No failure changes that: a tick that fails and a channel that is
refused leave the network alone or add to it, and a delivery that fails leaves the messages behind
the refused one in flight (`deliver_split`).  So a message that is in flight, and that its target
takes, is queued by one of the calls up to the first one that succeeds, however many fail before
that.

The messages that stand in the routed channels are handed over in one phase, after the last tick.
If all ticks succeed they are in flight from then on, unless some channel is `Blocked`.  If however
a tick fails, the channels of the nodes that ticked before are not emptied into the network, and the
next tick resets them.  A message that stood there is gone, and nothing brings it back: nodes on
which nothing waits and nothing follows stay as they are (`Still`).

## Main result

* `Cluster.calls_deliver`: the messages that reach their targets in spite of failed steps.
-/

namespace Ratchet.Cluster

variable {patience : Nat} {p : Program} {e : Envelope} {nodes nodes' : Nodes}

/-! ## Where a message is -/

/-- There is a node that the message is meant for, and it has the channel of the message. -/
def Accepts (nodes : Nodes) (e : Envelope) : Prop :=
  ∃ p, nodes.get? e.target = some p ∧ (mail? p e).isSome

/-- The message stands in a routed channel of a node and is meant for another one. -/
def Stands (routes : List Route) (nodes : Nodes) (e : Envelope) : Prop :=
  ∃ p ∈ nodes.programs, ∃ r ∈ routes, ∃ es, outbound p r = .ok es ∧ e ∈ es

/-- The message is among those that `nodes'` have queued behind what waited at its target in
`nodes`. -/
def Queued (nodes nodes' : Nodes) (e : Envelope) : Prop :=
  ∃ p d ds, nodes.get? e.target = some p ∧ mail? p e = some d ∧ d ∈ ds ∧
    nodes'.get? e.target = some { p with pending := p.pending ++ ds }

/-- The call of a step that leads from one cluster to the other queues the message at its target,
once the nodes have ticked. -/
def QueuedBy (patience : Nat) (e : Envelope) (c c' : Cluster) : Prop :=
  ∃ nodes error, tickNodes patience c.nodes.programs c.nodes = .ok (nodes, error) ∧
    Queued nodes c'.nodes e

theorem Accepts.of_sameSetup (h : Accepts nodes e) (hnodes : nodes.SameSetup nodes') :
    Accepts nodes' e := by
  obtain ⟨p, hp, hmail⟩ := h
  obtain ⟨q, hq, hpq⟩ := hnodes.exists_get? hp
  exact ⟨q, hq, mail?_eq hpq ▸ hmail⟩

theorem Accepts.taken (h : Accepts nodes e) : Taken nodes e := by
  obtain ⟨p, hp, hmail⟩ := h
  intro q hq
  obtain rfl := Option.some.inj (hp.symm.trans hq)
  exact hmail

theorem Accepts.queued {es : List Envelope} (h : Accepts nodes e) (he : e ∈ es)
    (hnodes : Supplied nodes es nodes') : Queued nodes nodes' e := by
  obtain ⟨p, hp, hmail⟩ := h
  obtain ⟨d, hd⟩ := Option.isSome_iff_exists.1 hmail
  refine ⟨p, d, _, hp, hd, ?_, (hnodes e.target).trans (congrArg (Option.map _) hp)⟩
  exact List.mem_filterMap.2 ⟨e, he, (if_pos (Nodes.addr_of_get? hp).symm).trans hd⟩

/-! ## What one step does to a message -/

variable {c c' : Cluster} {result : Except ClusterError StepReport}

/-- A message that is in flight, or stands in a routed channel when all nodes have ticked, is queued
at its target unless the step fails.  Then it is in flight afterwards, or no step ever succeeds. -/
theorem step_keeps (hloss : c.network.config.loss.value ≤ 0)
    (hstep : c.step patience = .ok (c', result)) (haccepts : Accepts c.nodes e)
    (he : e ∈ c.network.inFlight ∨ ∃ nodes,
      tickNodes patience c.nodes.programs c.nodes = .ok (nodes, none) ∧ Stands c.routes nodes e) :
    QueuedBy patience e c c' ∨ (∃ error, result = .error error) ∧
      (e ∈ c'.network.inFlight ∨ Blocked c'.routes c'.nodes) := by
  obtain ⟨nodes, _, htick, hphases⟩ := step_cases hstep
  have haccepts' := haccepts.of_sameSetup (sameSetup_of_ticks htick)
  rcases hphases with ⟨error, rfl, rfl, herror⟩ | ⟨rfl, network, sent, _, hcollect, hphases⟩
  · refine .inr ⟨⟨_, herror⟩, .inl (he.resolve_right ?_)⟩
    rintro ⟨nodes', htick', _⟩
    cases htick.symm.trans htick'
  obtain ⟨_, hkept, hall, hrefused⟩ := collect_spec hloss hcollect
  rcases hphases with ⟨error, rfl, rfl, herror⟩ |
    ⟨rfl, outcome, hdeliver, hnodes', _, hnetwork, hresult⟩
  · refine .inr ⟨⟨_, herror⟩, .inr ?_⟩
    obtain ⟨box, hbox, hbad⟩ := hrefused nofun
    obtain ⟨hp, hr⟩ := mem_outboxes.1 hbox
    exact ⟨box.1, hp, box.2, hr, hbad⟩
  · have hflight : e ∈ network.inFlight := by
      rcases he with he | ⟨nodes', htick', p, hp, r, hr, es, hes, he⟩
      · exact hkept e he
      · cases htick.symm.trans htick'
        obtain ⟨es', hes', hmem⟩ := hall rfl (p, r) (mem_outboxes.2 ⟨hp, hr⟩)
        cases hes.symm.trans hes'
        exact hmem e he
    obtain ⟨_, queued, heq, hqueued, _, hend⟩ := deliver_split network.inFlight nodes
    obtain rfl := Except.ok.inj (hdeliver.symm.trans heq)
    by_cases hmem : e ∈ queued
    · exact .inl ⟨nodes, none, htick, hnodes' ▸ haccepts'.queued hmem hqueued⟩
    · -- the message is neither queued nor refused, so it is behind the refused one
      rcases hend with ⟨_, hsplit, _⟩ | ⟨hsome, refused, hrefused, hsplit⟩
      · exact absurd (hsplit ▸ hflight) hmem
      · have herror : ∃ error, result = .error error := by
          cases result with
          | error error => exact ⟨error, rfl⟩
          | ok report => exact absurd (hresult.1 ⟨report, rfl⟩) hsome
        refine .inr ⟨herror, .inl ?_⟩
        rw [hnetwork]
        rw [hsplit, List.mem_append, List.mem_cons] at hflight
        rcases hflight with hflight | rfl | hflight
        · exact absurd hflight hmem
        · exact absurd haccepts'.taken hrefused
        · exact hflight

/-! ## Calls that fail and calls that succeed -/

/-- The step is called again and again, whatever the calls return. -/
inductive Calls (patience : Nat) : Cluster → List (Cluster × Except ClusterError StepReport) → Prop
  | nil (c : Cluster) : Calls patience c []
  | cons {c c' : Cluster} {result : Except ClusterError StepReport}
      {calls : List (Cluster × Except ClusterError StepReport)}
      (step : c.step patience = .ok (c', result)) (rest : Calls patience c' calls) :
      Calls patience c ((c', result) :: calls)

/-- One of the calls queues the message at its target. -/
def QueuedIn (patience : Nat) (e : Envelope) :
    Cluster → List (Cluster × Except ClusterError StepReport) → Prop
  | _, [] => False
  | c, (c', _) :: calls => QueuedBy patience e c c' ∨ QueuedIn patience e c' calls

variable {calls : List (Cluster × Except ClusterError StepReport)}

/-- A message in flight is queued by the first call that succeeds, if not before. -/
theorem queuedIn_of_inFlight (hcalls : Calls patience c calls)
    (hok : ∃ call ∈ calls, ∃ report, call.2 = .ok report)
    (hloss : c.network.config.loss.value ≤ 0) (haccepts : Accepts c.nodes e)
    (he : e ∈ c.network.inFlight ∨ Blocked c.routes c.nodes) : QueuedIn patience e c calls := by
  induction hcalls with
  | nil c =>
      obtain ⟨_, hmem, _⟩ := hok
      cases hmem
  | @cons c c' result calls hstep _ ih =>
      obtain ⟨hnodes, hroutes⟩ := sameSetup_of_step hstep
      have hkept : QueuedBy patience e c c' ∨ (∃ error, result = .error error) ∧
          (e ∈ c'.network.inFlight ∨ Blocked c'.routes c'.nodes) := by
        rcases he with he | hblocked
        · exact step_keeps hloss hstep haccepts (.inl he)
        · have hblocked' := hroutes ▸ hblocked.of_sameSetup hnodes
          exact .inr ⟨hblocked.step_eq_error hloss hstep, .inr hblocked'⟩
      rcases hkept with hqueued | ⟨⟨error, rfl⟩, he'⟩
      · exact .inl hqueued
      · refine .inr (ih ?_ (config_of_step hloss hstep ▸ hloss) (haccepts.of_sameSetup hnodes) he')
        obtain ⟨call, hmem, report, hcall⟩ := hok
        rcases List.mem_cons.1 hmem with rfl | hmem
        · cases hcall
        · exact ⟨call, hmem, report, hcall⟩

/-- Failed steps lose nothing that is in flight, and nothing that was handed over.

A step fails.  A message was in flight before it, or stood in a routed channel when all nodes had
ticked, and its target has the channel of the message.  Then, in a network without losses, this call
or one of the later ones queues the message at its target, as soon as one of the later ones
succeeds. -/
theorem calls_deliver {error : ClusterError} (hloss : c.network.config.loss.value ≤ 0)
    (hstep : c.step patience = .ok (c', .error error)) (haccepts : Accepts c.nodes e)
    (he : e ∈ c.network.inFlight ∨ ∃ nodes,
      tickNodes patience c.nodes.programs c.nodes = .ok (nodes, none) ∧ Stands c.routes nodes e)
    (hcalls : Calls patience c' calls) (hok : ∃ call ∈ calls, ∃ report, call.2 = .ok report) :
    QueuedIn patience e c ((c', .error error) :: calls) := by
  rcases step_keeps hloss hstep haccepts he with hqueued | ⟨_, he'⟩
  · exact .inl hqueued
  · have haccepts' := haccepts.of_sameSetup (sameSetup_of_step hstep).1
    exact .inr (queuedIn_of_inFlight hcalls hok (config_of_step hloss hstep ▸ hloss) haccepts' he')

/-- Two nodes with a channel for results.  The second one also finds a number in its first tick,
which may take one pass only. -/
def announcing (queue : List Deposit) (channel : GrowSet QuorumResult) (found : GrowSet Int64)
    (inFlight : List Envelope) (ticks ticks' steps : Nat) : Cluster :=
  let inbox (channel : GrowSet QuorumResult) : Slot :=
    { Slot.fresh "result" (.set (.message .quorumResult)) with
      value := channel
      scratch := true
      channel := true }
  let script : Setup Unit := do
    let _ ← Setup.channel (.message .quorumResult) "result"
    let found ← Setup.declare (.set .int) "found"
    Setup.join .unit found .sameTick fun _ () => .ok (some 7)
  let sender : Program :=
    { Program.create 0 "a" none with store := [inbox channel], pending := queue, ticks := ticks }
  let finder : Program :=
    { (script.runOn (.create 1 "b" (some 1))).2 with
      store := [inbox .empty, { Slot.fresh "found" (.set .int) with value := found }]
      ticks := ticks' }
  { nodes := (Nodes.empty.put sender).put finder
    routes := [⟨"result", .quorumResult⟩]
    network := { Network.withDraws .reliable fun _ => 0 with inFlight := inFlight }
    steps := steps }

/-- A result for the second node. -/
def announcement : Envelope := ⟨"a", "b", "result", .quorumResult, ⟨"b"⟩⟩

/-- The first call fails as the second node ticks, and the second call delivers what was in
flight. -/
theorem calls_deliver_announcing :
    ∃ c' c'' error report,
      (announcing [] .empty .empty [announcement] 0 0 0).step 9 = .ok (c', .error error) ∧
      c'.step 9 = .ok (c'', .ok report) ∧
      QueuedIn 9 announcement (announcing [] .empty .empty [announcement] 0 0 0)
        [(c', .error error), (c'', .ok report)] := by
  obtain ⟨c'', report, hok⟩ : ∃ c'' report,
      (announcing [] .empty (.singleton 7) [announcement] 1 0 0).step 9 = .ok (c'', .ok report) :=
    ⟨_, _, rfl⟩
  have hfail : (announcing [] .empty .empty [announcement] 0 0 0).step 9 =
      .ok (announcing [] .empty (.singleton 7) [announcement] 1 0 0,
        .error (.program (.diverged "b" 0 1))) := rfl
  exact ⟨_, c'', _, report, hfail, hok,
    calls_deliver (by decide +kernel) hfail ⟨_, rfl, rfl⟩ (.inl List.mem_cons_self)
      (.cons hok (.nil c'')) ⟨_, List.mem_cons_self, report, rfl⟩⟩

/-! ## A message that is lost -/

/-- Nothing waits at the program, nothing of it is reset or follows, and it has nothing for other
nodes. -/
structure Idle (patience : Nat) (routes : List Route) (p : Program) : Prop where
  limit : 0 < p.passLimit.getD patience
  pending : p.pending = []
  reset : p.store.resetScratch = p.store
  closed : ∀ r ∈ p.sameTickRules, r.Closed p.id p.store
  nextTick : p.nextTickRules = []
  outbound : ∀ r ∈ routes, outbound p r = .ok []

variable {routes : List Route}

theorem Idle.exists_tick (h : Idle patience routes p) :
    ∃ q report, p.tick patience = .ok (q, .ok report) ∧ Idle patience routes q := by
  have hqueue : allConsequences ⟨p.id, p.store⟩ p.nextTickRules = .ok [] := by
    rw [h.nextTick]
    rfl
  refine ⟨_, _, Program.tick_of_closed h.limit h.reset h.pending h.closed hqueue, ?_⟩
  exact ⟨h.limit, rfl, h.reset, h.closed, h.nextTick, h.outbound⟩

theorem exists_tickNodes_of_idle {ps : List Program} (hps : ∀ p ∈ ps, Idle patience routes p)
    (hnodes : ∀ addr, ∀ p, nodes.get? addr = some p → Idle patience routes p) :
    ∃ nodes', tickNodes patience ps nodes = .ok (nodes', none) ∧
      ∀ addr, ∀ p, nodes'.get? addr = some p → Idle patience routes p := by
  induction ps generalizing nodes with
  | nil => exact ⟨nodes, rfl, hnodes⟩
  | cons p ps ih =>
      obtain ⟨hp, hps⟩ := List.forall_mem_cons.1 hps
      obtain ⟨q, report, htick, hq⟩ := hp.exists_tick
      have hput : ∀ addr, ∀ p, (nodes.put q).get? addr = some p → Idle patience routes p := by
        intro addr p' hp'
        rw [Nodes.get?_put] at hp'
        split at hp'
        · cases hp'
          exact hq
        · exact hnodes addr p' hp'
      obtain ⟨nodes', hrest, hidle⟩ := ih hps hput
      exact ⟨nodes', bind_eq_ok.2 ⟨_, htick, hrest⟩, hidle⟩

theorem collect_of_silent {boxes : List (Program × Route)} {net : Network Envelope} {sent : Nat}
    (h : ∀ box ∈ boxes, outbound box.1 box.2 = .ok []) :
    collect boxes net sent = (net, sent, none) := by
  induction boxes with
  | nil => rfl
  | cons box boxes ih =>
      obtain ⟨hbox, hboxes⟩ := List.forall_mem_cons.1 h
      rw [collect, hbox]
      exact ih hboxes

/-- All nodes are idle and nothing is in flight. -/
structure Still (patience : Nat) (c : Cluster) : Prop where
  nodes : ∀ addr, ∀ p, c.nodes.get? addr = some p → Idle patience c.routes p
  network : c.network.inFlight = []

theorem not_queuedBy_of_pending (h : ∀ p, c'.nodes.get? e.target = some p → p.pending = []) :
    ¬ QueuedBy patience e c c' := by
  rintro ⟨nodes, _, _, p, d, ds, _, _, hd, hp⟩
  have hempty : p.pending ++ ds = [] := h _ hp
  rw [List.append_eq_nil_iff] at hempty
  rw [hempty.2] at hd
  cases hd

theorem Still.not_queuedBy (h : c'.Still patience) : ¬ QueuedBy patience e c c' :=
  not_queuedBy_of_pending fun p hp => (h.nodes _ p hp).pending

theorem Still.exists_step (h : c.Still patience) :
    ∃ c' report, c.step patience = .ok (c', .ok report) ∧ c'.Still patience := by
  have hprograms : ∀ p ∈ c.nodes.programs, Idle patience c.routes p :=
    fun p hp => h.nodes p.addr p (Nodes.mem_programs.1 hp)
  obtain ⟨nodes, htick, hnodes⟩ := exists_tickNodes_of_idle hprograms h.nodes
  have hsilent : ∀ box ∈ outboxes c.routes nodes, outbound box.1 box.2 = .ok [] := by
    intro box hbox
    obtain ⟨hp, hr⟩ := mem_outboxes.1 hbox
    exact (hnodes _ _ (Nodes.mem_programs.1 hp)).outbound box.2 hr
  have hdeliver : deliver c.network.inFlight nodes 0 0 = .ok ⟨nodes, [], 0, 0, none⟩ := by
    rw [h.network]
    rfl
  exact ⟨_, _, step_eq_ok.2 ⟨nodes, c.network, 0, _, htick, collect_of_silent hsilent, hdeliver,
    rfl, rfl, rfl⟩, hnodes, rfl⟩

/-- From a still cluster no call fails and no call queues anything. -/
theorem Still.not_queuedIn (h : c.Still patience) (hcalls : Calls patience c calls) :
    (∀ call ∈ calls, ∃ report, call.2 = .ok report) ∧ ¬ QueuedIn patience e c calls := by
  induction hcalls with
  | nil c => exact ⟨nofun, id⟩
  | @cons c c' result calls hstep _ ih =>
      obtain ⟨_, report, hstep', hstill⟩ := h.exists_step
      cases hstep.symm.trans hstep'
      obtain ⟨hok, hqueued⟩ := ih hstill
      refine ⟨List.forall_mem_cons.2 ⟨⟨report, rfl⟩, hok⟩, ?_⟩
      rintro (hnow | hlater)
      · exact hstill.not_queuedBy hnow
      · exact hqueued hlater

theorem still_announcing : (announcing [] .empty (.singleton 7) [] 2 1 1).Still 9 := by
  refine ⟨fun addr p hp => ?_, rfl⟩
  have hmem := Nodes.mem_programs.2 ((Nodes.addr_of_get? hp).symm ▸ hp)
  rcases hmem with _ | ⟨_, _ | ⟨_, hmem⟩⟩
  · exact ⟨by decide, rfl, rfl, List.forall_mem_nil _, rfl, List.forall_mem_singleton.2 rfl⟩
  · -- the number was found already
    exact ⟨by decide, rfl, rfl, List.forall_mem_singleton.2 rfl, rfl,
      List.forall_mem_singleton.2 rfl⟩
  · cases hmem

/-- A result for the second node waits at the first one. -/
def stranded : Cluster :=
  announcing [⟨0, .add (.set (.message .quorumResult)) ⟨"b"⟩⟩] .empty .empty [] 0 0 0

/-- The first node ticks, so that the result stands in its channel, and then the second node fails
to.  The calls after that succeed, and none of them ever queues the result. -/
theorem stranded_lost :
    ∃ c' error, stranded.network.config.loss.value ≤ 0 ∧
      stranded.step 9 = .ok (c', .error error) ∧
      (∃ p p' report, stranded.nodes.get? "a" = some p ∧ p.tick 9 = .ok (p', .ok report) ∧
        c'.nodes.get? "a" = some p' ∧ ∃ r ∈ stranded.routes, outbound p' r = .ok [announcement]) ∧
      Accepts stranded.nodes announcement ∧
      (∃ c'' report, c'.step 9 = .ok (c'', .ok report)) ∧
      ∀ calls, Calls 9 c' calls → (∀ call ∈ calls, ∃ report, call.2 = .ok report) ∧
        ¬ QueuedIn 9 announcement stranded ((c', .error error) :: calls) := by
  have hfail : stranded.step 9 = .ok (announcing [] (.singleton ⟨"b"⟩) (.singleton 7) [] 1 0 0,
      .error (.program (.diverged "b" 0 1))) := rfl
  have hnext : (announcing [] (.singleton ⟨"b"⟩) (.singleton 7) [] 1 0 0).step 9 =
      .ok (announcing [] .empty (.singleton 7) [] 2 1 1, .ok ⟨0, 0, 0, 0⟩) := rfl
  refine ⟨_, _, by decide +kernel, hfail, ⟨_, _, _, rfl, rfl, rfl, _, List.mem_cons_self, rfl⟩,
    ⟨_, rfl, rfl⟩, ⟨_, _, hnext⟩, fun calls hcalls => ?_⟩
  -- the failed call leaves the queue of the second node empty
  have hfirst : ¬ QueuedBy 9 announcement stranded
      (announcing [] (.singleton ⟨"b"⟩) (.singleton 7) [] 1 0 0) := by
    refine not_queuedBy_of_pending fun p hp => ?_
    cases hp
    rfl
  cases hcalls with
  | nil => exact ⟨nofun, fun h => h.elim hfirst id⟩
  | @cons _ c'' result calls hstep hcalls =>
      cases hnext.symm.trans hstep
      obtain ⟨hok, hlater⟩ := still_announcing.not_queuedIn hcalls
      refine ⟨List.forall_mem_cons.2 ⟨⟨_, rfl⟩, hok⟩, ?_⟩
      rintro (h | h | h)
      · exact hfirst h
      · exact still_announcing.not_queuedBy h
      · exact hlater h

end Ratchet.Cluster

import Mathlib.Data.List.Forall2
import Ratchet.Protocol.KeyValue
import Ratchet.Proofs.Cluster.Delivery
import Ratchet.Proofs.Program.Queue

/-!
# Clusters without losses

Two clusters that differ only in what their networks do with messages: how often they double them,
how often they let them change places, and by which random words.  Neither loses any.

Between steps the programs of the two differ in their queues, and there only in the order and the
multiplicity of what waits (`Program.Requeued`).  A tick cannot tell such queues apart, since it
ends up with the least store above all of their deposits.  So the ticks of a step make the programs
of the two clusters *equal* (`tickNodes_eq`), whatever their rules are, and they hand over the same
messages.  The networks then pass on the same messages in other orders and numbers, and the queues
differ again, in the harmless way that they did before.

## Main result

* `Cluster.trace_lossFree`: the two clusters go on in step, and one fails where the other does.
-/

namespace Ratchet

/-! ## Programs with the same deposits waiting -/

/-- The program after a write is deposited, at once or for its next tick. -/
def Program.deposit? (p : Program) (timing : Timing) (id : RelationId) (w : Write) :
    Option Program :=
  match timing with
  | .sameTick => (p.depositNow id w).toOption.map Prod.fst
  | .nextTick => (p.depositNext id w).toOption

namespace Program.Requeued

variable {p q p' : Program} {id : RelationId} {w : Write}

/-- Deposits that the one program takes, the other one takes as well. -/
theorem deposit? {timing : Timing} (h : p.Requeued q) (hp : p.deposit? timing id w = some p') :
    ∃ q', q.deposit? timing id w = some q' ∧ p'.Requeued q' := by
  obtain ⟨queue, hqueue, rfl⟩ := h
  cases timing with
  | sameTick =>
      obtain ⟨⟨_, grew⟩, hnow, rfl⟩ := Option.map_eq_some_iff.1 hp
      obtain ⟨s, hs, hnow⟩ := bind_eq_ok.1 (toOption_eq_some.1 hnow)
      obtain ⟨⟨store, g⟩, hdeposit, heq⟩ := bind_eq_ok.1 hnow
      cases heq
      refine ⟨{ p with store := store, pending := queue }, ?_, queue, hqueue, rfl⟩
      refine Option.map_eq_some_iff.2 ⟨(_, grew), toOption_eq_some.2 ?_, rfl⟩
      exact bind_eq_ok.2 ⟨s, hs, bind_eq_ok.2 ⟨_, hdeposit, rfl⟩⟩
  | nextTick =>
      obtain ⟨s, hs, heq⟩ := bind_eq_ok.1 (toOption_eq_some.1 hp)
      cases heq
      refine ⟨{ p with pending := queue ++ [⟨id.slot, w⟩] },
        toOption_eq_some.2 (bind_eq_ok.2 ⟨s, hs, rfl⟩), _, fun d => ?_, rfl⟩
      rw [List.mem_append, List.mem_append, hqueue]

end Program.Requeued

/-! ## Nodes in step -/

/-- Ascending lists that look up alike at every key have values that are alike one by one. -/
theorem forall₂_of_lookup {V W : Type} {R : V → W → Prop} {es : List (String × V)}
    {fs : List (String × W)} (hes : AscendingKeys es) (hfs : AscendingKeys fs)
    (h : ∀ k, Option.Rel R (es.lookup k) (fs.lookup k)) :
    List.Forall₂ R (es.map Prod.snd) (fs.map Prod.snd) := by
  induction es generalizing fs with
  | nil =>
      cases fs with
      | nil => exact .nil
      | cons f fs =>
          have hf := h f.1
          rw [List.lookup_cons_self] at hf
          cases hf
  | cons e es ih =>
      obtain ⟨key, a⟩ := e
      cases fs with
      | nil =>
          have he := h key
          rw [List.lookup_cons_self] at he
          cases he
      | cons f fs =>
          obtain ⟨other, b⟩ := f
          have ⟨hhead, htail⟩ := List.pairwise_cons.1 hes
          have ⟨hhead', htail'⟩ := List.pairwise_cons.1 hfs
          have hkey := h key
          have hother := h other
          rw [List.lookup_cons_self] at hkey hother
          cases hcompare : compare key other with
          | lt =>
              rw [hfs.lookup_of_lt_head hcompare] at hkey
              cases hkey
          | gt =>
              rw [hes.lookup_of_lt_head (Element.gt_iff_lt.1 hcompare)] at hother
              cases hother
          | eq =>
              obtain rfl := Element.eq_iff.1 hcompare
              rw [List.lookup_cons_self] at hkey
              cases hkey with
              | some hab =>
                  refine .cons hab (ih htail htail' fun k => ?_)
                  by_cases hk : k = key
                  · rw [hk, lookup_eq_none_of_lt hhead, lookup_eq_none_of_lt hhead']
                    exact .none
                  · have hne := mt Element.eq_iff.1 hk
                    have hrest := h k
                    rwa [lookup_cons_of_ne hne, lookup_cons_of_ne hne] at hrest

/-- At every address there are programs that differ in their queues only. -/
def Nodes.Requeued (nodes nodes' : Nodes) : Prop :=
  ∀ addr, Option.Rel Program.Requeued (nodes.get? addr) (nodes'.get? addr)

namespace Nodes

variable {nodes nodes' : Nodes} {p q : Program} {addr : String}

theorem ext_get? (h : ∀ addr, nodes.get? addr = nodes'.get? addr) : nodes = nodes' := by
  obtain ⟨m, hm⟩ := nodes
  obtain ⟨n, hn⟩ := nodes'
  obtain rfl := StringMap.ext_get? h
  rfl

namespace Requeued

theorem symm (h : nodes.Requeued nodes') : nodes'.Requeued nodes := by
  intro addr
  have hpq := h addr
  generalize nodes.get? addr = x at hpq ⊢
  generalize nodes'.get? addr = y at hpq ⊢
  cases hpq with
  | some hpq => exact .some hpq.symm
  | none => exact .none

theorem put (h : nodes.Requeued nodes') (hpq : p.Requeued q) :
    (nodes.put p).Requeued (nodes'.put q) := by
  intro addr
  rw [get?_put, get?_put, hpq.addr_eq]
  split
  · exact .some hpq
  · exact h addr

theorem exists_get? (h : nodes.Requeued nodes') (hp : nodes.get? addr = some p) :
    ∃ q, nodes'.get? addr = some q ∧ p.Requeued q := by
  have hpq := h addr
  rw [hp] at hpq
  generalize nodes'.get? addr = y at hpq ⊢
  cases hpq with
  | some hpq => exact ⟨_, rfl, hpq⟩

theorem map_store (h : nodes.Requeued nodes') (addr : String) :
    (nodes'.get? addr).map Program.store = (nodes.get? addr).map Program.store := by
  have hpq := h addr
  generalize nodes.get? addr = x at hpq ⊢
  generalize nodes'.get? addr = y at hpq ⊢
  cases hpq with
  | some hpq => exact congrArg some hpq.store_eq
  | none => rfl

theorem programs (h : nodes.Requeued nodes') :
    List.Forall₂ Program.Requeued nodes.programs nodes'.programs :=
  forall₂_of_lookup nodes.map.ascending nodes'.map.ascending h

end Requeued

end Nodes

namespace Cluster

variable {patience : Nat}

/-- When all programs have ticked, there is no difference left. -/
theorem tickNodes_eq {ps qs : List Program} {nodes nodes' final : Nodes}
    (h : List.Forall₂ Program.Requeued ps qs)
    (hsame : ∀ addr, addr ∉ ps.map Program.addr → nodes.get? addr = nodes'.get? addr)
    (htick : tickNodes patience ps nodes = .ok (final, none)) :
    tickNodes patience qs nodes' = .ok (final, none) := by
  induction h generalizing nodes nodes' with
  | nil =>
      obtain rfl := Nodes.ext_get? fun addr => hsame addr List.not_mem_nil
      exact htick
  | @cons p q ps qs hpq _ ih =>
      obtain ⟨⟨p', result⟩, hp, htick⟩ := bind_eq_ok.1 htick
      cases result with
      | error e => cases htick
      | ok report =>
          obtain ⟨report', hq⟩ := hpq.tick hp
          refine bind_eq_ok.2 ⟨_, hq, ih ?_ htick⟩
          intro addr haddr
          rw [Nodes.get?_put, Nodes.get?_put]
          split
          · rfl
          · next hne =>
              refine hsame addr fun hmem => ?_
              rcases List.mem_cons.1 hmem with rfl | hmem
              · exact hne (Program.sameSetup_of_tick hp).addr_eq.symm
              · exact haddr hmem

/-! ## Steps -/

/-- The channels of all nodes, in the order in which their messages are collected. -/
def outboxes (routes : List Route) (nodes : Nodes) : List (Program × Route) :=
  nodes.programs.flatMap fun p => routes.map fun r => (p, r)

/-- What the phases of a completed step do. -/
theorem step_eq_ok {c c' : Cluster} {report : StepReport} :
    c.step patience = .ok (c', .ok report) ↔ ∃ nodes network sent outcome,
      tickNodes patience c.nodes.programs c.nodes = .ok (nodes, none) ∧
      collect (outboxes c.routes nodes) c.network 0 = (network, sent, none) ∧
      deliver network.inFlight nodes 0 0 = .ok outcome ∧ outcome.error = none ∧
      c' = { c with
        nodes := outcome.nodes
        network := { network with inFlight := outcome.rest }
        steps := c.steps + 1 } ∧
      report = ⟨c.steps, sent, outcome.delivered, outcome.undeliverable⟩ := by
  constructor
  · intro h
    obtain ⟨⟨nodes, error⟩, hnodes, h⟩ := bind_eq_ok.1 h
    cases error with
    | some e => cases h
    | none =>
        rcases hcollect : collect (outboxes c.routes nodes) c.network 0 with
          ⟨network, sent, error⟩
        unfold outboxes at hcollect
        simp only [hcollect] at h
        cases error with
        | some e => cases h
        | none =>
            obtain ⟨outcome, houtcome, h⟩ := bind_eq_ok.1 h
            obtain ⟨nodes', rest, delivered, undeliverable, error⟩ := outcome
            cases error with
            | some e => cases h
            | none =>
                cases h
                exact ⟨nodes, network, sent, _, hnodes, hcollect, houtcome, rfl, rfl, rfl⟩
  · rintro ⟨nodes, network, sent, outcome, hnodes, hcollect, houtcome, herror, rfl, rfl⟩
    unfold outboxes at hcollect
    refine bind_eq_ok.2 ⟨_, hnodes, ?_⟩
    simp only [hcollect]
    refine bind_eq_ok.2 ⟨outcome, houtcome, ?_⟩
    obtain ⟨nodes', rest, delivered, undeliverable, error⟩ := outcome
    cases herror
    rfl

theorem Supplied.requeued {es es' : List Envelope} {nodes m n : Nodes}
    (hm : Supplied nodes es m) (hn : Supplied nodes es' n) (hmem : ∀ e, e ∈ es' ↔ e ∈ es) :
    m.Requeued n := by
  intro addr
  rw [hm, hn]
  cases nodes.get? addr with
  | none => exact .none
  | some p =>
      refine .some ⟨_, fun d => ?_, rfl⟩
      simp only [withMail, List.mem_append, List.mem_filterMap, hmem]

end Cluster

/-- Two networks that lose nothing have the same messages in flight. -/
structure Network.SameTraffic {M : Type} (net net' : Network M) : Prop where
  lossFree : net.config.loss.value ≤ 0
  lossFree' : net'.config.loss.value ≤ 0
  mem_iff : ∀ m, m ∈ net'.inFlight ↔ m ∈ net.inFlight

theorem Network.SameTraffic.symm {M : Type} {net net' : Network M} (h : net.SameTraffic net') :
    net'.SameTraffic net :=
  ⟨h.lossFree', h.lossFree, fun m => (h.mem_iff m).symm⟩

theorem Network.SameTraffic.sendAll {M : Type} {net net' : Network M} {ms : List M}
    (h : net.SameTraffic net') : (net.sendAll ms).SameTraffic (net'.sendAll ms) := by
  obtain ⟨hconfig, hmem⟩ := mem_sendAll ms h.lossFree
  obtain ⟨hconfig', hmem'⟩ := mem_sendAll ms h.lossFree'
  refine ⟨hconfig ▸ h.lossFree, hconfig' ▸ h.lossFree', fun m => ?_⟩
  rw [hmem, hmem', h.mem_iff]

namespace Cluster

variable {patience : Nat}

/-- What is collected does not depend on the network that it is handed to. -/
theorem collect_congr {boxes : List (Program × Route)} {net net' final : Network Envelope}
    {sent total : Nat} {error : Option ProgramError} (h : net.SameTraffic net')
    (hcollect : collect boxes net sent = (final, total, error)) :
    ∃ final', collect boxes net' sent = (final', total, error) ∧ final.SameTraffic final' := by
  induction boxes generalizing net net' sent with
  | nil =>
      cases hcollect
      exact ⟨net', rfl, h⟩
  | cons box boxes ih =>
      obtain ⟨p, r⟩ := box
      rw [collect] at hcollect ⊢
      cases houtbound : outbound p r with
      | error e =>
          rw [houtbound] at hcollect
          cases hcollect
          exact ⟨net', rfl, h⟩
      | ok envelopes =>
          rw [houtbound] at hcollect
          exact ih h.sendAll hcollect

/-- The same programs and routes but for the order and multiplicity of what waits and of what is in
flight, and no losses. -/
structure InStep (c d : Cluster) : Prop where
  nodes : c.nodes.Requeued d.nodes
  routes : d.routes = c.routes
  network : c.network.SameTraffic d.network

namespace InStep

variable {c d c' : Cluster}

theorem symm (h : c.InStep d) : d.InStep c := ⟨h.nodes.symm, h.routes.symm, h.network.symm⟩

/-- A step that one of the clusters completes, the other one completes as well. -/
theorem step {report : StepReport} (h : c.InStep d)
    (hstep : c.step patience = .ok (c', .ok report)) :
    ∃ d' report', d.step patience = .ok (d', .ok report') ∧ c'.InStep d' ∧
      report'.sent = report.sent := by
  obtain ⟨nodes, network, sent, outcome, htick, hcollect, hdeliver, herror, rfl, rfl⟩ :=
    step_eq_ok.1 hstep
  have htick' : tickNodes patience d.nodes.programs d.nodes = .ok (nodes, none) := by
    refine tickNodes_eq h.nodes.programs (fun addr haddr => ?_) htick
    -- where nothing ticks, there is nothing
    cases hp : c.nodes.get? addr with
    | some p =>
        have haddr' := Nodes.addr_of_get? hp
        exact absurd (List.mem_map.2 ⟨p, Nodes.mem_programs.2 (haddr'.symm ▸ hp), haddr'⟩) haddr
    | none =>
        cases hq : d.nodes.get? addr with
        | none => rfl
        | some q =>
            obtain ⟨p, hp', _⟩ := h.nodes.symm.exists_get? hq
            cases hp.symm.trans hp'
  obtain ⟨network', hcollect', htraffic⟩ := collect_congr h.network hcollect
  rw [← h.routes] at hcollect'
  -- both deliver the same messages to the same nodes
  obtain ⟨_, heq, htaken, hnodes⟩ := deliver_spec network.inFlight nodes
  obtain rfl := Except.ok.inj (hdeliver.symm.trans heq)
  obtain ⟨outcome', hdeliver', htaken', hnodes'⟩ :=
    deliver_spec network'.inFlight nodes
  have herror' : outcome'.error = none :=
    htaken'.2 fun e he => htaken.1 herror e ((htraffic.mem_iff e).1 he)
  obtain ⟨hrest, hsupplied⟩ := hnodes herror
  obtain ⟨hrest', hsupplied'⟩ := hnodes' herror'
  refine ⟨_, _, step_eq_ok.2 ⟨nodes, network', sent, outcome', htick', hcollect', hdeliver',
    herror', rfl, rfl⟩, ⟨hsupplied.requeued hsupplied' htraffic.mem_iff, h.routes, ?_⟩, rfl⟩
  refine ⟨htraffic.lossFree, htraffic.lossFree', fun e => ?_⟩
  rw [hrest, hrest']

end InStep

/-! ## Runs -/

/-- Something that is done to a cluster from outside. -/
inductive Action where
  /-- A write is deposited on a node, at once or for its next tick. -/
  | deposit (addr : String) (timing : Timing) (target : RelationId) (write : Write)
  | step

/-- The cluster after an action, with what a step reports.  An action that fails has no outcome. -/
def perform? (patience : Nat) (c : Cluster) : Action → Option (Cluster × Option StepReport)
  | .deposit addr timing target write => do
    let p ← c.nodes.get? addr
    let p ← p.deposit? timing target write
    return ({ c with nodes := c.nodes.put p }, none)
  | .step =>
    match c.step patience with
    | .ok (c, .ok report) => some (c, some report)
    | _ => none

/-- The clusters that a list of actions leads to, up to the first action that fails. -/
def trace (patience : Nat) : Cluster → List Action → List (Cluster × Option StepReport)
  | _, [] => []
  | c, action :: actions =>
    match c.perform? patience action with
    | some (c, report) => (c, report) :: trace patience c actions
    | none => []

variable {c d c' : Cluster}

/-- An action that one of the clusters completes, the other one completes as well. -/
theorem InStep.perform? {action : Action} {report : Option StepReport} (h : c.InStep d)
    (hc : c.perform? patience action = some (c', report)) :
    ∃ d' report', d.perform? patience action = some (d', report') ∧ c'.InStep d' ∧
      report'.map StepReport.sent = report.map StepReport.sent := by
  cases action with
  | step =>
      unfold Cluster.perform? at hc ⊢
      dsimp only at hc ⊢
      split at hc
      · next report hstep =>
          cases hc
          obtain ⟨d', report', hstep', hinStep, hsent⟩ := h.step hstep
          rw [hstep']
          exact ⟨d', some report', rfl, hinStep, congrArg some hsent⟩
      · cases hc
  | deposit addr timing target write =>
      obtain ⟨p, hp, hc⟩ := Option.bind_eq_some_iff.1 hc
      obtain ⟨p', hp', heq⟩ := Option.bind_eq_some_iff.1 hc
      cases heq
      obtain ⟨q, hq, hpq⟩ := h.nodes.exists_get? hp
      obtain ⟨q', hq', hpq'⟩ := hpq.deposit? hp'
      exact ⟨{ d with nodes := d.nodes.put q' }, none,
        Option.bind_eq_some_iff.2 ⟨q, hq, Option.bind_eq_some_iff.2 ⟨q', hq', rfl⟩⟩,
        ⟨h.nodes.put hpq', h.routes, h.network⟩, rfl⟩

theorem InStep.trace (h : c.InStep d) (actions : List Action) :
    List.Forall₂ (fun x y => x.1.InStep y.1 ∧ y.2.map StepReport.sent = x.2.map StepReport.sent)
      (c.trace patience actions) (d.trace patience actions) := by
  induction actions generalizing c d with
  | nil => exact .nil
  | cons action actions ih =>
      rw [Cluster.trace, Cluster.trace]
      cases hc : c.perform? patience action with
      | some result =>
          obtain ⟨c', report⟩ := result
          obtain ⟨d', report', hd, hinStep, hsent⟩ := h.perform? hc
          rw [hd]
          exact .cons ⟨hinStep, hsent⟩ (ih hinStep)
      | none =>
          cases hd : d.perform? patience action with
          | none => exact .nil
          | some result =>
              obtain ⟨_, _, hc', _⟩ := h.symm.perform? hd
              cases hc.symm.trans hc'

/-- Duplication and reordering do not show.  Two clusters with the same programs and routes whose
networks lose nothing complete the same actions of any list, up to the first one that fails, and
after each of them every node has the same relations in both and a step has sent as many
messages. -/
theorem trace_lossFree (actions : List Action) (hnodes : d.nodes = c.nodes)
    (hroutes : d.routes = c.routes) (hc : c.network.config.loss.value ≤ 0)
    (hd : d.network.config.loss.value ≤ 0)
    (hflight : ∀ e, e ∈ d.network.inFlight ↔ e ∈ c.network.inFlight) :
    List.Forall₂ (fun x y =>
        (∀ addr, (y.1.nodes.get? addr).map Program.store =
          (x.1.nodes.get? addr).map Program.store) ∧
        y.2.map StepReport.sent = x.2.map StepReport.sent)
      (c.trace patience actions) (d.trace patience actions) := by
  have hsame : c.nodes.Requeued d.nodes := by
    intro addr
    rw [hnodes]
    cases c.nodes.get? addr with
    | none => exact .none
    | some p => exact .some ⟨p.pending, fun _ => Iff.rfl, rfl⟩
  have hinStep : c.InStep d := ⟨hsame, hroutes, hc, hd, hflight⟩
  exact (hinStep.trace actions).imp fun _ _ h => ⟨h.1.nodes.map_store, h.2⟩

/-- Two replicas of a key-value store, with puts and their answers travelling between them. -/
def replicas (duplication reordering : Rate) : Cluster where
  nodes := (Nodes.empty.put ((KeyValue.Replica.declare "").runOn (.create 0 "a" none)).2).put
    ((KeyValue.Replica.declare "").runOn (.create 1 "b" none)).2
  routes := [⟨"KVPut", .put⟩, ⟨"KVPutResponse", .putReply⟩]
  network := .withDraws ⟨.never, duplication, reordering, 0⟩ fun _ => 0
  steps := 0

/-- Two puts for the second replica are left at the first one, and three steps taken. -/
def forwarding : List Action :=
  [.deposit "a" .nextTick ⟨0, 0⟩ (.add (.set (.message .put)) ⟨1, "b", "a", "k", .ofMaxInt ⟨3⟩⟩),
    .deposit "a" .nextTick ⟨0, 0⟩ (.add (.set (.message .put)) ⟨2, "b", "a", "k", .ofMaxInt ⟨5⟩⟩),
    .step, .step, .step]

/-- In one of the clusters every message is doubled and changes places with another one. -/
theorem trace_lossFree_replicas :
    ((replicas .never .never).trace 9 forwarding).map
        (fun x => x.2.map StepReport.delivered) = [none, none, some 2, some 0, some 2] ∧
      ((replicas ⟨1⟩ ⟨1⟩).trace 9 forwarding).map
        (fun x => x.2.map StepReport.delivered) = [none, none, some 4, some 0, some 4] ∧
      List.Forall₂ (fun x y =>
          (∀ addr, (y.1.nodes.get? addr).map Program.store =
            (x.1.nodes.get? addr).map Program.store) ∧
          y.2.map StepReport.sent = x.2.map StepReport.sent)
        ((replicas .never .never).trace 9 forwarding)
        ((replicas ⟨1⟩ ⟨1⟩).trace 9 forwarding) :=
  ⟨by decide +kernel, by decide +kernel,
    trace_lossFree forwarding rfl rfl (by decide +kernel) (by decide +kernel) fun _ => Iff.rfl⟩

end Cluster

end Ratchet

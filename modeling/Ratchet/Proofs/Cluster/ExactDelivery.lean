import Ratchet.Proofs.Cluster.Fates
import Ratchet.Proofs.Program.Derived

/-!
# Exact delivery

A step that succeeds accounts for every message (`Account`).  The messages that it collects are
those that its ticks left in routed channels for other nodes.  Each of them is lost, or arrives in
one or two copies, and what was in flight before the step arrives as well, in one copy.  Nothing
else arrives.  What arrives is queued at the node that it is meant for, or counted if there is none.

The ticks of a step come first, on the programs from before the step, so none of them sees what the
step delivers.  The ticks of the next step do.  A routed channel starts them empty, and afterwards
it consists of the messages that were delivered to it, of those that were queued from outside, and
of those that the rules of its node wrote, in the tick before or in this one.

## Main result

* `Cluster.step_delivers`: one step, and the channels after the next one.
-/

namespace Ratchet

namespace Cluster

variable {patience : Nat} {c c' d d' : Cluster} {report : StepReport} {p q : Program}
  {e : Envelope} {addr : String}

/-! ## The account of a step -/

/-- What a step did: the nodes after its ticks, the messages that it collected, and the messages
that arrived, in the order in which they did. -/
structure Account (patience : Nat) (c c' : Cluster) (report : StepReport) (ticked : Nodes)
    (outgoing arrivals : List Envelope) : Prop where
  ticks : Ticked patience c.nodes ticked
  nodup : outgoing.Nodup
  posted : ∀ e, e ∈ outgoing ↔ Posted c.routes ticked e
  sent : report.sent = outgoing.length
  /-- Each message is lost or arrives in one or two copies. -/
  fates : ∃ copies : Envelope → Nat, (∀ e, copies e ≤ 2) ∧
    c'.network.lost = c.network.lost ++ outgoing.filter (fun e => copies e = 0) ∧
    arrivals.Perm (c.network.inFlight ++ outgoing.flatMap fun e => List.replicate (copies e) e)
  queued : Supplied ticked arrivals c'.nodes
  taken : ∀ e ∈ arrivals, Taken ticked e
  delivered : report.delivered = arrivals.countP fun e => (ticked.get? e.target).isSome
  undeliverable : report.undeliverable = arrivals.countP fun e => (ticked.get? e.target).isNone
  inFlight : c'.network.inFlight = []

theorem exists_account (hroutes : c.routes.Nodup)
    (hstep : c.step patience = .ok (c', .ok report)) :
    ∃ ticked outgoing arrivals, Account patience c c' report ticked outgoing arrivals := by
  obtain ⟨ticked, network, sent, outcome, htick, hcollect, hdeliver, herror, rfl, rfl⟩ :=
    step_eq_ok.1 hstep
  obtain ⟨outgoing, hnodup, rfl, hsent, hmem⟩ :=
    collect_eq_sendAll (pairwise_outboxes hroutes) hcollect
  obtain ⟨copies, hle, hlost, hflight⟩ := c.network.sendAll_fates outgoing hnodup
  obtain ⟨_, heq, htaken, hqueued⟩ := deliver_spec (c.network.sendAll outgoing).inFlight ticked
  obtain rfl := Except.ok.inj (hdeliver.symm.trans heq)
  obtain ⟨hrest, hsupplied⟩ := hqueued herror
  obtain ⟨hdelivered, hundeliverable⟩ := counts_of_deliver hdeliver herror
  exact ⟨ticked, outgoing, (c.network.sendAll outgoing).inFlight, {
    ticks := ticked_of_tickNodes htick
    nodup := hnodup
    posted := fun e => (hmem e).trans posted_iff.symm
    sent := hsent.trans (Nat.zero_add _)
    fates := ⟨copies, hle, hlost, hflight⟩
    queued := hsupplied
    taken := htaken.1 herror
    delivered := hdelivered.trans (Nat.zero_add _)
    undeliverable := hundeliverable.trans (Nat.zero_add _)
    inFlight := hrest }⟩

/-! ## Between two steps -/

/-- Something that is done to a cluster between two steps. -/
inductive Outside where
  /-- A write is deposited on a node, at once or for its next tick. -/
  | deposit (addr : String) (timing : Timing) (target : RelationId) (write : Write)
  | retransmit

/-- The cluster after something is done to it, if nothing of it is refused. -/
def outside? : Cluster → List Outside → Option Cluster
  | c, [] => some c
  | c, .deposit addr timing target write :: rest => do
    let p ← c.nodes.get? addr
    let p ← p.deposit? timing target write
    outside? { c with nodes := c.nodes.put p } rest
  | c, .retransmit :: rest => outside? c.retransmitLost rest

/-- What is lost stays lost or is put back in flight. -/
theorem network_of_outside {actions : List Outside} (h : c.outside? actions = some d) :
    d.network.inFlight ++ d.network.lost = c.network.inFlight ++ c.network.lost ∧
      (.retransmit ∈ actions → d.network.lost = []) ∧
      (.retransmit ∉ actions → d.network.inFlight = c.network.inFlight) ∧
      (c.network.lost = [] → d.network.lost = []) ∧ d.routes = c.routes := by
  induction actions generalizing c with
  | nil =>
      cases h
      simp
  | cons action actions ih =>
      cases action with
      | deposit addr timing target write =>
          obtain ⟨p, _, h⟩ := Option.bind_eq_some_iff.1 h
          obtain ⟨p', _, h⟩ := Option.bind_eq_some_iff.1 h
          simpa using ih h
      | retransmit =>
          obtain ⟨hall, _, _, hlost, hroutes⟩ := ih (c := c.retransmitLost) h
          have hnone : d.network.lost = [] := hlost rfl
          refine ⟨hall.trans ?_, fun _ => hnone, ?_, fun _ => hnone, hroutes⟩
          · simp [retransmitLost, Network.retransmitLost]
          · exact fun hnot => absurd List.mem_cons_self hnot

theorem deposit?_cases {timing : Timing} {target : RelationId} {write : Write}
    (h : p.deposit? timing target write = some q) : p.SameSetup q ∧
      ∀ x, x ∈ q.pending ↔ x ∈ p.pending ∨ timing = .nextTick ∧ x = ⟨target.slot, write⟩ := by
  cases timing with
  | sameTick =>
      obtain ⟨⟨_, grew⟩, hnow, rfl⟩ := Option.map_eq_some_iff.1 h
      have hnow := toOption_eq_some.1 hnow
      refine ⟨Program.sameSetup_of_depositNow hnow, ?_⟩
      obtain ⟨_, _, hnow⟩ := bind_eq_ok.1 hnow
      obtain ⟨_, _, heq⟩ := bind_eq_ok.1 hnow
      cases heq
      simp
  | nextTick =>
      have hnext := toOption_eq_some.1 h
      refine ⟨Program.sameSetup_of_depositNext hnext, ?_⟩
      obtain ⟨_, _, heq⟩ := bind_eq_ok.1 hnext
      cases heq
      simp

/-- A node has what is queued from outside behind what waited there. -/
theorem exists_get?_of_outside {actions : List Outside} (h : c.outside? actions = some d)
    (hp : c.nodes.get? addr = some p) : ∃ q, d.nodes.get? addr = some q ∧ p.SameSetup q ∧
      ∀ x, x ∈ q.pending ↔ x ∈ p.pending ∨ ∃ target write,
        .deposit addr .nextTick target write ∈ actions ∧ x = ⟨target.slot, write⟩ := by
  induction actions generalizing c p with
  | nil =>
      cases h
      exact ⟨p, hp, .refl p, by simp⟩
  | cons action actions ih =>
      cases action with
      | deposit other timing target write =>
          obtain ⟨o, ho, hput⟩ := Option.bind_eq_some_iff.1 h
          obtain ⟨o', ho', hrest⟩ := Option.bind_eq_some_iff.1 hput
          obtain ⟨hsame, hpending⟩ := deposit?_cases ho'
          have haddr : o'.addr = other := hsame.addr_eq.trans (Nodes.addr_of_get? ho)
          by_cases heq : addr = other
          · subst heq
            cases hp.symm.trans ho
            have hput : (c.nodes.put o').get? addr = some o' := by
              rw [Nodes.get?_put, if_pos haddr.symm]
            obtain ⟨q, hq, hoq, hmem⟩ := ih hrest hput
            refine ⟨q, hq, hsame.trans hoq, ?_⟩
            intro x
            rw [hmem, hpending]
            constructor
            · rintro ((hx | ⟨rfl, rfl⟩) | ⟨target', write', hmem, rfl⟩)
              · exact .inl hx
              · exact .inr ⟨target, write, List.mem_cons_self, rfl⟩
              · exact .inr ⟨target', write', List.mem_cons_of_mem _ hmem, rfl⟩
            · rintro (hx | ⟨target', write', hmem, rfl⟩)
              · exact .inl (.inl hx)
              · rcases List.mem_cons.1 hmem with heq | hmem
                · cases heq
                  exact .inl (.inr ⟨rfl, rfl⟩)
                · exact .inr ⟨target', write', hmem, rfl⟩
          · have hput : (c.nodes.put o').get? addr = some p := by
              rw [Nodes.get?_put, if_neg (by rw [haddr]; exact heq), hp]
            obtain ⟨q, hq, hpq, hmem⟩ := ih hrest hput
            exact ⟨q, hq, hpq, fun x => by rw [hmem]; simp [heq]⟩
      | retransmit =>
          obtain ⟨q, hq, hpq, hmem⟩ := ih (c := c.retransmitLost) h hp
          exact ⟨q, hq, hpq, fun x => by rw [hmem]; simp⟩

/-! ## The channels after the next step -/

/-- Whatever a route goes through on a node is a channel. -/
def RoutesChannels (c : Cluster) : Prop :=
  ∀ p ∈ c.nodes.programs, ∀ r ∈ c.routes, ∀ s ∈ p.store, s.name = r.channel →
    s.channel = true ∧ s.scratch = true

theorem RoutesChannels.resets {r : Route} {t : RelationType} {h : Handle t} (hc : c.RoutesChannels)
    (hp : c.nodes.get? addr = some p) (hr : r ∈ c.routes)
    (hh : p.relation t r.channel = .ok h) : h.Resets p.store true := by
  obtain ⟨s, hs, hname, _, _⟩ := Program.slot_of_relation hh
  have hmem : p ∈ c.nodes.programs := Nodes.mem_programs.2 (Nodes.addr_of_get? hp ▸ hp)
  exact ⟨s, hs, (hc p hmem r hr s (List.mem_of_getElem? hs) hname).2⟩

/-- Mail is for the relation of a handle if it names its channel and its type. -/
theorem mail?_putBy {m : MessageType} {channel : String} {h : Handle (.set (.message m))}
    {x : m.Carrier} (hh : p.relation (.set (.message m)) channel = .ok h) :
    (∃ d, mail? p e = some d ∧ d.slot = h.id.slot ∧ x ∈ d.write.factsOf (.message m)) ↔
      e = ⟨e.sender, e.target, channel, m, x⟩ := by
  constructor
  · rintro ⟨d, hmail, hslot, hx⟩
    obtain ⟨sender, target, other, m', x'⟩ := e
    unfold mail? at hmail
    cases hrelation : p.relation (.set (.message m')) other with
    | error error =>
        rw [hrelation] at hmail
        cases hmail
    | ok handle =>
        rw [hrelation] at hmail
        cases hmail
        -- one slot has one name and one type
        obtain ⟨s, hs, hname, htype, _⟩ := Program.slot_of_relation hh
        obtain ⟨s', hs', hname', htype', _⟩ := Program.slot_of_relation hrelation
        dsimp only at hslot
        rw [hslot, hs] at hs'
        obtain rfl := Option.some.inj hs'
        obtain rfl : m' = m := by cases htype'.symm.trans htype; rfl
        rw [Write.factsOf_add, List.mem_singleton] at hx
        rw [← hname, ← hname', hx]
  · intro heq
    refine ⟨⟨h.id.slot, .add (.set (.message m)) x⟩, ?_, rfl, ?_⟩
    · rw [heq, mail?, hh]
    · rw [Write.factsOf_add, List.mem_singleton]

/-- What mail puts into a channel. -/
theorem putBy_mail {es : List Envelope} {m : MessageType} {channel : String}
    {h : Handle (.set (.message m))} {x : m.Carrier}
    (hh : p.relation (.set (.message m)) channel = .ok h) :
    h.PutBy (es.filterMap fun e => if e.target = p.addr then mail? p e else none) x ↔
      ∃ sender, ⟨sender, p.addr, channel, m, x⟩ ∈ es := by
  constructor
  · rintro ⟨d, hd, hput⟩
    obtain ⟨e, he, hmail⟩ := List.mem_filterMap.1 hd
    split at hmail
    · next htarget =>
        have heq := (mail?_putBy hh).1 ⟨d, hmail, hput⟩
        rw [htarget] at heq
        exact ⟨e.sender, heq ▸ he⟩
    · cases hmail
  · rintro ⟨sender, he⟩
    obtain ⟨d, hmail, hput⟩ := (mail?_putBy (e := ⟨sender, p.addr, channel, m, x⟩) hh).2 rfl
    exact ⟨d, List.mem_filterMap.2 ⟨_, he, (if_pos rfl).trans hmail⟩, hput⟩

/-- What waits for a channel after mail has come. -/
theorem mem_waiting_withMail {es : List Envelope} {m : MessageType} {channel : String}
    {h : Handle (.set (.message m))} {x : m.Carrier}
    (hh : p.relation (.set (.message m)) channel = .ok h) :
    x ∈ (withMail p es).waiting h ↔
      x ∈ p.waiting h ∨ ∃ sender, ⟨sender, p.addr, channel, m, x⟩ ∈ es := by
  rw [Program.mem_waiting, Program.mem_waiting, ← putBy_mail hh]
  exact Handle.putBy_append

/-- What waits for a channel after deposits from outside. -/
theorem mem_waiting_of_outside {actions : List Outside} {m : MessageType}
    {h : Handle (.set (.message m))} {x : m.Carrier}
    (hpending : ∀ d, d ∈ q.pending ↔ d ∈ p.pending ∨ ∃ target write,
      .deposit addr .nextTick target write ∈ actions ∧ d = ⟨target.slot, write⟩) :
    x ∈ q.waiting h ↔ x ∈ p.waiting h ∨ ∃ target write,
      .deposit addr .nextTick target write ∈ actions ∧ target.slot = h.id.slot ∧
        x ∈ write.factsOf (.message m) := by
  rw [Program.mem_waiting, Program.mem_waiting]
  constructor
  · rintro ⟨d, hd, hslot, hx⟩
    rcases (hpending d).1 hd with hd | ⟨target, write, hdeposit, rfl⟩
    · exact .inl ⟨d, hd, hslot, hx⟩
    · exact .inr ⟨target, write, hdeposit, hslot, hx⟩
  · rintro (⟨d, hd, hput⟩ | ⟨target, write, hdeposit, hput⟩)
    · exact ⟨d, (hpending d).2 (.inl hd), hput⟩
    · exact ⟨_, (hpending _).2 (.inr ⟨target, write, hdeposit, rfl⟩), hput⟩

/-- The members of a routed channel after the next step, by where they come from. -/
theorem Account.exists_channel {ticked : Nodes} {outgoing arrivals : List Envelope}
    {actions : List Outside} {report' : StepReport} {r : Route}
    {h : Handle (.set (.message r.type))} (hroutes : c.routes.Nodup) (hchannels : c.RoutesChannels)
    (hstep : c.step patience = .ok (c', .ok report))
    (haccount : Account patience c c' report ticked outgoing arrivals)
    (hactions : c'.outside? actions = some d) (hnext : d.step patience = .ok (d', .ok report'))
    (hr : r ∈ c.routes) (hp : ticked.get? addr = some p)
    (hh : p.relation (.set (.message r.type)) r.channel = .ok h) :
    ∃ q q' v, d.nodes.get? addr = some q ∧ d'.nodes.get? addr = some q' ∧ q'.facts.get h = .ok v ∧
      ∀ m, m ∈ v ↔ (∃ sender, ⟨sender, addr, r.channel, r.type, m⟩ ∈ arrivals) ∨
        m ∈ p.waiting h ∨
        (∃ target write, .deposit addr .nextTick target write ∈ actions ∧
          target.slot = h.id.slot ∧ m ∈ write.factsOf (.message r.type)) ∨
        h.PutBy (q.derived patience) m := by
  have hroutes' : d.routes = c.routes := by
    obtain ⟨_, _, _, _, hsame⟩ := network_of_outside hactions
    exact hsame.trans (sameSetup_of_step hstep).2
  obtain ⟨ticked', _, later, hnextAccount⟩ := exists_account (hroutes' ▸ hroutes) hnext
  -- the program before the first tick, after it, with its mail, and after the second tick
  obtain ⟨before, _, hbefore, htick⟩ := haccount.ticks.exists_before hp
  have hmail : c'.nodes.get? addr = some (withMail p arrivals) := by
    rw [haccount.queued, hp]
    rfl
  obtain ⟨q, hq, hsame, hpending⟩ := exists_get?_of_outside hactions hmail
  obtain ⟨last, _, hlast, hlastTick⟩ := hnextAccount.ticks.exists_after hq
  have hq' : d'.nodes.get? addr = some (withMail last later) := by
    rw [hnextAccount.queued, hlast]
    rfl
  -- what is declared is the same all along, and the channel is reset
  have hticked := Program.sameSetup_of_tick htick
  have hsetup : before.SameSetup q := hticked.trans (sameSetup_withMail.trans hsame)
  have hrelation : before.relation (.set (.message r.type)) r.channel = .ok h :=
    hticked.relation_eq.symm.trans hh
  obtain ⟨s, hs, _, htype, hprogram⟩ := Program.slot_of_relation hrelation
  have hdeclared : h.Declared before.id before.store := ⟨hprogram, s, hs, htype⟩
  have hresets := (hchannels.resets hbefore hr hrelation).of_sameShape hsetup.sameShape
  obtain ⟨v, hv, hmem⟩ := Program.exists_get_of_tick
    (hsetup.declared hdeclared) hresets hlastTick
  refine ⟨q, _, v, hq, hq', hv, ?_⟩
  intro m
  rw [hmem, mem_waiting_of_outside hpending, mem_waiting_withMail hh, Nodes.addr_of_get? hp]
  simp only [or_assoc, or_left_comm]

/-- A step that succeeds accounts for every message, and what it delivers is what the channels get.

Every message that the ticks left in a routed channel for another node is collected once.  It is
lost, or it arrives in one or two copies.  What was in flight before arrives in one copy.  What
arrives is queued at its target, or counted if there is no such node, and nothing is left in flight.
The ticks run on the programs from before the step.

After that, deposits can be made from outside, and the lost messages be put back in flight.  When
another step has succeeded, a routed channel of a node consists of the messages that the first step
delivered to it, those that the rules of its node queued in the first step, those that were queued
from outside, and those that the rules of the same tick wrote in the second step. -/
theorem step_delivers (hroutes : c.routes.Nodup) (hchannels : c.RoutesChannels)
    (hstep : c.step patience = .ok (c', .ok report)) :
    ∃ ticked outgoing arrivals, Account patience c c' report ticked outgoing arrivals ∧
      ∀ actions d d' report', c'.outside? actions = some d →
        d.step patience = .ok (d', .ok report') →
        (d.network.inFlight ++ d.network.lost = c'.network.lost ∧
          (.retransmit ∈ actions → d.network.lost = []) ∧
          (.retransmit ∉ actions → d.network.inFlight = [])) ∧
        ∀ r ∈ c.routes, ∀ addr p h, ticked.get? addr = some p →
          p.relation (.set (.message r.type)) r.channel = .ok h →
          ∃ q q' v, d.nodes.get? addr = some q ∧ d'.nodes.get? addr = some q' ∧
            q'.facts.get h = .ok v ∧
            ∀ m, m ∈ v ↔ (∃ sender, ⟨sender, addr, r.channel, r.type, m⟩ ∈ arrivals) ∨
              m ∈ p.waiting h ∨
              (∃ target write, .deposit addr .nextTick target write ∈ actions ∧
                target.slot = h.id.slot ∧ m ∈ write.factsOf (.message r.type)) ∨
              h.PutBy (q.derived patience) m := by
  obtain ⟨ticked, outgoing, arrivals, haccount⟩ := exists_account hroutes hstep
  refine ⟨ticked, outgoing, arrivals, haccount, fun actions d d' report' hactions hnext => ⟨?_, ?_⟩⟩
  · obtain ⟨hall, hback, hkept, _, _⟩ := network_of_outside hactions
    rw [haccount.inFlight] at hall hkept
    exact ⟨hall, hback, hkept⟩
  · intro r hr addr p h hp hh
    exact haccount.exists_channel hroutes hchannels hstep hactions hnext hr hp hh

/-- A put with a number for a replica. -/
def parcel (id : Int64) (addr : String) : KeyValue.Put := ⟨id, addr, "a", "k", .ofMaxInt ⟨id⟩⟩

/-- Two replicas, and a network that doubles every message.  The first replica has a put for the
second one, and a put for a node that does not exist. -/
def parcels : Cluster :=
  let queue : List Deposit :=
    [⟨0, .add (.set (.message .put)) (parcel 3 "b")⟩,
      ⟨0, .add (.set (.message .put)) (parcel 5 "c")⟩]
  { replicas ⟨1⟩ .never with
    nodes := (Nodes.empty.put
      { ((KeyValue.Replica.declare "").runOn (.create 0 "a" none)).2 with pending := queue }).put
        ((KeyValue.Replica.declare "").runOn (.create 1 "b" none)).2 }

/-- A third put, from outside. -/
def handedIn : List Outside :=
  [.deposit "b" .nextTick ⟨1, 0⟩ (.add (.set (.message .put)) (parcel 7 "b"))]

/-- One put arrives twice and the other one nowhere, and the channel of the second replica then has
the first one and the third one. -/
theorem step_delivers_parcels :
    ∃ c' report ticked outgoing arrivals d d' report' q' v,
      parcels.step 9 = .ok (c', .ok report) ∧ report = ⟨0, 2, 2, 2⟩ ∧
      Account 9 parcels c' report ticked outgoing arrivals ∧
      c'.outside? handedIn = some d ∧ d.step 9 = .ok (d', .ok report') ∧
      d'.nodes.get? "b" = some q' ∧
      q'.facts.get (t := .set (.message .put)) ⟨⟨1, 0⟩⟩ = .ok v ∧ parcel 7 "b" ∈ v := by
  have hsome : (parcels.step 9).toOption.any (fun first =>
      first.2.toOption == some ⟨0, 2, 2, 2⟩ && (first.1.outside? handedIn).any fun d =>
        (d.step 9).toOption.any fun second => second.2.toOption.isSome) = true := by
    decide +kernel
  obtain ⟨⟨c', result⟩, hfirst, hsome⟩ := (Option.any_eq_true _ _).1 hsome
  obtain ⟨hreport, hsome⟩ := Bool.and_eq_true_iff.1 hsome
  obtain ⟨d, hd, hsome⟩ := (Option.any_eq_true _ _).1 hsome
  obtain ⟨⟨d', result'⟩, hsecond, hsome⟩ := (Option.any_eq_true _ _).1 hsome
  obtain ⟨report', hreport'⟩ := Option.isSome_iff_exists.1 hsome
  obtain rfl := toOption_eq_some.1 (beq_iff_eq.1 hreport)
  obtain rfl := toOption_eq_some.1 hreport'
  have hstep := toOption_eq_some.1 hfirst
  have hnext := toOption_eq_some.1 hsecond
  obtain ⟨ticked, outgoing, arrivals, haccount, hchannels⟩ :=
    step_delivers (by simp [parcels, replicas]) (by unfold RoutesChannels; decide +kernel) hstep
  have hb : parcels.nodes.get? "b" =
      some ((KeyValue.Replica.declare "").runOn (.create 1 "b" none)).2 := rfl
  obtain ⟨p, _, hp, htick⟩ := haccount.ticks.exists_after hb
  have hrelation : p.relation (.set (.message .put)) "KVPut" = .ok ⟨⟨1, 0⟩⟩ :=
    (Program.sameSetup_of_tick htick).relation_eq.trans rfl
  obtain ⟨_, hrest⟩ := hchannels handedIn d d' report' hd hnext
  obtain ⟨_, q', v, _, hq', hv, hmem⟩ :=
    hrest ⟨"KVPut", .put⟩ List.mem_cons_self "b" p _ hp hrelation
  refine ⟨c', _, ticked, outgoing, arrivals, d, d', report', q', v, hstep, rfl, haccount, hd, hnext,
    hq', hv, (hmem (parcel 7 "b")).2 (.inr (.inr (.inl ?_)))⟩
  exact ⟨⟨1, 0⟩, _, List.mem_cons_self, rfl, List.mem_singleton.2 rfl⟩

end Cluster

end Ratchet

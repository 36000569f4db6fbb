import Ratchet.Proofs.Cluster.Events
import Ratchet.Proofs.Quorum.Counting

/-!
# Results of a quorum

A result that is found somewhere in a cluster was made by a rule of some node or came from outside.
An honest node is the coordinator or one that makes no results.  `Sound` says of all results that
honest nodes have sent, and of those in their channels, that enough voters have been heard, where
mail from other senders is left out.  An event keeps it (`Sound.of_happen`), for whatever the
network draws: what a node sends has waited for its channel (`Backed.of_sends`), what waits there
was mail or was queued by its rules, and the rules of the coordinator queue a result only if enough
voters have been heard (`Exact.enough_of_waiting`).

If all nodes are honest, this is about every result.  If only the coordinator is trusted, it is
about those that it has sent.

## Main result

* `counts_and_reports`: the count, the verdict and the results of a quorum, alone and in a cluster.
-/

namespace Ratchet

/-- The vote that a message carries. -/
def Envelope.vote? : Envelope → Option QuorumVote
  | ⟨_, _, _, .quorumVote, vote⟩ => some vote
  | _ => none

namespace AddressedQuorum

open Cluster

variable {m : AddressedQuorum} {here scope resultAddr : String} {size : Int64} {id : Nat}
  {limit : Option Nat} {patience : Nat} {p q : Program} {c d : Cluster} {event : Event}
  {events : List Event} {heard heard' : List QuorumVote}

/-! ## The votes that reach the coordinator -/

/-- The votes that an event brings to the coordinator. -/
def votesBy (m : AddressedQuorum) (here scope : String) (patience : Nat) (c : Cluster) :
    Event → List QuorumVote
  | .outside (.deposit addr .nextTick target write) =>
    if addr = here ∧ target = m.channels.vote.id then write.factsOf (.message .quorumVote) else []
  | .outside _ => []
  | .step => (c.arrivals patience).filterMap fun e =>
    if e.target = here ∧ e.channel = scope ++ "QuorumVote" then e.vote? else none

/-- The votes that a list of events brings to the coordinator. -/
def votesOf (m : AddressedQuorum) (here scope : String) (patience : Nat) :
    Cluster → List Event → List QuorumVote
  | _, [] => []
  | c, event :: events =>
    m.votesBy here scope patience c event ++
      match c.happen? patience event with
      | some d => votesOf m here scope patience d events
      | none => []

theorem mem_votesBy_step {vote : QuorumVote} :
    vote ∈ m.votesBy here scope patience c .step ↔
      ∃ sender, ⟨sender, here, scope ++ "QuorumVote", .quorumVote, vote⟩ ∈ c.arrivals patience := by
  rw [votesBy, List.mem_filterMap]
  constructor
  · rintro ⟨⟨sender, target, channel, type, message⟩, he, hvote⟩
    split at hvote
    · next haddr =>
        obtain ⟨rfl, rfl⟩ := haddr
        cases type <;> cases hvote
        exact ⟨sender, he⟩
    · cases hvote
  · rintro ⟨sender, he⟩
    exact ⟨_, he, if_pos ⟨rfl, rfl⟩⟩

/-- What is deposited elsewhere brings no votes to the coordinator. -/
theorem votesBy_of_ne {addr : String} {timing : Timing} {target : RelationId} {write : Write}
    (hne : addr ≠ here) :
    m.votesBy here scope patience c (.outside (.deposit addr timing target write)) = [] := by
  cases timing with
  | sameTick => rfl
  | nextTick => exact if_neg fun hand => hne hand.1

/-- The votes are those of enough voters. -/
def Enough (here : String) (size : Int64) (votes : List QuorumVote) : Prop :=
  size.toInt ≤ (voters here votes).card

theorem Enough.mono (h : Enough here size heard) (hsub : ∀ vote ∈ heard, vote ∈ heard') :
    Enough here size heard' :=
  Int.le_trans h (Int.ofNat_le.2 (card_voters_le hsub))

/-! ## The coordinator -/

/-- All that is deposited at the coordinator from outside are votes, for its next tick. -/
def VotesOnly (m : AddressedQuorum) (here : String) (event : Event) : Prop :=
  ∀ timing target write, event = .outside (.deposit here timing target write) →
    timing = .nextTick ∧ target = m.channels.vote.id ∧
      ∃ vote, write = .add (.set (.message .quorumVote)) vote

/-- Mail counts as heard if it is for the channel of the votes. -/
theorem Heard.of_mail {es : List Envelope} (h : m.Heard scope resultAddr size p heard)
    (hchannels : ∀ e ∈ es, e.channel ≠ scope ++ "quorumVotes")
    (hheard : ∀ vote, vote ∈ heard' ↔ vote ∈ heard ∨
      ∃ sender, ⟨sender, p.addr, scope ++ "QuorumVote", .quorumVote, vote⟩ ∈ es) :
    m.Heard scope resultAddr size (withMail p es) heard' := by
  refine h.of_queued (fun d hd => ?_) fun vote => ?_
  · obtain ⟨e, he, hmail⟩ := List.mem_filterMap.1 hd
    split at hmail
    · unfold mail? at hmail
      split at hmail
      · next handle hrelation =>
          cases hmail
          obtain ⟨s, hs, hname, htype, hprogram⟩ := Program.slot_of_relation hrelation
          refine ⟨fun hslot => ?_, _, _, _, ⟨hprogram, s, hs, htype⟩, rfl⟩
          -- the slot of the kept votes has another name
          obtain ⟨s', hs', hname'⟩ := h.hosted.name_votes
          dsimp only at hslot
          rw [← hslot, hs] at hs'
          obtain rfl := Option.some.inj hs'
          exact hchannels e he (hname.symm.trans hname')
      · cases hmail
    · cases hmail
  · rw [hheard, putBy_mail h.hosted.relation_vote]

theorem Heard.of_changes (h : m.Heard scope resultAddr size p heard) (haddr : p.addr = here)
    (hvotes : m.VotesOnly here event)
    (hchannels : ∀ e ∈ c.arrivals patience, e.channel ≠ scope ++ "quorumVotes")
    (hchanges : event.Changes patience c here p q) :
    m.Heard scope resultAddr size q (heard ++ m.votesBy here scope patience c event) := by
  cases event with
  | step =>
      obtain ⟨r, report, htick, rfl⟩ := hchanges
      have hr : r.addr = here := (Program.sameSetup_of_tick htick).addr_eq.trans haddr
      refine (h.of_tick htick).1.of_mail hchannels fun vote => ?_
      rw [List.mem_append, mem_votesBy_step, hr]
  | outside action =>
      cases action with
      | retransmit =>
          cases hchanges
          rw [votesBy, List.append_nil]
          · exact h
          · nofun
      | deposit addr timing target write =>
          unfold Event.Changes at hchanges
          dsimp only at hchanges
          split at hchanges
          · next heq =>
              subst heq
              obtain ⟨rfl, rfl, vote, rfl⟩ := hvotes _ _ _ rfl
              have hq := (Program.send_eq_ok h.hosted.declared_vote).1 (toOption_eq_some.1 hchanges)
              rw [votesBy, if_pos ⟨rfl, rfl⟩, hq]
              exact h.of_vote vote
          · next hne =>
              cases hchanges
              rw [votesBy_of_ne hne, List.append_nil]
              exact h

/-- A result is in the queue only after enough voters were heard. -/
theorem Exact.enough_of_waiting {result : QuorumResult}
    (h : m.Exact here resultAddr size heard p) (hresult : result ∈ p.waiting m.channels.result) :
    Enough here size heard := by
  obtain ⟨_, reached, _, hreached, _, _, hpending⟩ := id h
  obtain ⟨d, hd, _⟩ := Program.mem_waiting.1 hresult
  rw [hpending] at hd
  obtain ⟨rfl, _⟩ := mem_results.1 hd
  exact h.le_card hreached

/-! ## Nodes that make no results -/

/-- The program has no result in its channel, and none of its rules makes one. -/
def Listens (scope : String) (p : Program) : Prop :=
  ∀ h, p.relation (.set (.message .quorumResult)) (scope ++ "QuorumResult") = .ok h →
    h.Resets p.store true ∧ p.facts.get h = .ok GrowSet.empty ∧
      (∀ r ∈ p.rules, r.target ≠ h.id.slot) ∧ ∀ d ∈ p.pending, d.slot ≠ h.id.slot

/-- With just the channels of a quorum, a program makes no results. -/
theorem listens_declared :
    Listens scope ((QuorumChannels.declare scope).runOn (.create id here limit)).2 := by
  have hdeclare : (QuorumChannels.declare scope).runOn (.create id here limit) =
      (.ok ⟨⟨⟨id, 0⟩⟩, ⟨⟨id, 1⟩⟩⟩, { Program.create id here limit with
        store := [
          (Slot.fresh (scope ++ "QuorumVote") (.set (.message .quorumVote))).mark .channel,
          (Slot.fresh (scope ++ "QuorumResult") (.set (.message .quorumResult))).mark .channel]
        }) := by
    simp only [QuorumChannels.declare, Setup.channel, Setup.runOn_bind, Setup.runOn_extend,
      Setup.runOn_pure, Program.create]
    simp [Program.declareChannel, Program.declare, Program.mark, Program.slotOf, Program.facts,
      Facts.slot, bind, Except.bind, pure, Except.pure, Slot.fresh, Slot.mark]
  rw [hdeclare]
  intro h hrelation
  obtain ⟨s, hs, _, htype, hprogram⟩ := Program.slot_of_relation hrelation
  obtain ⟨⟨program, slot⟩⟩ := h
  obtain rfl : program = id := hprogram
  -- only the second relation is one of results
  rcases slot with _ | _ | slot
  · cases hs
    cases htype
  · refine ⟨⟨_, rfl, rfl⟩, ?_, List.forall_mem_nil _, List.forall_mem_nil _⟩
    exact Facts.get_eq_ok.2 ⟨rfl, _, rfl, Slot.valueAs_eq_ok.2 ⟨rfl, rfl⟩⟩
  · cases hs

/-- Nothing is deposited from outside into the channel of the results at an address. -/
def SparesResults (scope addr : String) (c : Cluster) (event : Event) : Prop :=
  ∀ timing target write p h, event = .outside (.deposit addr timing target write) →
    c.nodes.get? addr = some p →
    p.relation (.set (.message .quorumResult)) (scope ++ "QuorumResult") = .ok h →
    target.slot ≠ h.id.slot

/-- Names stand for the same relations after an event. -/
theorem SparesResults.of_happen {addr : String} {later : Event}
    (hc : SparesResults scope addr c later) (h : c.happen? patience event = some d) :
    SparesResults scope addr d later := by
  intro timing target write q k hlater hq hk
  obtain ⟨p, hp, hchanges⟩ := exists_before_of_happen h hq
  exact hc timing target write p k hlater hp (hchanges.sameSetup.relation_eq.symm.trans hk)

/-- The message is addressed to its target and does not carry a kept vote.  If it is a result from
an honest node, it is backed by `Q`. -/
structure Proper (scope : String) (honest : String → Prop) (Q : Prop) (e : Envelope) : Prop where
  target : e.target = e.type.addr e.message
  channel : e.channel ≠ scope ++ "quorumVotes"
  backed : honest e.sender → e.channel = scope ++ "QuorumResult" → e.type = .quorumResult → Q

/-- A result in the channel of the program is backed by `Q`, unless someone outside of `honest` may
have sent it there. -/
structure Backed (honest : String → Prop) (Q : Prop) (h : Handle (.set (.message .quorumResult)))
    (p : Program) : Prop where
  declared : h.Declared p.id p.store
  resets : h.Resets p.store true
  rules : ∀ r ∈ p.sameTickRules, r.target ≠ h.id.slot
  waiting : ∀ x ∈ p.waiting h, (x.addr ≠ p.addr ∨ ∀ addr, honest addr) → Q
  found : ∀ v, p.facts.get h = .ok v → ∀ x ∈ v, (x.addr ≠ p.addr ∨ ∀ addr, honest addr) → Q

namespace Backed

variable {honest : String → Prop} {Q R : Prop} {h : Handle (.set (.message .quorumResult))}
  {report : TickReport} {es : List Envelope}

theorem mono (hp : Backed honest Q h p) (hQR : Q → R) : Backed honest R h p where
  declared := hp.declared
  resets := hp.resets
  rules := hp.rules
  waiting x hx hor := hQR (hp.waiting x hx hor)
  found v hv x hx hor := hQR (hp.found v hv x hx hor)

/-- Without results there is nothing to back. -/
theorem of_empty (hget : p.facts.get h = .ok GrowSet.empty) (hresets : h.Resets p.store true)
    (hrules : ∀ r ∈ p.sameTickRules, r.target ≠ h.id.slot)
    (hpending : ∀ d ∈ p.pending, d.slot ≠ h.id.slot) : Backed honest Q h p where
  declared := Handle.declared_iff.2 ⟨_, hget⟩
  resets := hresets
  rules := hrules
  waiting x hx := by
    obtain ⟨d, hd, hslot, _⟩ := Program.mem_waiting.1 hx
    exact absurd hslot (hpending d hd)
  found v hv x hx := by
    obtain rfl := Except.ok.inj (hget.symm.trans hv)
    cases hx

/-- After a tick the channel has what waited for it, and the mail waits together with what the rules
have queued. -/
theorem of_tick (hp : Backed honest Q h p) (htick : p.tick patience = .ok (q, .ok report))
    (hrelation : q.relation (.set (.message .quorumResult)) (scope ++ "QuorumResult") = .ok h)
    (hqueue : ∀ x ∈ q.waiting h, Q)
    (hmail : ∀ e ∈ es, Proper scope honest Q e) :
    Backed honest Q h (withMail q es) := by
  have hsame := Program.sameSetup_of_tick htick
  refine ⟨hsame.declared hp.declared, hp.resets.of_sameShape hsame.sameShape,
    hsame.sameTickRules_eq ▸ hp.rules, fun x hx hor => ?_, fun v hv x hx hor => ?_⟩
  · rcases (mem_waiting_withMail hrelation).1 hx with hx | ⟨sender, he⟩
    · exact hqueue x hx
    · have hproper := hmail _ he
      -- mail stays at the node that it is addressed to, so every sender has to be honest
      rcases hor with hne | hall
      · exact absurd hproper.target.symm hne
      · exact hproper.backed (hall _) rfl rfl
  · obtain ⟨w, hw, hmem⟩ :=
      Program.exists_get_of_tick_of_ne htick hp.declared hp.resets hp.rules
    obtain rfl := Except.ok.inj (hw.symm.trans hv)
    refine hp.waiting x ((hmem x).1 hx) ?_
    rw [← hsame.addr_eq]
    exact hor

/-- A message that a node sends to another one waited for its channel before the tick. -/
theorem of_sends {e : Envelope} (hsends : Sends patience c e) (hp : c.nodes.get? e.sender = some p)
    (hrelation : p.relation (.set (.message .quorumResult)) (scope ++ "QuorumResult") = .ok h)
    (hbacked : Backed honest Q h p) (hchannel : e.channel = scope ++ "QuorumResult")
    (htype : e.type = .quorumResult) : Q := by
  obtain ⟨sender, target, channel, type, message⟩ := e
  obtain ⟨p', q, report, k, v, hp', htick, hk, hv, hmem, htarget, hne, _⟩ := hsends
  dsimp only at hp hp' hk hmem htarget hne hchannel htype
  subst hchannel htype
  obtain rfl := Option.some.inj (hp.symm.trans hp')
  have hsame := Program.sameSetup_of_tick htick
  obtain rfl := Except.ok.inj (hrelation.symm.trans (hsame.relation_eq.symm.trans hk))
  obtain ⟨w, hw, hmem'⟩ := Program.exists_get_of_tick_of_ne htick hbacked.declared hbacked.resets
    hbacked.rules
  obtain rfl := Except.ok.inj (hw.symm.trans hv)
  refine hbacked.waiting message ((hmem' message).1 hmem) (.inl ?_)
  rw [Nodes.addr_of_get? hp]
  exact fun heq => hne (htarget.trans heq)

/-- Deposits into other relations leave the channel as it is. -/
theorem of_deposit {timing : Timing} {target : RelationId} {write : Write}
    (hp : Backed honest Q h p) (hdeposit : p.deposit? timing target write = some q)
    (hne : target.slot ≠ h.id.slot) : Backed honest Q h q := by
  obtain ⟨hsame, hpending⟩ := deposit?_cases hdeposit
  have hget : q.facts.get h = p.facts.get h := by
    cases timing with
    | sameTick =>
        obtain ⟨⟨_, grew⟩, hnow, rfl⟩ := Option.map_eq_some_iff.1 hdeposit
        obtain ⟨_, _, hnow⟩ := bind_eq_ok.1 (toOption_eq_some.1 hnow)
        obtain ⟨_, hstore, heq⟩ := bind_eq_ok.1 hnow
        cases heq
        exact get_of_deposit_of_ne hne hstore
    | nextTick =>
        obtain ⟨_, _, heq⟩ := bind_eq_ok.1 (toOption_eq_some.1 hdeposit)
        cases heq
        rfl
  have hwaiting : ∀ x, x ∈ q.waiting h → x ∈ p.waiting h := by
    intro x hx
    obtain ⟨d, hd, hslot, hx⟩ := Program.mem_waiting.1 hx
    rcases (hpending d).1 hd with hd | ⟨_, rfl⟩
    · exact Program.mem_waiting.2 ⟨d, hd, hslot, hx⟩
    · exact absurd hslot hne
  refine ⟨hsame.declared hp.declared, hp.resets.of_sameShape hsame.sameShape,
    hsame.sameTickRules_eq ▸ hp.rules, fun x hx hor => ?_, fun v hv x hx hor => ?_⟩
  · rw [hsame.addr_eq] at hor
    exact hp.waiting x (hwaiting x hx) hor
  · rw [hsame.addr_eq] at hor
    exact hp.found v (hget ▸ hv) x hx hor

end Backed

/-! ## Events -/

/-- What holds of the cluster when the votes of a list have reached the coordinator.  The nodes in
`honest` but the coordinator make no results. -/
structure Sound (m : AddressedQuorum) (scope resultAddr here : String) (size : Int64)
    (honest : String → Prop) (c : Cluster) (heard : List QuorumVote) : Prop where
  coordinator : ∃ p, c.nodes.get? here = some p ∧ m.Heard scope resultAddr size p heard
  routes : ∀ r ∈ c.routes, r.channel ≠ scope ++ "quorumVotes"
  traffic : ∀ e ∈ c.network.inFlight ++ c.network.lost,
    Proper scope honest (Enough here size heard) e
  nodes : ∀ addr p h, honest addr → c.nodes.get? addr = some p →
    p.relation (.set (.message .quorumResult)) (scope ++ "QuorumResult") = .ok h →
    Backed honest (Enough here size heard) h p ∧
      (addr ≠ here → ∀ r ∈ p.rules, r.target ≠ h.id.slot)

/-- A coordinator stands on its node.  Nothing is in the network yet, and kept votes do not
travel. -/
structure Deployed (c : Cluster) (scope here : String) (p : Program) : Prop where
  node : c.nodes.get? here = some p
  inFlight : c.network.inFlight = []
  lost : c.network.lost = []
  routes : ∀ r ∈ c.routes, r.channel ≠ scope ++ "quorumVotes"

namespace Sound

theorem of_declared {honest : String → Prop}
    (hdeclare : (declare scope size resultAddr).runOn (.create id here limit) = (.ok m, p))
    (hc : Deployed c scope here p)
    (hlisten : ∀ addr q, honest addr → addr ≠ here → c.nodes.get? addr = some q →
      Listens scope q) : m.Sound scope resultAddr here size honest c [] := by
  have hheard := Heard.of_declared hdeclare
  refine ⟨⟨p, hc.node, hheard⟩, hc.routes, ?_, fun addr q h hhonest hq hrelation => ?_⟩
  · rw [hc.inFlight, hc.lost]
    nofun
  · by_cases heq : addr = here
    · subst heq
      obtain rfl := Option.some.inj (hc.node.symm.trans hq)
      obtain rfl := Except.ok.inj (hheard.hosted.relation_result.symm.trans hrelation)
      obtain ⟨_, _, hpending, hget⟩ := fresh_of_declare hdeclare
      obtain ⟨_, hresets, _⟩ := hheard.hosted.resets
      refine ⟨.of_empty hget hresets hheard.hosted.target_ne_result ?_, fun hne => absurd rfl hne⟩
      rw [hpending]
      exact List.forall_mem_nil _
    · obtain ⟨hresets, hget, hrules, hpending⟩ := hlisten addr q hhonest heq hq h hrelation
      exact ⟨.of_empty hget hresets (fun r hr => hrules r (List.mem_filter.1 hr).1) hpending,
        fun _ => hrules⟩

variable {honest : String → Prop} (hs : m.Sound scope resultAddr here size honest c heard)

include hs

theorem proper_of_sends {e : Envelope} (he : Sends patience c e) :
    Proper scope honest (Enough here size heard) e := by
  obtain ⟨p, q, report, h, v, hp, htick, hrelation, hv, hmem, htarget, hne, hroute⟩ := id he
  refine ⟨htarget, hs.routes _ hroute, fun hhonest hchannel htype => ?_⟩
  obtain ⟨sender, target, channel, type, message⟩ := e
  dsimp only at hchannel htype hp hrelation hhonest
  subst hchannel htype
  rw [(Program.sameSetup_of_tick htick).relation_eq] at hrelation
  exact Backed.of_sends he hp hrelation (hs.nodes _ _ _ hhonest hp hrelation).1 rfl rfl

theorem proper_of_arrivals {e : Envelope} (he : e ∈ c.arrivals patience) :
    Proper scope honest (Enough here size heard) e := by
  rcases mem_of_mem_arrivals he with he | he
  · exact hs.traffic e he
  · exact hs.proper_of_sends he

/-- The coordinator has its channel for results under the name that results travel under. -/
theorem eq_of_relation {h : Handle (.set (.message .quorumResult))}
    (hp : c.nodes.get? here = some p)
    (hrelation : p.relation (.set (.message .quorumResult)) (scope ++ "QuorumResult") = .ok h) :
    h = m.channels.result ∧ m.Heard scope resultAddr size p heard := by
  obtain ⟨p', hp', hheard⟩ := hs.coordinator
  obtain rfl := Option.some.inj (hp.symm.trans hp')
  exact ⟨Except.ok.inj (hrelation.symm.trans hheard.hosted.relation_result), hheard⟩

/-- What the rules of an honest node queue for the channel of the results is backed. -/
theorem enough_of_tick {addr : String} {h : Handle (.set (.message .quorumResult))}
    {report : TickReport} {x : QuorumResult} (hhonest : honest addr)
    (hp : c.nodes.get? addr = some p)
    (hrelation : p.relation (.set (.message .quorumResult)) (scope ++ "QuorumResult") = .ok h)
    (htick : p.tick patience = .ok (q, .ok report)) (hx : x ∈ q.waiting h) :
    Enough here size heard := by
  by_cases heq : addr = here
  · subst heq
    obtain ⟨rfl, hheard⟩ := hs.eq_of_relation hp hrelation
    have hexact := (hheard.of_tick htick).2
    rw [Nodes.addr_of_get? hp] at hexact
    exact hexact.enough_of_waiting hx
  · have hrules := (hs.nodes addr p h hhonest hp hrelation).2 heq
    have hnone : q.waiting h = [] :=
      Program.waiting_of_tick htick fun r hr => hrules r (List.mem_filter.1 hr).1
    rw [hnone] at hx
    cases hx

/-- Results in the channel of an honest node stay backed. -/
theorem backed_of_changes {addr : String} {h : Handle (.set (.message .quorumResult))}
    (hhonest : honest addr) (hp : c.nodes.get? addr = some p)
    (hrelation : p.relation (.set (.message .quorumResult)) (scope ++ "QuorumResult") = .ok h)
    (hvotes : m.VotesOnly here event) (hspares : addr ≠ here → SparesResults scope addr c event)
    (hchanges : event.Changes patience c addr p q) :
    Backed honest (Enough here size heard) h q := by
  obtain ⟨hbacked, _⟩ := hs.nodes addr p h hhonest hp hrelation
  cases event with
  | step =>
      obtain ⟨r, report, htick, rfl⟩ := hchanges
      have hrelation' := (Program.sameSetup_of_tick htick).relation_eq.trans hrelation
      exact hbacked.of_tick htick hrelation'
        (fun x hx => hs.enough_of_tick hhonest hp hrelation htick hx)
        fun e he => hs.proper_of_arrivals he
  | outside action =>
      cases action with
      | retransmit =>
          cases hchanges
          exact hbacked
      | deposit other timing target write =>
          unfold Event.Changes at hchanges
          dsimp only at hchanges
          split at hchanges
          · next heq =>
              subst heq
              refine hbacked.of_deposit hchanges ?_
              by_cases heq : other = here
              · -- at the coordinator the deposit is a vote
                subst heq
                obtain ⟨rfl, hheard⟩ := hs.eq_of_relation hp hrelation
                obtain ⟨_, rfl, _⟩ := hvotes _ _ _ rfl
                exact hheard.hosted.slot_ne.2.2
              · exact hspares heq _ _ _ p h rfl hp hrelation
          · cases hchanges
            exact hbacked

/-- What one event keeps. -/
theorem of_happen (h : c.happen? patience event = some d) (hvotes : m.VotesOnly here event)
    (hspares : ∀ addr, honest addr → addr ≠ here → SparesResults scope addr c event) :
    m.Sound scope resultAddr here size honest d
      (heard ++ m.votesBy here scope patience c event) := by
  have hmono : Enough here size heard →
      Enough here size (heard ++ m.votesBy here scope patience c event) :=
    fun henough => henough.mono fun _ => List.mem_append_left _
  refine ⟨?_, routes_of_happen h ▸ hs.routes, fun e he => ?_, fun addr q k hhonest hq hk => ?_⟩
  · obtain ⟨p, hp, hheard⟩ := hs.coordinator
    obtain ⟨q, hq, hchanges⟩ := exists_after_of_happen h hp
    exact ⟨q, hq, hheard.of_changes (Nodes.addr_of_get? hp) hvotes
      (fun e he => (hs.proper_of_arrivals he).channel) hchanges⟩
  · have hproper : Proper scope honest (Enough here size heard) e := by
      rcases mem_traffic_of_happen h he with he | ⟨_, he⟩
      · exact hs.traffic e he
      · exact hs.proper_of_sends he
    exact ⟨hproper.target, hproper.channel, fun hhonest heq htype =>
      hmono (hproper.backed hhonest heq htype)⟩
  · obtain ⟨p, hp, hchanges⟩ := exists_before_of_happen h hq
    have hsame := hchanges.sameSetup
    have hrelation := hsame.relation_eq.symm.trans hk
    have hbacked := hs.backed_of_changes hhonest hp hrelation hvotes (hspares addr hhonest) hchanges
    refine ⟨hbacked.mono hmono, ?_⟩
    rw [hsame.rules_eq]
    exact (hs.nodes addr p k hhonest hp hrelation).2

/-- What a list of events keeps. -/
theorem of_follow (h : c.follow? patience events = some d)
    (hvotes : ∀ event ∈ events, m.VotesOnly here event)
    (hspares : ∀ event ∈ events, ∀ addr, honest addr → addr ≠ here →
      SparesResults scope addr c event) :
    m.Sound scope resultAddr here size honest d
      (heard ++ m.votesOf here scope patience c events) := by
  induction events generalizing c heard with
  | nil =>
      cases h
      rw [votesOf, List.append_nil]
      exact hs
  | cons event events ih =>
      obtain ⟨c', hc', h⟩ := Option.bind_eq_some_iff.1 h
      obtain ⟨hvote, hvotes⟩ := List.forall_mem_cons.1 hvotes
      obtain ⟨hspare, hspares⟩ := List.forall_mem_cons.1 hspares
      have hspares' : ∀ event ∈ events, ∀ addr, honest addr → addr ≠ here →
          SparesResults scope addr c' event :=
        fun event hevent addr hhonest hne => (hspares event hevent addr hhonest hne).of_happen hc'
      have hsound := ih (hs.of_happen hc' hvote hspare) h hvotes hspares'
      rw [votesOf, hc', ← List.append_assoc]
      exact hsound

end Sound

/-! ## The whole quorum -/

/-- A quorum that is counted by message counts distinct voters.

Take a quorum that was declared on a fresh program, and any list of ticks and of messages for its
channels.  If ticks may make two passes, then nothing breaks off and every tick comes to its end.
Whenever all ticks come to their end, the number of votes is after each tick the number of those
who voted for this address so far, up to the end of the range of integers.  The quorum is reached
just if that number is at least its size, and a result is queued in just these ticks.  Once reached,
the quorum stays reached.

In a cluster, whatever other nodes do and whatever the network draws, a result that the coordinator
has sent means that the votes of enough voters have reached it before.  If no other node makes
results, then this is so for every result that is found on any node. -/
theorem counts_and_reports
    (hdeclare : (declare scope size resultAddr).runOn (.create id here limit) = (.ok m, p)) :
    (∀ posts : List Post,
      (2 ≤ limit.getD patience → ∃ history,
        p.run patience (posts.map (Post.action m)) = .ok history ∧
          ∀ q result, (q, .ticked result) ∈ history → ∃ report, result = .ok report) ∧
      ∀ history, p.run patience (posts.map (Post.action m)) = .ok history →
        (∀ q result, (q, .ticked result) ∈ history → ∃ report, result = .ok report) →
        (∀ before after, posts = before ++ .tick :: after →
          ∃ q report, history[before.length]? = some (q, .ticked (.ok report)) ∧
            m.Exact here resultAddr size (before.flatMap Post.votes) q) ∧
        history.Pairwise fun earlier later =>
          m.isReached earlier.1 = .ok true → m.isReached later.1 = .ok true) ∧
    ∀ (c : Cluster) (events : List Event) (d : Cluster), Deployed c scope here p →
      (∀ event ∈ events, m.VotesOnly here event) → c.follow? patience events = some d →
      (∀ e ∈ d.network.inFlight ++ d.network.lost ++ d.arrivals patience, e.sender = here →
        e.channel = scope ++ "QuorumResult" → e.type = .quorumResult →
        Enough here size (m.votesOf here scope patience c events)) ∧
      ((∀ addr q, addr ≠ here → c.nodes.get? addr = some q → Listens scope q) →
        (∀ event ∈ events, ∀ addr, addr ≠ here → SparesResults scope addr c event) →
        ∀ addr q h v, d.nodes.get? addr = some q →
          q.relation (.set (.message .quorumResult)) (scope ++ "QuorumResult") = .ok h →
          q.facts.get h = .ok v → ∀ result ∈ v,
            Enough here size (m.votesOf here scope patience c events)) := by
  have hheard := Heard.of_declared hdeclare
  obtain ⟨haddr, hlimit, _⟩ := fresh_of_declare hdeclare
  refine ⟨fun posts => ⟨fun hpasses => ?_, fun history hrun hticks => ⟨?_, ?_⟩⟩,
    fun c events d hc hvotes hfollow => ⟨?_, ?_⟩⟩
  · exact hheard.exists_run posts (hlimit ▸ hpasses)
  · intro before after hposts
    obtain ⟨q, report, hq, hexact⟩ := hheard.exact_of_run hrun hticks hposts
    rw [haddr, List.nil_append] at hexact
    exact ⟨q, report, hq, hexact⟩
  · exact hheard.reached_of_run hrun
  · have hsound : m.Sound scope resultAddr here size (· = here) d _ :=
      (Sound.of_declared hdeclare hc fun addr q heq hne => absurd heq hne).of_follow hfollow hvotes
        fun event _ addr heq hne => absurd heq hne
    intro e he
    rcases List.mem_append.1 he with he | he
    · exact (hsound.traffic e he).backed
    · exact (hsound.proper_of_arrivals he).backed
  · intro hlisten hspares addr q h v hq hrelation hv result hresult
    have hsound : m.Sound scope resultAddr here size (fun _ => True) d _ :=
      (Sound.of_declared hdeclare hc fun addr q _ => hlisten addr q).of_follow hfollow hvotes
        fun event hevent addr _ => hspares event hevent addr
    obtain ⟨hbacked, _⟩ := hsound.nodes addr q h trivial hq hrelation
    exact hbacked.found v hv result hresult (.inr fun _ => trivial)

/-- A coordinator that waits for two voters. -/
def coordinator : Program := ((declare "" 2 "client").runOn (.create 0 "coordinator" none)).2

/-- A vote that comes twice, one for another address, and a second vote after the first tick. -/
def ballots : List Post :=
  [.vote ⟨"coordinator", "a"⟩, .vote ⟨"coordinator", "a"⟩, .vote ⟨"elsewhere", "b"⟩, .tick,
    .vote ⟨"coordinator", "b"⟩, .tick]

/-- A node with just the channels of a quorum. -/
def listener (id : Nat) (addr : String) : Program :=
  ((QuorumChannels.declare "").runOn (.create id addr none)).2

/-- A coordinator, a client and two voters, with a network that doubles all messages and lets them
change places. -/
def polling : Cluster where
  nodes := (((Nodes.empty.put coordinator).put (listener 1 "client")).put (listener 2 "a")).put
    (listener 3 "b")
  routes := [⟨"QuorumVote", .quorumVote⟩, ⟨"QuorumResult", .quorumResult⟩]
  network := .withDraws ⟨.never, ⟨1⟩, ⟨1⟩, 0⟩ fun _ => 0
  steps := 0

/-- A vote for the coordinator is left at the node of a voter. -/
def casting (id : Nat) (voter : String) : Event :=
  .outside (.deposit voter .nextTick ⟨id, 0⟩
    (.add (.set (.message .quorumVote)) ⟨"coordinator", voter⟩))

/-- Both voters vote, and four steps are taken. -/
def polls : List Event := [casting 2 "a", casting 3 "b", .step, .step, .step, .step]

theorem listens_polling {addr : String} (hne : addr ≠ "coordinator")
    (hp : polling.nodes.get? addr = some p) : Listens "" p := by
  simp only [polling, Nodes.get?_put] at hp
  split at hp
  · cases hp
    exact listens_declared
  split at hp
  · cases hp
    exact listens_declared
  split at hp
  · cases hp
    exact listens_declared
  split at hp
  · next heq => exact absurd heq hne
  · cases hp

theorem votesOnly_polls : ∀ event ∈ polls, (quorumOf 0).VotesOnly "coordinator" event := by
  intro event hevent timing target write heq
  subst heq
  simp [polls, casting] at hevent

theorem sparesResults_polls {addr : String} (hevent : event ∈ polls) (hne : addr ≠ "coordinator") :
    SparesResults "" addr polling event := by
  intro timing target write p h heq hp hrelation
  subst heq
  have hcast : addr = "a" ∧ target = ⟨2, 0⟩ ∨ addr = "b" ∧ target = ⟨3, 0⟩ := by
    simp only [polls, casting, List.mem_cons, Event.outside.injEq, Outside.deposit.injEq,
      reduceCtorEq, List.not_mem_nil, or_false] at hevent
    tauto
  rcases hcast with ⟨rfl, rfl⟩ | ⟨rfl, rfl⟩
  · obtain rfl : listener 2 "a" = p := Option.some.inj hp
    obtain rfl : ⟨⟨2, 1⟩⟩ = h := Except.ok.inj hrelation
    decide
  · obtain rfl : listener 3 "b" = p := Option.some.inj hp
    obtain rfl : ⟨⟨3, 1⟩⟩ = h := Except.ok.inj hrelation
    decide

/-- The client finds the result after both votes have come. -/
theorem counts_and_reports_polling : ∃ history q report d client h v,
    coordinator.run 9 (ballots.map (Post.action (quorumOf 0))) = .ok history ∧
    history[5]? = some (q, .ticked (.ok report)) ∧
    (quorumOf 0).Exact "coordinator" "client" 2 ((ballots.take 5).flatMap Post.votes) q ∧
    polling.follow? 9 polls = some d ∧ d.nodes.get? "client" = some client ∧
    client.relation (.set (.message .quorumResult)) "QuorumResult" = .ok h ∧
    client.facts.get h = .ok v ∧ ⟨"client"⟩ ∈ v ∧
    Enough "coordinator" 2 ((quorumOf 0).votesOf "coordinator" "" 9 polling polls) := by
  have hdeclare : (declare "" 2 "client").runOn (.create 0 "coordinator" none) =
      (.ok (quorumOf 0), coordinator) := by
    rw [coordinator, runOn_declare]
  obtain ⟨hruns, hclusters⟩ := counts_and_reports hdeclare
  obtain ⟨hexists, hexact⟩ := hruns ballots
  obtain ⟨history, hrun, hticks⟩ := hexists (by decide : 2 ≤ 9)
  obtain ⟨q, report, hq, hcount⟩ := (hexact history hrun hticks).1 (ballots.take 5) [] rfl
  have hsome : (polling.follow? 9 polls).any (fun d => (d.nodes.get? "client").any fun client =>
      (client.relation (.set (.message .quorumResult)) ("" ++ "QuorumResult")).toOption.any fun h =>
        (client.facts.get h).toOption.any fun v => GrowSet.contains v ⟨"client"⟩) = true := by
    decide +kernel
  obtain ⟨d, hd, hsome⟩ := (Option.any_eq_true _ _).1 hsome
  obtain ⟨client, hclient, hsome⟩ := (Option.any_eq_true _ _).1 hsome
  obtain ⟨h, hh, hsome⟩ := (Option.any_eq_true _ _).1 hsome
  obtain ⟨v, hv, hsome⟩ := (Option.any_eq_true _ _).1 hsome
  have hresult := GrowSet.contains_iff.1 hsome
  have hdeployed : Deployed polling "" "coordinator" coordinator :=
    ⟨rfl, rfl, rfl, by simp [polling]⟩
  exact ⟨history, q, report, d, client, h, v, hrun, hq, hcount, hd, hclient,
    toOption_eq_some.1 hh, toOption_eq_some.1 hv, hresult,
    (hclusters polling polls d hdeployed votesOnly_polls hd).2 (fun _ _ => listens_polling)
      (fun _ hevent _ => sparesResults_polls hevent) "client" client h v hclient
      (toOption_eq_some.1 hh) (toOption_eq_some.1 hv) ⟨"client"⟩ hresult⟩

end AddressedQuorum

end Ratchet

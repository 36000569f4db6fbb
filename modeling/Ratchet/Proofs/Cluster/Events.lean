import Ratchet.Proofs.Cluster.ExactDelivery

/-!
# Events of a cluster

A cluster goes through steps, and something can be done to it between two steps.  What such an event
makes of the programs is told node by node (`exists_after_of_happen`): a node either gets a deposit,
or it ticks and then has its mail.

Nothing is assumed about the network.  Whatever it draws, a message that it holds was there before
or was sent by a node in this step (`mem_traffic_of_happen`), and so was every message that arrives
(`mem_of_mem_arrivals`).  A message is sent if it stands in a routed channel after the tick
(`Sends`).
-/

namespace Ratchet

namespace Network

variable {M : Type} {net : Network M} {m x : M}

theorem mem_of_send (h : x ∈ (net.send m).inFlight ++ (net.send m).lost) :
    x ∈ net.inFlight ++ net.lost ∨ x = m := by
  rw [List.mem_append, inFlight_send_perm.mem_iff, lost_send] at h
  rw [List.mem_append]
  rcases h with h | h
  · rcases List.mem_append.1 h with h | h
    · exact .inl (.inl h)
    · exact .inr (List.eq_of_mem_replicate h)
  · rcases List.mem_append.1 h with h | h
    · exact .inl (.inr h)
    · split at h
      · exact .inr (List.mem_singleton.1 h)
      · cases h

theorem mem_of_sendAll {ms : List M}
    (h : x ∈ (net.sendAll ms).inFlight ++ (net.sendAll ms).lost) :
    x ∈ net.inFlight ++ net.lost ∨ x ∈ ms := by
  induction ms generalizing net with
  | nil => exact .inl h
  | cons m ms ih =>
      change x ∈ ((net.send m).sendAll ms).inFlight ++ ((net.send m).sendAll ms).lost at h
      rcases ih h with h | h
      · rcases mem_of_send h with h | rfl
        · exact .inl h
        · exact .inr List.mem_cons_self
      · exact .inr (List.mem_cons_of_mem _ h)

end Network

namespace Cluster

variable {patience : Nat} {c d : Cluster} {e : Envelope} {addr : String}

/-- Something that happens to a cluster. -/
inductive Event where
  | outside (action : Outside)
  | step

/-- The cluster after an event, if nothing is refused and the step does not fail. -/
def happen? (patience : Nat) (c : Cluster) : Event → Option Cluster
  | .outside action => c.outside? [action]
  | .step =>
    match c.step patience with
    | .ok (c, .ok _) => some c
    | _ => none

/-- The cluster after a list of events. -/
def follow? (patience : Nat) : Cluster → List Event → Option Cluster
  | c, [] => some c
  | c, event :: events => do follow? patience (← c.happen? patience event) events

/-- The messages that arrive in the next step, if its ticks come to their end. -/
def arrivals (patience : Nat) (c : Cluster) : List Envelope :=
  match tickNodes patience c.nodes.programs c.nodes with
  | .ok (nodes, none) => (collect (outboxes c.routes nodes) c.network 0).1.inFlight
  | _ => []

/-! ## What is sent -/

/-- In the next step the message stands in a routed channel of its sender, after the tick, and is
meant for another node. -/
def Sends (patience : Nat) (c : Cluster) (e : Envelope) : Prop :=
  ∃ p q report h v, c.nodes.get? e.sender = some p ∧ p.tick patience = .ok (q, .ok report) ∧
    q.relation (.set (.message e.type)) e.channel = .ok h ∧ q.facts.get h = .ok v ∧
    e.message ∈ v ∧ e.target = e.type.addr e.message ∧ e.target ≠ e.sender ∧
    ⟨e.channel, e.type⟩ ∈ c.routes

theorem mem_of_collect {boxes : List (Program × Route)} {net net' : Network Envelope}
    {sent total : Nat} {error : Option ProgramError}
    (h : collect boxes net sent = (net', total, error)) (he : e ∈ net'.inFlight ++ net'.lost) :
    e ∈ net.inFlight ++ net.lost ∨
      ∃ box ∈ boxes, ∃ es, outbound box.1 box.2 = .ok es ∧ e ∈ es := by
  induction boxes generalizing net sent with
  | nil =>
      cases h
      exact .inl he
  | cons box boxes ih =>
      obtain ⟨p, r⟩ := box
      rw [collect] at h
      cases houtbound : outbound p r with
      | error error =>
          rw [houtbound] at h
          cases h
          exact .inl he
      | ok es =>
          rw [houtbound] at h
          rcases ih h with hmem | ⟨box, hbox, hrest⟩
          · rcases Network.mem_of_sendAll hmem with hmem | hmem
            · exact .inl hmem
            · exact .inr ⟨(p, r), List.mem_cons_self, es, houtbound, hmem⟩
          · exact .inr ⟨box, List.mem_cons_of_mem _ hbox, hrest⟩

theorem sends_of_posted {ticked : Nodes} (hticked : Ticked patience c.nodes ticked)
    (h : Posted c.routes ticked e) : Sends patience c e := by
  obtain ⟨q, hq, r, hr, h, v, m, hm, hrelation, hv, hne, rfl⟩ := h
  obtain ⟨p, report, hp, htick⟩ := hticked.exists_before (Nodes.mem_programs.1 hq)
  have hget : q.facts.get h = .ok v := by
    rw [Facts.get, hv]
    rfl
  exact ⟨p, q, report, h, v, hp, htick, hrelation, hget, hm, rfl, hne, hr⟩

/-- What the network holds after the messages of all nodes were collected was there before or is
sent. -/
theorem mem_of_collect_outboxes {ticked : Nodes} {net' : Network Envelope} {total : Nat}
    {error : Option ProgramError}
    (htick : tickNodes patience c.nodes.programs c.nodes = .ok (ticked, none))
    (hcollect : collect (outboxes c.routes ticked) c.network 0 = (net', total, error))
    (he : e ∈ net'.inFlight ++ net'.lost) :
    e ∈ c.network.inFlight ++ c.network.lost ∨ Sends patience c e := by
  rcases mem_of_collect hcollect he with hmem | hbox
  · exact .inl hmem
  · exact .inr (sends_of_posted (ticked_of_tickNodes htick) (posted_iff.2 hbox))

theorem mem_of_mem_arrivals (he : e ∈ c.arrivals patience) :
    e ∈ c.network.inFlight ++ c.network.lost ∨ Sends patience c e := by
  unfold arrivals at he
  split at he
  · next ticked htick =>
      exact mem_of_collect_outboxes htick rfl (List.mem_append_left _ he)
  · cases he

/-! ## What an event changes -/

/-- What an event makes of the program at an address. -/
def Event.Changes (patience : Nat) (c : Cluster) (addr : String) :
    Event → Program → Program → Prop
  | .outside (.deposit other timing target write), p, q =>
    if other = addr then p.deposit? timing target write = some q else q = p
  | .outside .retransmit, p, q => q = p
  | .step, p, q => ∃ r report, p.tick patience = .ok (r, .ok report) ∧
    q = withMail r (c.arrivals patience)

/-- What a step that succeeds does to the network and to the nodes. -/
theorem step_changes {report : StepReport} (h : c.step patience = .ok (d, .ok report)) :
    d.routes = c.routes ∧
      (∀ e ∈ d.network.inFlight ++ d.network.lost,
        e ∈ c.network.inFlight ++ c.network.lost ∨ Sends patience c e) ∧
      ∀ addr, Option.Rel (Event.step.Changes patience c addr) (c.nodes.get? addr)
        (d.nodes.get? addr) := by
  obtain ⟨ticked, network, sent, outcome, htick, hcollect, hdeliver, herror, rfl, rfl⟩ :=
    step_eq_ok.1 h
  have harrivals : c.arrivals patience = network.inFlight := by
    unfold arrivals
    rw [htick]
    simp only [hcollect]
  obtain ⟨_, heq, _, hqueued⟩ := deliver_spec network.inFlight ticked
  obtain rfl := Except.ok.inj (hdeliver.symm.trans heq)
  obtain ⟨hrest, hsupplied⟩ := hqueued herror
  refine ⟨rfl, fun e he => ?_, fun addr => ?_⟩
  · rw [hrest, List.nil_append] at he
    exact mem_of_collect_outboxes htick hcollect (List.mem_append_right _ he)
  · rw [hsupplied addr]
    have haddr := ticked_of_tickNodes htick addr
    generalize c.nodes.get? addr = x at haddr ⊢
    generalize ticked.get? addr = y at haddr ⊢
    cases haddr with
    | none => exact .none
    | some hticks =>
        obtain ⟨report, hticks⟩ := hticks
        exact .some ⟨_, report, hticks, by rw [harrivals]⟩

theorem outside_changes {action : Outside} (h : c.outside? [action] = some d) (addr : String) :
    Option.Rel ((Event.outside action).Changes patience c addr) (c.nodes.get? addr)
      (d.nodes.get? addr) := by
  cases action with
  | retransmit =>
      cases h
      change Option.Rel _ (c.nodes.get? addr) (c.nodes.get? addr)
      cases c.nodes.get? addr with
      | none => exact .none
      | some p => exact .some rfl
  | deposit other timing target write =>
      obtain ⟨p, hp, h⟩ := Option.bind_eq_some_iff.1 h
      obtain ⟨p', hp', heq⟩ := Option.bind_eq_some_iff.1 h
      cases heq
      obtain ⟨hsame, _⟩ := deposit?_cases hp'
      have hother : p'.addr = other := hsame.addr_eq.trans (Nodes.addr_of_get? hp)
      rw [Nodes.get?_put, hother]
      by_cases haddr : addr = other
      · rw [if_pos haddr, haddr, hp]
        exact .some ((if_pos rfl).mpr hp')
      · rw [if_neg haddr]
        cases c.nodes.get? addr with
        | none => exact .none
        | some q => exact .some ((if_neg (Ne.symm haddr)).mpr rfl)

theorem step_of_happen (h : c.happen? patience .step = some d) :
    ∃ report, c.step patience = .ok (d, .ok report) := by
  unfold happen? at h
  dsimp only at h
  split at h
  · next c' report hstep => exact ⟨report, Option.some.inj h ▸ hstep⟩
  · cases h

variable {event : Event} {p q : Program}

theorem rel_of_happen (h : c.happen? patience event = some d) (addr : String) :
    Option.Rel (event.Changes patience c addr) (c.nodes.get? addr) (d.nodes.get? addr) := by
  cases event with
  | outside action => exact outside_changes h addr
  | step =>
      obtain ⟨report, hstep⟩ := step_of_happen h
      exact (step_changes hstep).2.2 addr

/-- Node by node, an event deposits something, or lets the node tick and brings it its mail. -/
theorem exists_after_of_happen (h : c.happen? patience event = some d)
    (hp : c.nodes.get? addr = some p) :
    ∃ q, d.nodes.get? addr = some q ∧ event.Changes patience c addr p q := by
  have haddr := rel_of_happen h addr
  rw [hp] at haddr
  generalize d.nodes.get? addr = y at haddr
  cases haddr with
  | some hchanges => exact ⟨_, rfl, hchanges⟩

theorem exists_before_of_happen (h : c.happen? patience event = some d)
    (hq : d.nodes.get? addr = some q) :
    ∃ p, c.nodes.get? addr = some p ∧ event.Changes patience c addr p q := by
  have haddr := rel_of_happen h addr
  rw [hq] at haddr
  generalize c.nodes.get? addr = x at haddr
  cases haddr with
  | some hchanges => exact ⟨_, rfl, hchanges⟩

/-- No event changes what is declared. -/
theorem Event.Changes.sameSetup (h : event.Changes patience c addr p q) : p.SameSetup q := by
  cases event with
  | step =>
      obtain ⟨r, report, htick, rfl⟩ := h
      exact (Program.sameSetup_of_tick htick).trans sameSetup_withMail
  | outside action =>
      cases action with
      | retransmit =>
          cases h
          exact .refl p
      | deposit other timing target write =>
          unfold Event.Changes at h
          dsimp only at h
          split at h
          · exact (deposit?_cases h).1
          · cases h
            exact .refl p

theorem routes_of_happen (h : c.happen? patience event = some d) : d.routes = c.routes := by
  cases event with
  | outside action =>
      obtain ⟨_, _, _, _, hroutes⟩ := network_of_outside h
      exact hroutes
  | step =>
      obtain ⟨report, hstep⟩ := step_of_happen h
      exact (step_changes hstep).1

/-- Whatever is in the network after an event was there before, or a node sent it. -/
theorem mem_traffic_of_happen (h : c.happen? patience event = some d)
    (he : e ∈ d.network.inFlight ++ d.network.lost) :
    e ∈ c.network.inFlight ++ c.network.lost ∨ event = .step ∧ Sends patience c e := by
  cases event with
  | outside action =>
      obtain ⟨hall, _⟩ := network_of_outside h
      exact .inl (hall ▸ he)
  | step =>
      obtain ⟨report, hstep⟩ := step_of_happen h
      exact ((step_changes hstep).2.1 e he).imp_right fun hsends => ⟨rfl, hsends⟩

end Cluster

end Ratchet

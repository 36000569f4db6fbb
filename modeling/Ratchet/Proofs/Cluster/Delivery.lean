import Ratchet.Cluster
import Ratchet.Proofs.Except
import Ratchet.Proofs.Lattice.StringMap
import Ratchet.Proofs.Network.Balance

/-!
# What reaches the nodes

A network without losses passes on what it is given, whatever it draws: copies and exchanges change
neither what is in flight nor what is not (`Network.mem_send`).

Delivering messages queues them at their targets.  Whether a program takes a message, and as which
deposit, does not depend on what is queued there already (`mail?`).  So a delivery gets as far as
the first message that would not be taken on its own (`deliver_split`), and it succeeds exactly if
there is none.  Then the queues are what they were with the mail behind it (`deliver_spec`).
-/

namespace Ratchet

/-! ## Networks without losses -/

namespace Network

variable {M : Type} {net : Network M} {m : M}

/-- Sending a message through a network without losses puts it in flight. -/
theorem mem_send (h : net.config.loss.value ≤ 0) :
    (net.send m).config = net.config ∧
      ∀ x, x ∈ (net.send m).inFlight ↔ x ∈ net.inFlight ∨ x = m := by
  have hkept : net.lossRoll.1 = false := by
    have hrate : net.config.loss.isPositive = false := decide_eq_false (Rat.not_lt.2 h)
    simp [lossRoll, roll, hrate]
  have hcopies : net.copies ≠ 0 := by simp [copies_eq_zero, hkept]
  refine ⟨config_send, fun x => ?_⟩
  rw [inFlight_send_perm.mem_iff, List.mem_append, List.mem_replicate, and_iff_right hcopies]

/-- What a network without losses is given is in flight, and nothing else is new there. -/
theorem mem_sendAll (ms : List M) (h : net.config.loss.value ≤ 0) :
    (net.sendAll ms).config = net.config ∧
      ∀ x, x ∈ (net.sendAll ms).inFlight ↔ x ∈ net.inFlight ∨ x ∈ ms := by
  induction ms generalizing net with
  | nil => exact ⟨rfl, fun x => by simp [sendAll]⟩
  | cons m ms ih =>
      obtain ⟨hconfig, hsend⟩ := mem_send (m := m) h
      obtain ⟨hconfig', hsendAll⟩ := @ih (net.send m) (hconfig ▸ h)
      refine ⟨hconfig'.trans hconfig, fun x => (hsendAll x).trans ?_⟩
      rw [hsend, List.mem_cons, or_assoc]

end Network

/-! ## Nodes -/

namespace Nodes

variable {nodes : Nodes} {p : Program} {addr : String}

theorem get?_put : (nodes.put p).get? addr = if addr = p.addr then some p else nodes.get? addr :=
  StringMap.get?_put

theorem addr_of_get? (h : nodes.get? addr = some p) : p.addr = addr :=
  nodes.addr_eq (addr, p) (StringMap.mem_entries.2 h)

theorem mem_programs : p ∈ nodes.programs ↔ nodes.get? p.addr = some p := by
  unfold programs StringMap.values
  rw [List.mem_map]
  constructor
  · rintro ⟨e, he, rfl⟩
    rw [nodes.addr_eq e he]
    exact StringMap.mem_entries.1 he
  · intro h
    exact ⟨(p.addr, p), StringMap.mem_entries.2 h, rfl⟩

end Nodes

/-! ## Mail -/

namespace Cluster

variable {p : Program} {e : Envelope} {es : List Envelope} {d : Deposit} {nodes : Nodes}

/-- The deposit that a message becomes at a program. -/
def mail? (p : Program) (e : Envelope) : Option Deposit :=
  match p.relation (.set (.message e.type)) e.channel with
  | .ok h => some ⟨h.id.slot, .add (.set (.message e.type)) e.message⟩
  | .error _ => none

/-- The program with messages behind what waits for its next tick, those for others left out. -/
def withMail (p : Program) (es : List Envelope) : Program :=
  { p with
    pending := p.pending ++ es.filterMap fun e => if e.target = p.addr then mail? p e else none }

theorem receive_of_mail (h : mail? p e = some d) :
    receive p e = .ok (.ok { p with pending := p.pending ++ [d] }) := by
  unfold mail? at h
  unfold receive
  cases hrelation : p.relation (.set (.message e.type)) e.channel with
  | error error =>
      rw [hrelation] at h
      cases h
  | ok handle =>
      rw [hrelation] at h
      obtain rfl := Option.some.inj h
      have hslot : ∃ s, p.facts.slot handle.id = .ok s := by
        unfold Program.relation at hrelation
        split at hrelation
        · cases hrelation
        · obtain ⟨s, hs, hrelation⟩ := bind_eq_ok.1 hrelation
          obtain ⟨_, _, heq⟩ := bind_eq_ok.1 hrelation
          cases heq
          exact ⟨s, hs⟩
      obtain ⟨s, hs⟩ := hslot
      simp only [Program.send, Program.addNext, Program.depositNext, hs]
      rfl

theorem exists_receive_of_no_mail (h : mail? p e = none) :
    ∃ error, receive p e = .ok (.error error) := by
  unfold mail? at h
  unfold receive
  cases hrelation : p.relation (.set (.message e.type)) e.channel with
  | error error => exact ⟨error, rfl⟩
  | ok handle =>
      rw [hrelation] at h
      cases h

theorem withMail_nil : withMail p [] = p := by
  simp [withMail]

theorem withMail_singleton_of_ne (h : e.target ≠ p.addr) : withMail p [e] = p := by
  simp [withMail, h]

theorem withMail_cons : withMail p (e :: es) = withMail (withMail p [e]) es := by
  simp only [withMail, List.filterMap_cons, List.filterMap_nil]
  cases (if e.target = p.addr then mail? p e else none) with
  | none => simp [mail?, Program.relation, Program.facts]
  | some d => simp [mail?, Program.relation, Program.facts]

/-- If there is a node that the message is meant for, it takes the message. -/
def Taken (nodes : Nodes) (e : Envelope) : Prop :=
  ∀ p, nodes.get? e.target = some p → (mail? p e).isSome

/-- All nodes have messages behind what waits for their next tick. -/
def Supplied (nodes : Nodes) (es : List Envelope) (nodes' : Nodes) : Prop :=
  ∀ addr, nodes'.get? addr = (nodes.get? addr).map (withMail · es)

variable {nodes' : Nodes}

theorem Supplied.taken_iff (h : Supplied nodes es nodes') : Taken nodes' e ↔ Taken nodes e := by
  unfold Taken
  rw [h]
  cases nodes.get? e.target with
  | none => exact Iff.rfl
  | some p =>
      -- the queue has no say in what a program takes
      constructor
      · rintro htaken _ ⟨⟩
        exact htaken (withMail p es) rfl
      · rintro htaken _ ⟨⟩
        exact htaken p rfl

theorem Supplied.cons {nodes'' : Nodes} (h : Supplied nodes [e] nodes')
    (h' : Supplied nodes' es nodes'') : Supplied nodes (e :: es) nodes'' := by
  intro addr
  rw [h', h, Option.map_map]
  exact congrArg (Option.map · _) (funext fun p => withMail_cons.symm)

theorem supplied_of_get?_eq_none (h : nodes.get? e.target = none) : Supplied nodes [e] nodes := by
  intro addr
  cases hp : nodes.get? addr with
  | none => rfl
  | some p =>
      refine congrArg some (withMail_singleton_of_ne ?_).symm
      intro heq
      rw [heq, Nodes.addr_of_get? hp, hp] at h
      cases h

theorem supplied_put (h : nodes.get? e.target = some p) (hmail : mail? p e = some d) :
    Supplied nodes [e] (nodes.put { p with pending := p.pending ++ [d] }) := by
  have haddr := Nodes.addr_of_get? h
  intro addr
  rw [Nodes.get?_put]
  by_cases heq : addr = p.addr
  · rw [if_pos heq, heq, haddr, h]
    simp [withMail, haddr, hmail]
  · rw [if_neg heq]
    cases hq : nodes.get? addr with
    | none => rfl
    | some q =>
        refine congrArg some (withMail_singleton_of_ne ?_).symm
        rw [Nodes.addr_of_get? hq, ← haddr]
        exact Ne.symm heq

/-- A message that is taken is queued, and one that is not ends the delivery, which leaves the
messages behind it. -/
theorem deliver_cons (e : Envelope) (es : List Envelope) (nodes : Nodes) {a b : Nat} :
    (Taken nodes e ∧ ∃ nodes' a' b', Supplied nodes [e] nodes' ∧
        deliver (e :: es) nodes a b = deliver es nodes' a' b') ∨
      ¬ Taken nodes e ∧ ∃ outcome, deliver (e :: es) nodes a b = .ok outcome ∧
        outcome.error ≠ none ∧ outcome.nodes = nodes ∧ outcome.rest = es := by
  rw [deliver]
  cases htarget : nodes.get? e.target with
  | none =>
      refine .inl ⟨?_, nodes, a, b + 1, supplied_of_get?_eq_none htarget, rfl⟩
      intro p hp
      cases htarget.symm.trans hp
  | some p =>
      cases hmail : mail? p e with
      | none =>
          obtain ⟨error, hreceive⟩ := exists_receive_of_no_mail hmail
          refine .inr ⟨?_, ⟨nodes, es, a, b, some error⟩, ?_, nofun, rfl, rfl⟩
          · intro htaken
            have hsome := htaken p htarget
            rw [hmail] at hsome
            cases hsome
          · simp only [hreceive]
            rfl
      | some d =>
          refine .inl ⟨?_, _, a + 1, b, supplied_put htarget hmail, ?_⟩
          · intro q hq
            cases htarget.symm.trans hq
            rw [hmail]
            rfl
          · simp only [receive_of_mail hmail]
            rfl

theorem supplied_nil : Supplied nodes [] nodes := by
  intro addr
  cases nodes.get? addr with
  | none => rfl
  | some p => exact congrArg some withMail_nil.symm

/-- A delivery always comes to an end.  It queues the messages in front of the first one that is not
taken, and leaves those behind it. -/
theorem deliver_split (es : List Envelope) (nodes : Nodes) {a b : Nat} :
    ∃ outcome queued, deliver es nodes a b = .ok outcome ∧ Supplied nodes queued outcome.nodes ∧
      (∀ e ∈ queued, Taken nodes e) ∧
      (outcome.error = none ∧ es = queued ∧ outcome.rest = [] ∨
        outcome.error ≠ none ∧ ∃ refused, ¬ Taken nodes refused ∧
          es = queued ++ refused :: outcome.rest) := by
  induction es generalizing nodes a b with
  | nil => exact ⟨_, [], rfl, supplied_nil, nofun, .inl ⟨rfl, rfl, rfl⟩⟩
  | cons e es ih =>
      rcases deliver_cons e es nodes with
        ⟨htaken, nodes', a', b', hsupplied, hdeliver⟩ |
        ⟨hrefused, outcome, hdeliver, herror, hnodes, hrest⟩
      · obtain ⟨outcome, queued, houtcome, hqueued, hall, hend⟩ := ih nodes'
        refine ⟨outcome, e :: queued, hdeliver.trans houtcome, hsupplied.cons hqueued,
          List.forall_mem_cons.2 ⟨htaken, fun x hx => hsupplied.taken_iff.1 (hall x hx)⟩, ?_⟩
        rcases hend with ⟨hnone, rfl, hrest⟩ | ⟨hsome, refused, hrefused, rfl⟩
        · exact .inl ⟨hnone, rfl, hrest⟩
        · exact .inr ⟨hsome, refused, mt hsupplied.taken_iff.2 hrefused, rfl⟩
      · subst hnodes hrest
        exact ⟨outcome, [], hdeliver, supplied_nil, nofun, .inr ⟨herror, e, hrefused, rfl⟩⟩

/-- A delivery goes through if every message is taken on its own, and then all mail is in the
queues. -/
theorem deliver_spec (es : List Envelope) (nodes : Nodes) {a b : Nat} :
    ∃ outcome, deliver es nodes a b = .ok outcome ∧
      (outcome.error = none ↔ ∀ e ∈ es, Taken nodes e) ∧
      (outcome.error = none → outcome.rest = [] ∧ Supplied nodes es outcome.nodes) := by
  obtain ⟨outcome, queued, houtcome, hqueued, hall, hend⟩ := deliver_split es nodes
  refine ⟨outcome, houtcome, ?_⟩
  rcases hend with ⟨hnone, rfl, hrest⟩ | ⟨hsome, refused, hrefused, rfl⟩
  · exact ⟨⟨fun _ => hall, fun _ => hnone⟩, fun _ => ⟨hrest, hqueued⟩⟩
  · refine ⟨⟨fun hnone => absurd hnone hsome, fun htaken => ?_⟩, fun hnone => absurd hnone hsome⟩
    exact absurd (htaken refused (by simp)) hrefused

end Cluster

end Ratchet

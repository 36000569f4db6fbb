import Ratchet.Proofs.Cluster.Steps
import Ratchet.Proofs.Network.Balance

/-!
# The fate of every message

What each phase of a step that succeeds does, message by message.

Every node ticks once, on the program that it had before the step (`get?_of_tickNodes`).  The
messages that are collected are those that stand in routed channels and are meant for other nodes.
If no route is declared twice, then no message is collected twice (`collect_eq_sendAll`), and so it
makes sense to ask how many copies of a message the network passes on (`Network.sendAll_fates`).
Finally, a delivery counts what it queues and what it cannot queue (`counts_of_deliver`).
-/

namespace Ratchet

namespace Network

variable {M : Type} {net : Network M}

theorem sendAll_append (ms ms' : List M) :
    net.sendAll (ms ++ ms') = (net.sendAll ms).sendAll ms' := List.foldl_append

/-- Of distinct messages, each is lost or passed on in one or two copies. -/
theorem sendAll_fates (ms : List M) (hms : ms.Nodup) : ∃ copies : M → Nat,
    (∀ m, copies m ≤ 2) ∧
      (net.sendAll ms).lost = net.lost ++ ms.filter (fun m => copies m = 0) ∧
      (net.sendAll ms).inFlight.Perm
        (net.inFlight ++ ms.flatMap fun m => List.replicate (copies m) m) := by
  classical
  induction ms generalizing net with
  | nil => exact ⟨fun _ => 0, fun _ => Nat.zero_le 2, by simp [sendAll], by simp [sendAll]⟩
  | cons m ms ih =>
      obtain ⟨hm, hms⟩ := List.nodup_cons.1 hms
      obtain ⟨later, hle, hlost, hflight⟩ := @ih (net.send m) hms
      have hnow : Function.update later m net.copies m = net.copies := Function.update_self ..
      -- the first message is none of the later ones
      have hlater : ∀ x ∈ ms, Function.update later m net.copies x = later x := by
        intro x hx
        have hne : x ≠ m := fun heq => hm (heq ▸ hx)
        exact Function.update_of_ne hne ..
      refine ⟨Function.update later m net.copies, ?_, ?_, ?_⟩
      · intro x
        by_cases hx : x = m
        · rw [hx, hnow]
          exact copies_le_two
        · rw [Function.update_of_ne hx]
          exact hle x
      · have hfilter : ms.filter (fun x => Function.update later m net.copies x = 0) =
            ms.filter fun x => later x = 0 :=
          List.filter_congr fun x hx => by rw [hlater x hx]
        calc (net.sendAll (m :: ms)).lost
          _ = (net.send m).lost ++ ms.filter fun x => later x = 0 := hlost
          _ = net.lost ++ ((if net.copies = 0 then [m] else []) ++
                ms.filter fun x => later x = 0) := by rw [lost_send, List.append_assoc]
          _ = _ := by
              rw [List.filter_cons, hnow, hfilter]
              split <;> simp_all
      · have hflatMap : (ms.flatMap fun x => List.replicate
            (Function.update later m net.copies x) x) =
            ms.flatMap fun x => List.replicate (later x) x :=
          List.flatMap_congr fun x hx => by rw [hlater x hx]
        rw [List.flatMap_cons, hnow, hflatMap, ← List.append_assoc]
        exact hflight.trans (inFlight_send_perm.append_right _)

end Network

namespace Nodes

variable {nodes : Nodes}

theorem pairwise_programs : nodes.programs.Pairwise fun p q => p.addr ≠ q.addr := by
  refine List.pairwise_map.2 (nodes.map.ascending.imp_of_mem ?_)
  intro e e' he he' hlt heq
  rw [nodes.addr_eq e he, nodes.addr_eq e' he'] at heq
  rw [heq] at hlt
  exact Element.lt_irrefl _ hlt

end Nodes

namespace Cluster

variable {patience : Nat} {p : Program} {e : Envelope} {es : List Envelope} {r : Route}
  {routes : List Route} {nodes nodes' : Nodes}

/-! ## Ticks -/

/-- Every node has ticked once, and all of them did so successfully. -/
def Ticked (patience : Nat) (nodes nodes' : Nodes) : Prop :=
  ∀ addr, Option.Rel (fun p q => ∃ report, p.tick patience = .ok (q, .ok report))
    (nodes.get? addr) (nodes'.get? addr)

theorem Ticked.exists_before (h : Ticked patience nodes nodes') {addr : String} {q : Program}
    (hq : nodes'.get? addr = some q) :
    ∃ p report, nodes.get? addr = some p ∧ p.tick patience = .ok (q, .ok report) := by
  have haddr := h addr
  rw [hq] at haddr
  generalize nodes.get? addr = x at haddr
  cases haddr with
  | some htick => exact ⟨_, htick.choose, rfl, htick.choose_spec⟩

theorem Ticked.exists_after (h : Ticked patience nodes nodes') {addr : String}
    (hp : nodes.get? addr = some p) :
    ∃ q report, nodes'.get? addr = some q ∧ p.tick patience = .ok (q, .ok report) := by
  have haddr := h addr
  rw [hp] at haddr
  generalize nodes'.get? addr = y at haddr
  cases haddr with
  | some htick => exact ⟨_, htick.choose, rfl, htick.choose_spec⟩

theorem get?_of_tickNodes {ps : List Program} (hps : ps.Pairwise fun p q => p.addr ≠ q.addr)
    (h : tickNodes patience ps nodes = .ok (nodes', none)) :
    (∀ addr, (∀ p ∈ ps, p.addr ≠ addr) → nodes'.get? addr = nodes.get? addr) ∧
      ∀ p ∈ ps, ∃ q report, p.tick patience = .ok (q, .ok report) ∧
        nodes'.get? p.addr = some q := by
  induction ps generalizing nodes with
  | nil =>
      cases h
      exact ⟨fun _ _ => rfl, nofun⟩
  | cons p ps ih =>
      obtain ⟨hp, hps⟩ := List.pairwise_cons.1 hps
      obtain ⟨⟨q, result⟩, htick, h⟩ := bind_eq_ok.1 h
      cases result with
      | error e => cases h
      | ok report =>
          obtain ⟨hothers, hrest⟩ := ih hps h
          have haddr : q.addr = p.addr := (Program.sameSetup_of_tick htick).addr_eq
          refine ⟨?_, List.forall_mem_cons.2 ⟨⟨q, report, htick, ?_⟩, hrest⟩⟩
          · intro addr hne
            obtain ⟨hne, hnes⟩ := List.forall_mem_cons.1 hne
            rw [hothers addr hnes, Nodes.get?_put, if_neg (by rw [haddr]; exact hne.symm)]
          · -- no node ticks twice
            rw [hothers p.addr fun p' hp' => (hp p' hp').symm, Nodes.get?_put, if_pos haddr.symm]

theorem ticked_of_tickNodes (h : tickNodes patience nodes.programs nodes = .ok (nodes', none)) :
    Ticked patience nodes nodes' := by
  obtain ⟨hothers, hticked⟩ := get?_of_tickNodes nodes.pairwise_programs h
  intro addr
  cases hp : nodes.get? addr with
  | none =>
      rw [hothers addr, hp]
      · exact .none
      · rintro p hmem rfl
        cases hp.symm.trans (Nodes.mem_programs.1 hmem)
  | some p =>
      have haddr := Nodes.addr_of_get? hp
      obtain ⟨q, report, htick, hq⟩ := hticked p (Nodes.mem_programs.2 (haddr ▸ hp))
      rw [← haddr, hq]
      exact .some ⟨report, htick⟩

/-! ## Collecting -/

/-- The message stands in a routed channel of its sender and is meant for another node. -/
def Posted (routes : List Route) (nodes : Nodes) (e : Envelope) : Prop :=
  ∃ p ∈ nodes.programs, ∃ r ∈ routes, ∃ h v, ∃ m ∈ v,
    p.relation (.set (.message r.type)) r.channel = .ok h ∧ p.facts.tryGet h = .ok v ∧
      r.type.addr m ≠ p.addr ∧ e = ⟨p.addr, r.type.addr m, r.channel, r.type, m⟩

theorem mem_outbound (h : outbound p r = .ok es) : e ∈ es ↔ ∃ h v, ∃ m ∈ v,
    p.relation (.set (.message r.type)) r.channel = .ok h ∧ p.facts.tryGet h = .ok v ∧
      r.type.addr m ≠ p.addr ∧ e = ⟨p.addr, r.type.addr m, r.channel, r.type, m⟩ := by
  unfold outbound at h
  cases hrelation : p.relation (.set (.message r.type)) r.channel with
  | error error =>
      rw [hrelation] at h
      cases error <;> cases h
      constructor <;> simp
  | ok handle =>
      rw [hrelation] at h
      obtain ⟨v, hv, heq⟩ := bind_eq_ok.1 h
      cases heq
      rw [List.mem_map]
      constructor
      · rintro ⟨m, hm, rfl⟩
        obtain ⟨hm, hne⟩ := List.mem_filter.1 hm
        exact ⟨handle, v, m, hm, rfl, hv, by simpa using hne, rfl⟩
      · rintro ⟨h, v', m, hm, heq, hv', hne, rfl⟩
        cases heq
        cases hv.symm.trans hv'
        exact ⟨m, List.mem_filter.2 ⟨hm, by simpa using hne⟩, rfl⟩

theorem nodup_outbound (h : outbound p r = .ok es) : es.Nodup := by
  unfold outbound at h
  cases hrelation : p.relation (.set (.message r.type)) r.channel with
  | error error =>
      rw [hrelation] at h
      cases error <;> cases h
      exact .nil
  | ok handle =>
      rw [hrelation] at h
      obtain ⟨v, hv, heq⟩ := bind_eq_ok.1 h
      cases heq
      refine List.pairwise_map.2 ((v.nodup_elements.filter _).imp ?_)
      intro m m' hne heq
      exact hne (eq_of_heq (Envelope.mk.inj heq).2.2.2.2)

/-- The channels of all nodes are visited one after the other, and none of them twice. -/
theorem pairwise_outboxes (hroutes : routes.Nodup) :
    (outboxes routes nodes).Pairwise fun a b => a.1.addr ≠ b.1.addr ∨ a.2 ≠ b.2 := by
  refine List.pairwise_flatMap.2 ⟨?_, nodes.pairwise_programs.imp ?_⟩
  · intro p _
    exact List.pairwise_map.2 (hroutes.imp .inr)
  · intro p q hpq box hbox box' hbox'
    obtain ⟨_, _, rfl⟩ := List.mem_map.1 hbox
    obtain ⟨_, _, rfl⟩ := List.mem_map.1 hbox'
    exact .inl hpq

/-- Collecting sends what the channels have for other nodes, each message once. -/
theorem collect_eq_sendAll {boxes : List (Program × Route)} {net net' : Network Envelope}
    {sent total : Nat} (hboxes : boxes.Pairwise fun a b => a.1.addr ≠ b.1.addr ∨ a.2 ≠ b.2)
    (h : collect boxes net sent = (net', total, none)) :
    ∃ outgoing, outgoing.Nodup ∧ net' = net.sendAll outgoing ∧
      total = sent + outgoing.length ∧
      ∀ e, e ∈ outgoing ↔ ∃ box ∈ boxes, ∃ es, outbound box.1 box.2 = .ok es ∧ e ∈ es := by
  induction boxes generalizing net sent with
  | nil =>
      cases h
      exact ⟨[], .nil, rfl, rfl, by simp⟩
  | cons box boxes ih =>
      obtain ⟨p, r⟩ := box
      obtain ⟨hbox, hboxes⟩ := List.pairwise_cons.1 hboxes
      rw [collect] at h
      cases houtbound : outbound p r with
      | error error =>
          rw [houtbound] at h
          cases h
      | ok es =>
          rw [houtbound] at h
          obtain ⟨outgoing, hnodup, hnet, htotal, hmem⟩ := ih hboxes h
          refine ⟨es ++ outgoing, List.nodup_append.2 ⟨nodup_outbound houtbound, hnodup, ?_⟩, ?_,
            ?_, ?_⟩
          · -- a message tells the node and the channel that it comes from
            rintro e he _ he' rfl
            obtain ⟨⟨q, r'⟩, hbox', es', hes', he'⟩ := (hmem e).1 he'
            obtain ⟨_, _, m, _, _, _, _, heq⟩ := (mem_outbound houtbound).1 he
            obtain ⟨_, _, m', _, _, _, _, heq'⟩ := (mem_outbound hes').1 he'
            obtain ⟨haddr, _, hchannel, htype, _⟩ := Envelope.mk.inj (heq.symm.trans heq')
            rcases hbox _ hbox' with hne | hne
            · exact hne haddr
            · exact hne (by cases r; cases r'; exact Route.mk.injEq .. ▸ ⟨hchannel, htype⟩)
          · rw [Network.sendAll_append]
            exact hnet
          · rw [htotal, List.length_append]
            omega
          · intro e
            simp [hmem, houtbound]

/-- What is collected is what was posted. -/
theorem posted_iff : Posted routes nodes e ↔
    ∃ box ∈ outboxes routes nodes, ∃ es, outbound box.1 box.2 = .ok es ∧ e ∈ es := by
  constructor
  · rintro ⟨p, hp, r, hr, h, v, m, hm, hrelation, hv, hposted⟩
    have houtbound : ∃ es, outbound p r = .ok es := by
      unfold outbound
      rw [hrelation]
      exact ⟨_, bind_eq_ok.2 ⟨v, hv, rfl⟩⟩
    obtain ⟨es, hes⟩ := houtbound
    exact ⟨(p, r), mem_outboxes.2 ⟨hp, hr⟩, es, hes,
      (mem_outbound hes).2 ⟨h, v, m, hm, hrelation, hv, hposted⟩⟩
  · rintro ⟨box, hbox, es, hes, he⟩
    obtain ⟨hp, hr⟩ := mem_outboxes.1 hbox
    exact ⟨box.1, hp, box.2, hr, (mem_outbound hes).1 he⟩

/-! ## Delivering -/

/-- A delivery that goes through counts the messages with and without a node to go to. -/
theorem counts_of_deliver {outcome : Delivery} {a b : Nat}
    (h : deliver es nodes a b = .ok outcome) (herror : outcome.error = none) :
    outcome.delivered = a + es.countP (fun e => (nodes.get? e.target).isSome) ∧
      outcome.undeliverable = b + es.countP (fun e => (nodes.get? e.target).isNone) := by
  induction es generalizing nodes a b with
  | nil =>
      cases h
      exact ⟨rfl, rfl⟩
  | cons e es ih =>
      rw [deliver] at h
      cases htarget : nodes.get? e.target with
      | none =>
          rw [htarget] at h
          obtain ⟨hdelivered, hundeliverable⟩ := ih h
          simp [htarget, hdelivered, hundeliverable]
          omega
      | some p =>
          rw [htarget] at h
          cases hmail : mail? p e with
          | none =>
              obtain ⟨error, hreceive⟩ := exists_receive_of_no_mail hmail
              simp only [hreceive] at h
              cases h
              cases herror
          | some d =>
              simp only [receive_of_mail hmail] at h
              obtain ⟨hdelivered, hundeliverable⟩ := ih h
              -- the node that took the message is still where it was
              have hsame : ∀ addr, ((nodes.put { p with pending := p.pending ++ [d] }).get?
                  addr).isSome = (nodes.get? addr).isSome := by
                intro addr
                rw [Nodes.get?_put]
                split
                · next heq =>
                    rw [heq, Nodes.addr_of_get? htarget, htarget]
                    rfl
                · rfl
              simp only [← Option.not_isSome, hsame] at hdelivered hundeliverable ⊢
              simp [htarget, hdelivered, hundeliverable]
              omega

end Cluster

end Ratchet

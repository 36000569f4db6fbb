import Ratchet.Proofs.Cluster.LossFree

/-!
# Steps, whether they succeed or not

What a step does in its phases up to the one that fails (`step_cases`).

No step changes what is declared on a node (`Nodes.SameSetup`), and so none changes what a node
takes or whether a channel can be collected.  Collecting through a network without losses leaves in
flight what was there, and adds what the channels hold (`collect_spec`).  It ends at a channel that
has another type than its route, and with such a channel no step ever succeeds (`Blocked`).
-/

namespace Ratchet

/-! ## What no step changes -/

/-- At every address there are programs with the same declarations. -/
def Nodes.SameSetup (nodes nodes' : Nodes) : Prop :=
  ∀ addr, Option.Rel Program.SameSetup (nodes.get? addr) (nodes'.get? addr)

namespace Nodes.SameSetup

variable {nodes nodes' nodes'' : Nodes} {p q : Program} {addr : String}

theorem refl (nodes : Nodes) : nodes.SameSetup nodes := by
  intro addr
  cases nodes.get? addr with
  | none => exact .none
  | some p => exact .some (.refl p)

theorem exists_get? (h : nodes.SameSetup nodes') (hp : nodes.get? addr = some p) :
    ∃ q, nodes'.get? addr = some q ∧ p.SameSetup q := by
  have hpq := h addr
  rw [hp] at hpq
  generalize nodes'.get? addr = y at hpq ⊢
  cases hpq with
  | some hpq => exact ⟨_, rfl, hpq⟩

theorem trans (h : nodes.SameSetup nodes') (h' : nodes'.SameSetup nodes'') :
    nodes.SameSetup nodes'' := by
  intro addr
  have hpq := h addr
  have hqr := h' addr
  generalize nodes.get? addr = x at hpq ⊢
  generalize nodes'.get? addr = y at hpq hqr
  generalize nodes''.get? addr = z at hqr ⊢
  cases hpq with
  | none =>
      cases hqr with
      | none => exact .none
  | some hpq =>
      cases hqr with
      | some hqr => exact .some (hpq.trans hqr)

theorem put (h : nodes.SameSetup nodes') (hp : nodes.get? p.addr = some p) (hpq : p.SameSetup q) :
    nodes.SameSetup (nodes'.put q) := by
  intro addr
  rw [get?_put, hpq.addr_eq]
  split
  · next haddr =>
      rw [haddr, hp]
      exact .some hpq
  · exact h addr

end Nodes.SameSetup

namespace Cluster

variable {patience : Nat} {p q : Program} {e : Envelope} {r : Route} {nodes nodes' : Nodes}

theorem mail?_eq (h : p.SameSetup q) : mail? q e = mail? p e := by
  unfold mail?
  rw [h.relation_eq]

theorem sameSetup_withMail {es : List Envelope} : p.SameSetup (withMail p es) :=
  ⟨rfl, rfl, rfl, p.store.below_refl.sameShape⟩

theorem Supplied.sameSetup {es : List Envelope} (h : Supplied nodes es nodes') :
    nodes.SameSetup nodes' := by
  intro addr
  rw [h]
  cases nodes.get? addr with
  | none => exact .none
  | some p => exact .some sameSetup_withMail

theorem sameSetup_of_tickNodes {base : Nodes} {ps : List Program} {error : Option ProgramError}
    (hps : ∀ p ∈ ps, base.get? p.addr = some p) (h : base.SameSetup nodes)
    (htick : tickNodes patience ps nodes = .ok (nodes', error)) : base.SameSetup nodes' := by
  induction ps generalizing nodes with
  | nil =>
      cases htick
      exact h
  | cons p ps ih =>
      obtain ⟨hp, hps⟩ := List.forall_mem_cons.1 hps
      obtain ⟨⟨p', result⟩, hp', htick⟩ := bind_eq_ok.1 htick
      have hput := h.put hp (Program.sameSetup_of_tick hp')
      cases result with
      | ok report => exact ih hps hput htick
      | error e =>
          cases htick
          exact hput

/-- A channel that cannot be collected has another type, and so it has at any other time. -/
theorem outbound_eq_error (h : p.SameSetup q) {error : ProgramError}
    (herror : outbound p r = .error error) : outbound q r = .error error := by
  unfold outbound at herror ⊢
  rw [h.relation_eq]
  cases hrelation : p.relation (.set (.message r.type)) r.channel with
  | error error' =>
      rw [hrelation] at herror
      cases error' <;> exact herror
  | ok handle =>
      rw [hrelation] at herror
      obtain ⟨v, hv⟩ := Program.tryGet_of_relation hrelation
      simp only [hv] at herror
      cases herror

/-! ## The phases of a step -/

/-- What the phases of a step do, up to the one that fails. -/
theorem step_cases {c c' : Cluster} {result : Except ClusterError StepReport}
    (h : c.step patience = .ok (c', result)) :
    ∃ nodes error, tickNodes patience c.nodes.programs c.nodes = .ok (nodes, error) ∧
      ((∃ e, error = some e ∧ c' = { c with nodes := nodes } ∧ result = .error (.program e)) ∨
        error = none ∧ ∃ network sent error,
          collect (outboxes c.routes nodes) c.network 0 = (network, sent, error) ∧
            ((∃ e, error = some e ∧ c' = { c with nodes := nodes, network := network } ∧
                result = .error (.program e)) ∨
              error = none ∧ ∃ outcome, deliver network.inFlight nodes 0 0 = .ok outcome ∧
                c'.nodes = outcome.nodes ∧ c'.routes = c.routes ∧
                c'.network = { network with inFlight := outcome.rest } ∧
                ((∃ report, result = .ok report) ↔ outcome.error = none))) := by
  obtain ⟨⟨nodes, error⟩, hnodes, h⟩ := bind_eq_ok.1 h
  refine ⟨nodes, error, hnodes, ?_⟩
  cases error with
  | some e =>
      cases h
      exact .inl ⟨e, rfl, rfl, rfl⟩
  | none =>
      rcases hcollect : collect (outboxes c.routes nodes) c.network 0 with ⟨network, sent, error⟩
      refine .inr ⟨rfl, network, sent, error, rfl, ?_⟩
      unfold outboxes at hcollect
      simp only [hcollect] at h
      cases error with
      | some e =>
          cases h
          exact .inl ⟨e, rfl, rfl, rfl⟩
      | none =>
          obtain ⟨outcome, houtcome, h⟩ := bind_eq_ok.1 h
          refine .inr ⟨rfl, outcome, houtcome, ?_⟩
          obtain ⟨nodes', rest, delivered, undeliverable, error⟩ := outcome
          cases error with
          | some e =>
              cases h
              exact ⟨rfl, rfl, rfl, nofun, nofun⟩
          | none =>
              cases h
              exact ⟨rfl, rfl, rfl, fun _ => rfl, fun _ => ⟨_, rfl⟩⟩

/-- Collecting through a network without losses leaves in flight what was there, and puts there
what the channels hold, up to a channel of another type. -/
theorem collect_spec {boxes : List (Program × Route)} {net net' : Network Envelope}
    {sent total : Nat} {error : Option ProgramError} (hloss : net.config.loss.value ≤ 0)
    (h : collect boxes net sent = (net', total, error)) :
    net'.config = net.config ∧ (∀ e ∈ net.inFlight, e ∈ net'.inFlight) ∧
      (error = none → ∀ box ∈ boxes, ∃ es, outbound box.1 box.2 = .ok es ∧
        ∀ e ∈ es, e ∈ net'.inFlight) ∧
      (error ≠ none → ∃ box ∈ boxes, ∃ error, outbound box.1 box.2 = .error error) := by
  induction boxes generalizing net sent with
  | nil =>
      cases h
      exact ⟨rfl, fun _ he => he, fun _ => List.forall_mem_nil _, fun hne => absurd rfl hne⟩
  | cons box boxes ih =>
      obtain ⟨p, r⟩ := box
      rw [collect] at h
      cases houtbound : outbound p r with
      | error error =>
          rw [houtbound] at h
          cases h
          refine ⟨rfl, fun _ he => he, fun hnone => ?_, fun _ => ?_⟩
          · cases hnone
          · exact ⟨_, List.mem_cons_self, _, houtbound⟩
      | ok es =>
          rw [houtbound] at h
          obtain ⟨hconfig, hmem⟩ := Network.mem_sendAll es hloss
          obtain ⟨hconfig', hkept, hall, hrefused⟩ := ih (hconfig ▸ hloss) h
          refine ⟨hconfig'.trans hconfig, fun e he => hkept e ((hmem e).2 (.inl he)), ?_, ?_⟩
          · intro hnone
            refine List.forall_mem_cons.2 ⟨⟨es, houtbound, ?_⟩, hall hnone⟩
            exact fun e he => hkept e ((hmem e).2 (.inr he))
          · intro hsome
            obtain ⟨box, hbox, hbad⟩ := hrefused hsome
            exact ⟨box, List.mem_cons_of_mem _ hbox, hbad⟩

theorem mem_outboxes {routes : List Route} {box : Program × Route} :
    box ∈ outboxes routes nodes ↔ box.1 ∈ nodes.programs ∧ box.2 ∈ routes := by
  obtain ⟨p, r⟩ := box
  simp [outboxes]

/-! ## Declarations and losses along steps -/

variable {c c' : Cluster} {result : Except ClusterError StepReport}

theorem sameSetup_of_ticks {error : Option ProgramError}
    (h : tickNodes patience c.nodes.programs c.nodes = .ok (nodes, error)) :
    c.nodes.SameSetup nodes :=
  sameSetup_of_tickNodes (fun _ hp => Nodes.mem_programs.1 hp) (.refl c.nodes) h

theorem sameSetup_of_step (h : c.step patience = .ok (c', result)) :
    c.nodes.SameSetup c'.nodes ∧ c'.routes = c.routes := by
  obtain ⟨nodes, error, htick, hphases⟩ := step_cases h
  have hnodes := sameSetup_of_ticks htick
  rcases hphases with ⟨_, _, rfl, _⟩ |
    ⟨_, network, sent, error, _, ⟨_, _, rfl, _⟩ | ⟨_, outcome, hdeliver, hnodes', hroutes, _, _⟩⟩
  · exact ⟨hnodes, rfl⟩
  · exact ⟨hnodes, rfl⟩
  · obtain ⟨_, queued, heq, hqueued, _⟩ := deliver_split network.inFlight nodes
    obtain rfl := Except.ok.inj (hdeliver.symm.trans heq)
    exact ⟨hnodes' ▸ hnodes.trans hqueued.sameSetup, hroutes⟩

theorem config_of_step (hloss : c.network.config.loss.value ≤ 0)
    (h : c.step patience = .ok (c', result)) : c'.network.config = c.network.config := by
  obtain ⟨nodes, error, _, hphases⟩ := step_cases h
  rcases hphases with ⟨_, _, rfl, _⟩ | ⟨_, network, sent, error, hcollect, hphases⟩
  · rfl
  · obtain ⟨hconfig, _⟩ := collect_spec hloss hcollect
    rcases hphases with ⟨_, _, rfl, _⟩ | ⟨_, outcome, _, _, _, hnetwork, _⟩
    · exact hconfig
    · exact hnetwork ▸ hconfig

/-- Some node has a routed channel of another type. -/
def Blocked (routes : List Route) (nodes : Nodes) : Prop :=
  ∃ p ∈ nodes.programs, ∃ r ∈ routes, ∃ error, outbound p r = .error error

theorem Blocked.of_sameSetup {routes : List Route} (h : Blocked routes nodes)
    (hnodes : nodes.SameSetup nodes') : Blocked routes nodes' := by
  obtain ⟨p, hp, r, hr, error, herror⟩ := h
  obtain ⟨q, hq, hpq⟩ := hnodes.exists_get? (Nodes.mem_programs.1 hp)
  rw [← hpq.addr_eq] at hq
  exact ⟨q, Nodes.mem_programs.2 hq, r, hr, error, outbound_eq_error hpq herror⟩

/-- With a routed channel of another type no step succeeds. -/
theorem Blocked.step_eq_error (h : Blocked c.routes c.nodes)
    (hloss : c.network.config.loss.value ≤ 0) (hstep : c.step patience = .ok (c', result)) :
    ∃ error, result = .error error := by
  obtain ⟨nodes, _, htick, hphases⟩ := step_cases hstep
  rcases hphases with ⟨e, _, _, herror⟩ |
    ⟨rfl, network, sent, _, hcollect, ⟨e, _, _, herror⟩ | ⟨rfl, _⟩⟩
  · exact ⟨_, herror⟩
  · exact ⟨_, herror⟩
  · -- the channel has this type after the ticks as well
    obtain ⟨p, hp, r, hr, error, herror⟩ := h.of_sameSetup (sameSetup_of_ticks htick)
    obtain ⟨_, _, hall, _⟩ := collect_spec hloss hcollect
    obtain ⟨es, hes, _⟩ := hall rfl (p, r) (mem_outboxes.2 ⟨hp, hr⟩)
    cases hes.symm.trans herror

end Cluster

end Ratchet

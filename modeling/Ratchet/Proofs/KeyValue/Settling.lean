import Ratchet.Proofs.KeyValue.Durability
import Ratchet.Proofs.Program.Total

/-!
# Ticks that settle

A map of values is the one relation of a replica that cannot take in everything: merging a value
into one of another kind, at any depth, is a fault.  Puts that arrive together may conflict with
each other, with what is stored, and with snapshots.  Nevertheless no tick of a replica breaks off,
and none needs more than two passes.

Every rule collects what it merges by folding its writes onto the map that it finds, which holds
what the rules before it have stored.  What it collects has a join with that map, whatever was
dropped (`join_mergeCompatible`).  The second pass folds the same writes onto a map that is above
the result of the first one, so it changes nothing (`fold_of_below`).  This is
`Hosted.exists_pass`.  What waits for a tick are messages, from outside or answers of the tick
before, and channels take in all messages.  So the start of a tick does not break off either, and
the next one finds the replica in the same condition (`Ready.of_tick`).

## Main result

* `Replica.run_settles`: no run breaks off, and its ticks make at most two passes.
-/

namespace Ratchet

variable {program : Nat} {S T : Store} {action : Action}

/-- The action is a tick, or it deposits messages into a relation of the program that is made for
them. -/
def Action.Mails (program : Nat) (S : Store) (action : Action) : Prop :=
  ∀ target w, action.deposit? = some (target, w) →
    (⟨target⟩ : Handle w.type).Declared program S ∧ ∃ m, w.type = .set (.message m)

section Messages

variable {m : MessageType} {h : Handle (.set (.message m))}

theorem Action.mails_addNext {message : m.Carrier} (hh : h.Declared program S) :
    (Action.addNext h message).Mails program S := by
  intro target w hdeposit
  cases hdeposit
  exact ⟨hh, m, rfl⟩

theorem Action.mails_mergeNext {messages : GrowSet m.Carrier} (hh : h.Declared program S) :
    (Action.mergeNext h messages).Mails program S := by
  intro target w hdeposit
  cases hdeposit
  exact ⟨hh, m, rfl⟩

end Messages

theorem Action.mails_tick : Action.tick.Mails program S := nofun

theorem Action.Mails.of_sameShape (h : action.Mails program S) (hST : S.SameShape T) :
    action.Mails program T := by
  intro target w hdeposit
  obtain ⟨hdeclared, hmessages⟩ := h target w hdeposit
  exact ⟨hdeclared.of_sameShape hST, hmessages⟩

/-- The deposit is made for a slot of its own type, and relations of that type take in anything. -/
structure Deposit.Welcome (program : Nat) (S : Store) (d : Deposit) : Prop where
  fits : d.Fits program S
  isTotal : d.write.type.IsTotal

theorem Deposit.Welcome.of_sameShape {d : Deposit} (hd : d.Welcome program S)
    (hST : S.SameShape T) : d.Welcome program T :=
  ⟨hd.fits.of_sameShape hST, hd.isTotal⟩

theorem Action.Mails.welcome {target : RelationId} {w : Write} (h : action.Mails program S)
    (hdeposit : action.deposit? = some (target, w)) :
    Deposit.Welcome program S ⟨target.slot, w⟩ := by
  obtain ⟨hdeclared, m, hm⟩ := h target w hdeposit
  refine ⟨⟨⟨target⟩, hdeclared, rfl⟩, ?_⟩
  rw [hm]
  trivial

namespace KeyValue

theorem welcome_of_mem_queueAll {m : MessageType} {h : Handle (.set (.message m))}
    {messages : List m.Carrier} {d : Deposit} (hh : h.Declared program S)
    (hd : d ∈ queueAll h messages) : d.Welcome program S := by
  obtain ⟨message, _, rfl⟩ := List.mem_map.1 hd
  exact ⟨⟨h, hh, rfl⟩, trivial⟩

namespace Replica

open Ratchet.Lattice

variable {r : Replica} {p q : Program} {patience : Nat} {start : Store}

/-- The first pass of a tick, whatever it starts from, leaves nothing to do, and the answers are
messages. -/
theorem Hosted.exists_pass (hr : r.Hosted p) (hstart : p.store.SameShape start) :
    ∃ final changed queue, pass p.id p.sameTickRules start = .ok (final, changed) ∧
      (∀ rule ∈ p.sameTickRules, rule.Closed p.id final) ∧
      allConsequences ⟨p.id, final⟩ p.nextTickRules = .ok queue ∧
      ∀ d ∈ queue, d.Welcome p.id p.store := by
  rcases hr with hr | ⟨s, hs, rfl⟩
  · obtain ⟨stored, puts, gets, hmap, hputs, hgets⟩ := hr.exists_get hstart
    obtain ⟨changed, hpass, hclosed⟩ := hr.exists_pass hmap hputs
    refine ⟨_, changed, _, hpass, hclosed,
      hr.allConsequences_eq hmap hputs hgets (below_refl _), fun d hd => ?_⟩
    obtain ⟨scope, rfl, hshape, _⟩ := hr.exists_setup
    rcases List.mem_append.1 hd with hd | hd
    · exact welcome_of_mem_queueAll (.of_sameShape ⟨rfl, _, rfl, rfl⟩ hshape) hd
    · exact welcome_of_mem_queueAll (.of_sameShape ⟨rfl, _, rfl, rfl⟩ hshape) hd
  · obtain ⟨stored, puts, gets, requests, snapshots, hmap, hputs, hgets, hrequests, hsnapshots⟩ :=
      hs.exists_get hstart
    obtain ⟨changed, hpass, hclosed⟩ := hs.exists_pass hmap hputs hsnapshots
    refine ⟨_, changed, _, hpass, hclosed,
      hs.allConsequences_eq hmap hputs hgets hrequests below_fold, fun d hd => ?_⟩
    obtain ⟨scope, rfl, hshape, _⟩ := hs.exists_setup
    rw [List.mem_append, List.mem_append] at hd
    rcases hd with (hd | hd) | hd
    · exact welcome_of_mem_queueAll (.of_sameShape ⟨rfl, _, rfl, rfl⟩ hshape) hd
    · exact welcome_of_mem_queueAll (.of_sameShape ⟨rfl, _, rfl, rfl⟩ hshape) hd
    · exact welcome_of_mem_queueAll (.of_sameShape ⟨rfl, _, rfl, rfl⟩ hshape) hd

/-! ## From one action to the next -/

/-- Nothing waits for the replica but what its relations take in. -/
structure Ready (r : Replica) (p : Program) : Prop where
  hosted : r.Hosted p
  welcome : ∀ d ∈ p.pending, d.Welcome p.id p.store

namespace Ready

theorem of_sameSetup (hr : r.Ready p) (hpq : p.SameSetup q)
    (hpending : ∀ d ∈ q.pending, d.Welcome p.id p.store) : r.Ready q where
  hosted := hr.hosted.of_sameSetup hpq
  welcome d hd := by
    rw [hpq.id_eq]
    exact (hpending d hd).of_sameShape hpq.sameShape

/-- A tick does not break off.  It comes to its end if it may make two passes, and the replica is
ready again. -/
theorem exists_tick (hr : r.Ready p) (hpatience : 2 ≤ patience) :
    ∃ q result, p.tick patience = .ok (q, result) ∧ r.Ready q ∧
      (2 ≤ p.passLimit.getD patience → ∃ report, result = .ok report ∧ report.passes ≤ 2) := by
  obtain ⟨start, applied, hstart⟩ : ∃ start applied,
      p.store.resetScratch.depositAll p.id p.pending = .ok (start, applied) :=
    Store.exists_depositAll_of_fits fun d hd =>
      ⟨(hr.welcome d hd).fits.of_sameShape p.store.sameShape_resetScratch,
        (hr.welcome d hd).isTotal⟩
  obtain ⟨final, changed, queue, hpass, hclosed, hqueue, hwelcome⟩ :=
    hr.hosted.exists_pass (Program.sameShape_start hstart)
  obtain ⟨q, result, htick, hpending, hsettles⟩ :=
    Program.exists_result_of_pass hpatience hstart hpass hclosed hqueue
  refine ⟨q, result, htick, hr.of_sameSetup (Program.sameSetup_of_tick htick) ?_, hsettles⟩
  rcases hpending with hpending | hpending
  · rwa [hpending]
  · rw [hpending]
    nofun

/-- Neither does a deposit of messages, and the replica stays ready. -/
theorem exists_perform {action : Action} (hr : r.Ready p) (haction : action.Mails p.id p.store)
    (hpatience : 2 ≤ patience) :
    ∃ q outcome, p.perform patience action = .ok (q, outcome) ∧ r.Ready q ∧
      (2 ≤ p.passLimit.getD patience → ∀ result, outcome = .ticked result →
        ∃ report, result = .ok report ∧ report.passes ≤ 2) := by
  cases hdeposit : action.deposit? with
  | none =>
      obtain rfl := Action.eq_tick_of_deposit? hdeposit
      obtain ⟨q, result, htick, hq, hsettles⟩ := hr.exists_tick hpatience
      refine ⟨q, .ticked result, bind_eq_ok.2 ⟨_, htick, rfl⟩, hq, fun hlimit _ heq => ?_⟩
      cases heq
      exact hsettles hlimit
  | some deposit =>
      obtain ⟨target, w⟩ := deposit
      obtain ⟨hdeclared, _⟩ := haction target w hdeposit
      have hwelcome := haction.welcome hdeposit
      obtain ⟨s, hs⟩ := hdeclared.exists_slot
      obtain ⟨S, grew, hS⟩ := Store.exists_deposit_of_fits hwelcome.fits hwelcome.isTotal
      obtain ⟨q, outcome, hperform⟩ : ∃ q outcome, p.perform patience action = .ok (q, outcome) :=
        Program.exists_perform_of_deposit? hdeposit hs hS
      refine ⟨q, outcome, hperform, hr.of_sameSetup (Program.sameSetup_of_perform hperform) ?_, ?_⟩
      · rcases Program.pending_of_deposit? hdeposit hperform with hpending | hpending
        · rw [hpending]
          exact hr.welcome
        · rw [hpending]
          exact List.forall_mem_append.2 ⟨hr.welcome, List.forall_mem_singleton.2 hwelcome⟩
      · rintro _ result rfl
        rcases Program.perform_cases hperform with ⟨_, _, _, hother, _⟩ | ⟨_, rfl, _⟩
        · exact absurd rfl (hother result)
        · cases hdeposit

/-- From one action to the next, no run breaks off. -/
theorem exists_run {actions : List Action} (hr : r.Ready p)
    (hactions : ∀ action ∈ actions, action.Mails p.id p.store) (hpatience : 2 ≤ patience) :
    ∃ trace, p.run patience actions = .ok trace ∧
      (2 ≤ p.passLimit.getD patience → ∀ q result, (q, .ticked result) ∈ trace →
        ∃ report, result = .ok report ∧ report.passes ≤ 2) := by
  induction actions generalizing p with
  | nil => exact ⟨[], rfl, nofun⟩
  | cons action actions ih =>
      obtain ⟨haction, hactions⟩ := List.forall_mem_cons.1 hactions
      obtain ⟨q, outcome, hperform, hq, hsettles⟩ := hr.exists_perform haction hpatience
      have hsetup := Program.sameSetup_of_perform hperform
      have hlimit : q.passLimit = p.passLimit := by
        rw [(Program.eq_of_perform hperform).1]
      have hrest : ∀ action ∈ actions, action.Mails q.id q.store := fun action haction =>
        hsetup.id_eq ▸ (hactions action haction).of_sameShape hsetup.sameShape
      obtain ⟨trace, hrun, htrace⟩ := ih hq hrest
      refine ⟨(q, outcome) :: trace, Program.run_cons.2 ⟨q, outcome, trace, hperform, hrun, rfl⟩,
        fun htwo q' result hstep => ?_⟩
      rcases List.mem_cons.1 hstep with heq | hstep
      · cases heq
        exact hsettles htwo result rfl
      · exact htrace (hlimit ▸ htwo) q' result hstep

end Ready

/-- A replica comes through everything that it is sent.

Take a program that holds just a replica, with or without snapshots, and for which nothing waits
yet, and any list of messages for its channels and ticks: any number of puts, gets, requests and
snapshots, with values that conflict at any depth, in batches of any size.  No action breaks off,
whatever bound there is on the passes of a tick.  If a tick may make two passes, then every tick
comes to its end, and with two passes at most. -/
theorem run_settles (hr : r.Hosted p) (hempty : p.pending = []) {actions : List Action}
    (hactions : ∀ action ∈ actions, action.Mails p.id p.store) (hpatience : 2 ≤ patience) :
    ∃ trace, p.run patience actions = .ok trace ∧
      (2 ≤ p.passLimit.getD patience → ∀ q result, (q, .ticked result) ∈ trace →
        ∃ report, result = .ok report ∧ report.passes ≤ 2) := by
  have hready : r.Ready p := by
    refine ⟨hr, ?_⟩
    rw [hempty]
    nofun
  exact hready.exists_run hactions hpatience

/-- A replica with snapshots whose ticks make two passes at most. -/
def hasty : Program :=
  { ((SyncReplica.declare "").runOn (.create 0 "n" (some 2))).2 with pending := [] }

/-- Two puts that conflict inside the map that they write, a snapshot that has a text in its place,
and the first put again in the next tick. -/
def quarrel : List Action :=
  let put := (replicaOf 0).channels.put
  [.addNext put ⟨1, "n", "c", "k", .ofMap (.singleton "a" (.ofMaxInt ⟨3⟩))⟩,
    .addNext put ⟨2, "n", "c", "k", .ofMap (.singleton "a" (.ofFlag ⟨true⟩))⟩,
    .addNext (syncReplicaOf 0).snapshot ⟨"n", .singleton "k" (.ofMaxText ⟨"t"⟩)⟩, .tick,
    .mergeNext put (.ofList [⟨3, "n", "c", "k", .ofMap (.singleton "a" (.ofMaxInt ⟨3⟩))⟩]), .tick]

theorem run_settles_quarrel : ∃ trace, hasty.run 2 quarrel = .ok trace ∧
    ∀ q result, (q, .ticked result) ∈ trace →
      ∃ report, result = .ok report ∧ report.passes ≤ 2 := by
  have hhosted : (replicaOf 0).Hosted hasty :=
    .inr ⟨syncReplicaOf 0, SyncReplica.serves_declared [], rfl⟩
  have hput : (replicaOf 0).channels.put.Declared 0 hasty.store := ⟨rfl, _, rfl, rfl⟩
  have hsnapshot : (syncReplicaOf 0).snapshot.Declared 0 hasty.store := ⟨rfl, _, rfl, rfl⟩
  have hmails : ∀ action ∈ quarrel, action.Mails 0 hasty.store := by
    refine List.forall_mem_cons.2 ⟨Action.mails_addNext hput, List.forall_mem_cons.2
      ⟨Action.mails_addNext hput, List.forall_mem_cons.2 ⟨Action.mails_addNext hsnapshot,
        List.forall_mem_cons.2 ⟨Action.mails_tick, List.forall_mem_cons.2
          ⟨Action.mails_mergeNext hput, List.forall_mem_singleton.2 Action.mails_tick⟩⟩⟩⟩⟩
  obtain ⟨trace, hrun, hsettles⟩ := run_settles hhosted rfl hmails (Nat.le_refl 2)
  exact ⟨trace, hrun, hsettles (Nat.le_refl 2)⟩

end Replica

end KeyValue

end Ratchet

import Mathlib.Data.List.Perm.Basic
import Ratchet.Network

/-!
# The balance of a network

An unreliable network keeps its books.  Sending a message draws up to three decisions, on its loss,
on doubling it and on moving it, and each of them is given a name here.  The first two fix how many
copies of the message are put in flight (`copies`), and a message without a copy is kept aside as
lost.  The third one only exchanges two messages that are in flight, in places that are inside the
queue (`exchange?_lt`).

So the messages that were received, those in flight and those that are lost make up, as a multiset,
the messages that were sent and the ones among them that were doubled (`run_perm`).  Receiving and
retransmitting move messages between the three and change nothing about the sum.

## Main result

* `run_balance`: what a fresh network holds after any calls.
-/

namespace Ratchet.Network

open scoped List

variable {M : Type} {net : Network M} {rate : Rate} {m x : M} {ms : List M} {i j : Nat}

/-! ## The decisions on a message -/

/-- The decision on the loss of the next message. -/
def lossRoll (net : Network M) : Bool × Network M :=
  roll { net with sent := net.sent + 1 } net.config.loss

/-- The decision on doubling the next message, drawn if that is not lost. -/
def doublingRoll (net : Network M) : Bool × Network M :=
  net.lossRoll.2.roll net.lossRoll.2.config.duplication

/-- Whether the next message is doubled. -/
def doubles (net : Network M) : Bool := !net.lossRoll.1 && net.doublingRoll.1

/-- How many copies of the next message are put in flight. -/
def copies (net : Network M) : Nat :=
  if net.lossRoll.1 then 0 else if net.doubles then 2 else 1

/-- What is in flight with a message at the end, before it is moved. -/
def queue (net : Network M) (m : M) : List M := net.inFlight ++ List.replicate net.copies m

/-- The decision on moving a message.  It is not drawn for one that is alone in flight. -/
def movingRoll (net : Network M) (m : M) : Bool × Network M :=
  let net' := { net.doublingRoll.2 with inFlight := net.queue m }
  if 1 < (net.queue m).length then net'.roll net'.config.reordering else (false, net')

/-- The two places in the queue that are exchanged as a message is sent, if it is moved. -/
def exchange? (net : Network M) (m : M) : Option (Nat × Nat) :=
  if !net.lossRoll.1 && (net.movingRoll m).1 then
    let last := (net.queue m).length - 1
    some ((Draw.below (net.movingRoll m).2.draws last (net.movingRoll m).2.used).1, last)
  else none

/-- A decision uses up a random word at most. -/
theorem roll_snd_eq : (net.roll rate).2 = { net with used := (net.roll rate).2.used } := by
  unfold roll
  split <;> rfl

theorem lossRoll_snd_eq : net.lossRoll.2 =
    { net with sent := net.sent + 1, used := net.lossRoll.2.used } := by
  unfold lossRoll
  rw [roll_snd_eq]

theorem doublingRoll_snd_eq : net.doublingRoll.2 =
    { net with sent := net.sent + 1, used := net.doublingRoll.2.used } := by
  unfold doublingRoll
  rw [roll_snd_eq, lossRoll_snd_eq]

theorem movingRoll_snd_eq : (net.movingRoll m).2 =
    { net with
      sent := net.sent + 1
      used := (net.movingRoll m).2.used
      inFlight := net.queue m } := by
  unfold movingRoll
  dsimp only
  split
  · rw [roll_snd_eq, doublingRoll_snd_eq]
  · rw [doublingRoll_snd_eq]

/-- Sending a message that is lost. -/
theorem send_of_lost (h : net.lossRoll.1 = true) :
    net.send m = { net.lossRoll.2 with lost := net.lost ++ [m] } := by
  have hlost : net.lossRoll.2.lost = net.lost := by rw [lossRoll_snd_eq]
  rw [← hlost]
  exact if_pos h

/-- Sending a message that is not lost. -/
theorem send_of_kept (h : net.lossRoll.1 = false) :
    net.send m =
      if (net.movingRoll m).1 then (net.movingRoll m).2.swapLast else (net.movingRoll m).2 := by
  have hqueue : net.doublingRoll.2.inFlight ++ (if net.doublingRoll.1 then [m, m] else [m]) =
      net.queue m := by
    rw [doublingRoll_snd_eq]
    simp only [queue, copies, doubles, h]
    cases net.doublingRoll.1 <;> rfl
  have hsend : net.send m =
      let net' := { net.doublingRoll.2 with inFlight := net.queue m }
      if 1 < net'.inFlight.length then
        let moved := net'.roll net'.config.reordering
        if moved.1 then moved.2.swapLast else moved.2
      else net' := by
    rw [← hqueue]
    exact if_neg (Bool.eq_false_iff.1 h)
  rw [hsend]
  unfold movingRoll
  dsimp only
  split <;> rfl

/-! ## What sending does -/

theorem swapAt_perm : (swapAt ms i j).Perm ms := by
  unfold swapAt
  split
  · next a b ha hb =>
      obtain ⟨hi, rfl⟩ := List.getElem?_eq_some_iff.1 ha
      obtain ⟨hj, rfl⟩ := List.getElem?_eq_some_iff.1 hb
      exact List.set_set_perm hi hj
  · rfl

theorem copies_eq_zero : net.copies = 0 ↔ net.lossRoll.1 = true := by
  unfold copies
  split
  · next h => simp [h]
  · next h => simp [h, ite_eq_iff]

theorem copies_le_two : net.copies ≤ 2 := by
  unfold copies
  split <;> [omega; split <;> omega]

theorem inFlight_send : (net.send m).inFlight =
    match net.exchange? m with
    | some (i, j) => swapAt (net.queue m) i j
    | none => net.queue m := by
  cases hlost : net.lossRoll.1 with
  | true =>
      rw [send_of_lost hlost, lossRoll_snd_eq]
      simp [exchange?, hlost, queue, copies]
  | false =>
      rw [send_of_kept hlost]
      cases hmoved : (net.movingRoll m).1 with
      | true =>
          have hinFlight : (net.movingRoll m).2.inFlight = net.queue m := by
            rw [movingRoll_snd_eq]
          simp [exchange?, hlost, hmoved, swapLast, hinFlight]
      | false =>
          rw [movingRoll_snd_eq]
          simp [exchange?, hlost, hmoved]

theorem lost_send :
    (net.send m).lost = net.lost ++ if net.copies = 0 then [m] else [] := by
  cases hlost : net.lossRoll.1 with
  | true => rw [send_of_lost hlost, if_pos (copies_eq_zero.2 hlost)]
  | false =>
      have hcopies : net.copies ≠ 0 := by simp [copies_eq_zero, hlost]
      rw [if_neg hcopies, List.append_nil, send_of_kept hlost]
      have hkept : (net.movingRoll m).2.lost = net.lost := by rw [movingRoll_snd_eq]
      split
      · exact hkept
      · exact hkept

theorem config_send : (net.send m).config = net.config := by
  cases hlost : net.lossRoll.1 with
  | true => rw [send_of_lost hlost, lossRoll_snd_eq]
  | false =>
      rw [send_of_kept hlost]
      have hkept : (net.movingRoll m).2.config = net.config := by rw [movingRoll_snd_eq]
      split
      · exact hkept
      · exact hkept

theorem sent_send : (net.send m).sent = net.sent + 1 := by
  cases hlost : net.lossRoll.1 with
  | true => rw [send_of_lost hlost, lossRoll_snd_eq]
  | false =>
      rw [send_of_kept hlost]
      have hsent : (net.movingRoll m).2.sent = net.sent + 1 := by rw [movingRoll_snd_eq]
      split
      · exact hsent
      · exact hsent

/-- Two messages that are exchanged stand at different places inside the queue. -/
theorem exchange?_lt (h : net.exchange? m = some (i, j)) : i < j ∧ j < (net.queue m).length := by
  unfold exchange? at h
  split at h
  · next hmoved =>
      cases h
      have hlength : 1 < (net.queue m).length := by
        by_contra hshort
        simp [movingRoll, hshort] at hmoved
      exact ⟨Draw.below_lt (by omega), by omega⟩
  · cases h

/-- What is in flight after a message is sent, in whatever order. -/
theorem inFlight_send_perm :
    (net.send m).inFlight.Perm (net.inFlight ++ List.replicate net.copies m) := by
  rw [inFlight_send]
  split
  · exact swapAt_perm
  · rfl

/-! ## Calls -/

/-- Something that is done with a network. -/
inductive Call (M : Type) where
  | send (m : M)
  | receive
  | retransmitLost

/-- The message that a call sends. -/
def Call.sent? : Call M → Option M
  | send m => some m
  | _ => none

/-- The messages that a list of calls sends. -/
def sentBy (calls : List (Call M)) : List M := calls.filterMap Call.sent?

/-- What a call receives, and the network after it. -/
def perform (net : Network M) : Call M → List M × Network M
  | .send m => ([], net.send m)
  | .receive =>
    match net.receive? with
    | some (m, net) => ([m], net)
    | none => ([], net)
  | .retransmitLost => ([], net.retransmitLost)

/-- What a list of calls receives, and the network after it. -/
def run : Network M → List (Call M) → List M × Network M
  | net, [] => ([], net)
  | net, call :: calls =>
    let (received, net) := net.perform call
    let (more, net) := run net calls
    (received ++ more, net)

/-- The messages that a list of calls sends and for which the decision on doubling says yes. -/
def doubledBy : Network M → List (Call M) → List M
  | _, [] => []
  | net, .send m :: calls => (if net.doubles then [m] else []) ++ doubledBy (net.send m) calls
  | net, call :: calls => doubledBy (net.perform call).2 calls

/-- The copies of messages that are accounted for: those received, in flight and lost. -/
def accounted (outcome : List M × Network M) : List M :=
  outcome.1 ++ outcome.2.inFlight ++ outcome.2.lost

theorem doubledBy_sublist (calls : List (Call M)) :
    (net.doubledBy calls).Sublist (sentBy calls) := by
  induction calls generalizing net with
  | nil => exact List.Sublist.slnil
  | cons call calls ih =>
      cases call with
      | send m =>
          have hself : (if net.doubles then [m] else []).Sublist [m] := by
            cases net.doubles <;> simp
          exact hself.append ih
      | receive => exact ih
      | retransmitLost => exact ih

/-- The copies of a message, whether it is lost or not, are itself and the one by which it is
doubled. -/
theorem accounted_copies : List.replicate net.copies m ++ (if net.copies = 0 then [m] else []) =
    m :: if net.doubles then [m] else [] := by
  unfold copies doubles
  cases net.lossRoll.1 with
  | true => rfl
  | false => cases net.doublingRoll.1 <;> rfl

/-- One call moves messages between the three places, and only sending adds any. -/
theorem perform_perm (call : Call M) :
    (accounted (net.perform call)).Perm
      (net.inFlight ++ net.lost ++ (sentBy [call] ++ net.doubledBy [call])) := by
  cases call with
  | send m =>
      have hsent : sentBy [.send m] ++ net.doubledBy [.send m] =
          List.replicate net.copies m ++ (if net.copies = 0 then [m] else []) := by
        rw [accounted_copies]
        simp [sentBy, Call.sent?, doubledBy]
      rw [hsent]
      calc (net.send m).inFlight ++ (net.send m).lost
        _ = (net.send m).inFlight ++ (net.lost ++ if net.copies = 0 then [m] else []) := by
            rw [lost_send]
        _ ~ net.inFlight ++ List.replicate net.copies m ++
              (net.lost ++ if net.copies = 0 then [m] else []) :=
            inFlight_send_perm.append_right _
        _ ~ _ := by
            simp only [List.append_assoc]
            exact (List.perm_append_comm_assoc ..).append_left _
  | receive =>
      have hnone : sentBy [.receive] ++ net.doubledBy [.receive] = [] := rfl
      rw [hnone, List.append_nil]
      simp only [perform, receive?]
      cases hflight : net.inFlight with
      | nil => simp [accounted, hflight]
      | cons m ms => simp [accounted]
  | retransmitLost =>
      have hnone : sentBy [.retransmitLost] ++ net.doubledBy [.retransmitLost] = [] := rfl
      rw [hnone, List.append_nil]
      simp [accounted, perform, retransmitLost]

theorem sentBy_cons (call : Call M) (calls : List (Call M)) :
    sentBy (call :: calls) = sentBy [call] ++ sentBy calls :=
  List.filterMap_append (l := [call])

theorem doubledBy_cons (call : Call M) (calls : List (Call M)) :
    net.doubledBy (call :: calls) =
      net.doubledBy [call] ++ (net.perform call).2.doubledBy calls := by
  cases call <;> simp [doubledBy, perform]

/-- What is accounted for is what was there, what was sent and what was doubled. -/
theorem run_perm (calls : List (Call M)) :
    (accounted (net.run calls)).Perm
      (net.inFlight ++ net.lost ++ (sentBy calls ++ net.doubledBy calls)) := by
  induction calls generalizing net with
  | nil => simp [accounted, run, sentBy, doubledBy]
  | cons call calls ih =>
      rw [sentBy_cons, doubledBy_cons]
      let net' := (net.perform call).2
      calc accounted (net.run (call :: calls))
        _ = (net.perform call).1 ++ accounted (net'.run calls) := by
            simp [accounted, run, net']
        _ ~ accounted (net.perform call) ++ (sentBy calls ++ net'.doubledBy calls) := by
            have hrest := (@ih net').append_left (net.perform call).1
            simpa [accounted, net'] using hrest
        _ ~ net.inFlight ++ net.lost ++ (sentBy [call] ++ net.doubledBy [call]) ++
              (sentBy calls ++ net'.doubledBy calls) :=
            (perform_perm call).append_right _
        _ ~ _ := by
            simp only [List.append_assoc]
            refine .append_left _ (.append_left _ (.append_left _ ?_))
            exact List.perm_append_comm_assoc ..

theorem sent_run (calls : List (Call M)) :
    (net.run calls).2.sent = net.sent + (sentBy calls).length := by
  induction calls generalizing net with
  | nil => rfl
  | cons call calls ih =>
      have hcall : (net.perform call).2.sent = net.sent + (sentBy [call]).length := by
        cases call with
        | send m => exact sent_send
        | receive =>
            simp only [perform, receive?]
            cases net.inFlight <;> rfl
        | retransmitLost => rfl
      rw [sentBy_cons, List.length_append, ← Nat.add_assoc, ← hcall, ← ih]
      rfl

/-- A fresh network neither makes up messages nor drops them, whatever its rates are and whatever is
drawn.  Of every message there are at least as many copies, received, in flight or lost, as it was
sent times, and at most twice as many.  Altogether there is one copy for every message sent and one
more for every decision on doubling that said yes.  What the move of a message exchanges are two
places inside the queue. -/
theorem run_balance [DecidableEq M] (config : Config) (draws : Nat → UInt64)
    (calls : List (Call M)) :
    (∀ m : M,
      (sentBy calls).count m ≤ (accounted ((withDraws config draws).run calls)).count m ∧
        (accounted ((withDraws config draws).run calls)).count m ≤ 2 * (sentBy calls).count m) ∧
      (accounted ((withDraws config draws).run calls)).length =
        ((withDraws config draws).run calls).2.sent +
          ((withDraws config draws).doubledBy calls).length ∧
      ∀ (before after : List (Call M)) (m : M) (i j : Nat), calls = before ++ .send m :: after →
        ((withDraws config draws).run before).2.exchange? m = some (i, j) →
          (((withDraws config draws).run before).2.send m).inFlight =
              swapAt (((withDraws config draws).run before).2.queue m) i j ∧
            i < j ∧ j < (((withDraws config draws).run before).2.queue m).length := by
  let net : Network M := withDraws config draws
  have hperm : accounted (net.run calls) ~ sentBy calls ++ net.doubledBy calls := run_perm calls
  have hdoubled : (net.doubledBy calls).Sublist (sentBy calls) := doubledBy_sublist calls
  refine ⟨fun m => ?_, ?_, fun before _ m i j _ hmoved => ?_⟩
  · have hcount : (accounted (net.run calls)).count m =
        (sentBy calls).count m + (net.doubledBy calls).count m := by
      rw [hperm.count_eq, List.count_append]
    have hle : (net.doubledBy calls).count m ≤ (sentBy calls).count m := hdoubled.count_le m
    change _ ≤ (accounted (net.run calls)).count m ∧ (accounted (net.run calls)).count m ≤ _
    omega
  · have hsent : (net.run calls).2.sent = (sentBy calls).length := by
      rw [sent_run]
      exact Nat.zero_add _
    rw [hperm.length_eq, List.length_append, hsent]
  · have hflight : ((net.run before).2.send m).inFlight =
        swapAt ((net.run before).2.queue m) i j := by
      rw [inFlight_send, hmoved]
    exact ⟨hflight, exchange?_lt hmoved⟩

/-- A network that loses the first message, and doubles and moves the second one. -/
def restless : Network Nat :=
  withDraws ⟨⟨1 / 2⟩, ⟨1 / 2⟩, ⟨1⟩, 0⟩ fun n => if n = 1 then .ofNat (UInt64.size - 1) else 0

theorem run_balance_restless :
    accounted (restless.run [.send 3, .send 5, .receive, .retransmitLost]) = [5, 5, 3] ∧
      [5, 5, 3].count 5 ≤ 2 * (sentBy [.send 3, .send 5, .receive, .retransmitLost]).count 5 ∧
      (restless.run [.send 3]).2.exchange? 5 = some (0, 1) ∧
      1 < ((restless.run [.send 3]).2.queue 5).length := by
  have haccounted :
      accounted (restless.run [.send 3, .send 5, .receive, .retransmitLost]) = [5, 5, 3] := by
    decide +kernel
  have hmoved : (restless.run [.send 3]).2.exchange? 5 = some (0, 1) := by
    decide +kernel
  obtain ⟨hcount, _, hplaces⟩ := run_balance restless.config restless.draws
    [.send 3, .send 5, .receive, .retransmitLost]
  obtain ⟨_, _, hinside⟩ := hplaces [.send 3] [.receive, .retransmitLost] 5 0 1 rfl hmoved
  refine ⟨haccounted, ?_, hmoved, hinside⟩
  rw [← haccounted]
  exact (hcount 5).2

end Ratchet.Network

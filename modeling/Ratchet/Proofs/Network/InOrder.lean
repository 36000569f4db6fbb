import Ratchet.Proofs.Network.Balance

/-!
# Networks that keep the order

A network whose rate of reordering is not positive never exchanges two messages
(`exchange?_eq_none`).  What it does to a list of messages is then said by `Conveys`, message by
message: one is lost, or it is passed on once, or it is passed on twice in a row.  A loss needs a
positive rate of losses, and passing on twice a positive rate of doubling.

Messages enter at one end of the queue and leave it at the other.  So a call appends what it conveys
to what was received and is in flight, and nothing else moves (`perform_conveys`); a receive moves a
message across the line between the two.  A run conveys what its calls convey, one after the other
(`run_conveys`).

## Main result

* `run_inOrder`: a fresh network is a queue with losses and repetitions.
-/

namespace Ratchet.Network

variable {M : Type} {net : Network M} {config : Config} {m : M}
  {sent passed lost sent' passed' lost' : List M}

/-! ## What becomes of messages -/

/-- Of the messages that are sent, those that are lost are taken out; the others are passed on in
the same order, some of them twice in a row. -/
inductive Conveys (config : Config) : (sent passed lost : List M) → Prop
  | nil : Conveys config [] [] []
  | lose (m : M) {sent passed lost : List M} (rate : 0 < config.loss.value)
      (rest : Conveys config sent passed lost) : Conveys config (m :: sent) passed (m :: lost)
  | pass (m : M) {sent passed lost : List M} (rest : Conveys config sent passed lost) :
      Conveys config (m :: sent) (m :: passed) lost
  | double (m : M) {sent passed lost : List M} (rate : 0 < config.duplication.value)
      (rest : Conveys config sent passed lost) : Conveys config (m :: sent) (m :: m :: passed) lost

namespace Conveys

/-- Messages that are sent later are passed on later, and lost later. -/
theorem append (h : Conveys config sent passed lost) (h' : Conveys config sent' passed' lost') :
    Conveys config (sent ++ sent') (passed ++ passed') (lost ++ lost') := by
  induction h with
  | nil => exact h'
  | lose m rate _ ih => exact .lose m rate ih
  | pass m _ ih => exact .pass m ih
  | double m rate _ ih => exact .double m rate ih

theorem lost_eq_nil (h : Conveys config sent passed lost) (hloss : config.loss.value ≤ 0) :
    lost = [] := by
  induction h with
  | nil => rfl
  | lose m rate _ _ => exact absurd rate (Rat.not_lt.2 hloss)
  | pass m _ ih => exact ih
  | double m _ _ ih => exact ih

/-- Without doubling, what is passed on is what was sent and is not lost. -/
theorem passed_sublist (h : Conveys config sent passed lost)
    (hdoubling : config.duplication.value ≤ 0) :
    passed.Sublist sent ∧ passed.length + lost.length = sent.length := by
  induction h with
  | nil => exact ⟨.slnil, rfl⟩
  | lose m _ _ ih =>
      refine ⟨ih.1.cons m, ?_⟩
      simp only [List.length_cons]
      omega
  | pass m _ ih =>
      refine ⟨ih.1.cons_cons m, ?_⟩
      simp only [List.length_cons]
      omega
  | double m rate _ _ => exact absurd rate (Rat.not_lt.2 hdoubling)

end Conveys

/-! ## One call -/

theorem rate_pos_of_roll {rate : Rate} (h : (net.roll rate).1 = true) : 0 < rate.value := by
  unfold roll at h
  split at h
  · next hpositive => exact of_decide_eq_true hpositive
  · cases h

/-- The copies of one message, as the decisions on it have it. -/
theorem conveys_copies : Conveys net.config [m] (List.replicate net.copies m)
    (if net.copies = 0 then [m] else []) := by
  have hconfig : net.lossRoll.2.config = net.config := by rw [lossRoll_snd_eq]
  unfold copies doubles
  cases hlost : net.lossRoll.1 with
  | true => exact .lose m (rate_pos_of_roll hlost) .nil
  | false =>
      cases hdoubled : net.doublingRoll.1 with
      | true =>
          have hrate := rate_pos_of_roll hdoubled
          rw [hconfig] at hrate
          exact .double m hrate .nil
      | false => exact .pass m .nil

/-- Without reordering no two messages are exchanged. -/
theorem exchange?_eq_none (h : net.config.reordering.value ≤ 0) : net.exchange? m = none := by
  have hconfig : net.doublingRoll.2.config = net.config := by rw [doublingRoll_snd_eq]
  have hstay : (net.movingRoll m).1 = false := by
    refine Bool.eq_false_iff.2 fun hmoved => ?_
    unfold movingRoll at hmoved
    dsimp only at hmoved
    split at hmoved
    · have hrate := rate_pos_of_roll hmoved
      rw [hconfig] at hrate
      exact absurd hrate (Rat.not_lt.2 h)
    · cases hmoved
  simp [exchange?, hstay]

theorem config_perform (call : Call M) : (net.perform call).2.config = net.config := by
  cases call with
  | send m => exact config_send
  | receive =>
      simp only [perform, receive?]
      cases net.inFlight <;> rfl
  | retransmitLost => rfl

/-- A call conveys what it sends, behind all that is in flight and all that is lost. -/
theorem perform_conveys (horder : net.config.reordering.value ≤ 0) {call : Call M}
    (hcall : call ≠ .retransmitLost) : ∃ passed lost,
      Conveys net.config (sentBy [call]) passed lost ∧
      (net.perform call).1 ++ (net.perform call).2.inFlight = net.inFlight ++ passed ∧
      (net.perform call).2.lost = net.lost ++ lost := by
  cases call with
  | send m =>
      refine ⟨_, _, conveys_copies, ?_, lost_send⟩
      change [] ++ (net.send m).inFlight = _
      rw [inFlight_send, exchange?_eq_none horder]
      rfl
  | receive =>
      refine ⟨[], [], .nil, ?_⟩
      simp only [perform, receive?]
      cases hflight : net.inFlight with
      | nil => simp [hflight]
      | cons m ms => simp
  | retransmitLost => exact absurd rfl hcall

/-! ## Runs -/

/-- A run conveys what its calls convey, one after the other. -/
theorem run_conveys {calls : List (Call M)} (horder : net.config.reordering.value ≤ 0)
    (hcalls : .retransmitLost ∉ calls) : ∃ passed lost,
      Conveys net.config (sentBy calls) passed lost ∧
      (net.run calls).1 ++ (net.run calls).2.inFlight = net.inFlight ++ passed ∧
      (net.run calls).2.lost = net.lost ++ lost := by
  induction calls generalizing net with
  | nil => exact ⟨[], [], .nil, by simp [run], by simp [run]⟩
  | cons call calls ih =>
      rw [List.mem_cons, not_or] at hcalls
      obtain ⟨hcall, hrest⟩ := hcalls
      let net' := (net.perform call).2
      have hconfig : net'.config = net.config := config_perform call
      obtain ⟨passed, lost, hconveys, hflight, hlost⟩ := perform_conveys horder (Ne.symm hcall)
      obtain ⟨passed', lost', hconveys', hflight', hlost'⟩ :=
        @ih net' (hconfig ▸ horder) hrest
      refine ⟨passed ++ passed', lost ++ lost', ?_, ?_, ?_⟩
      · rw [sentBy_cons]
        exact hconveys.append (hconfig ▸ hconveys')
      · calc (net.run (call :: calls)).1 ++ (net.run (call :: calls)).2.inFlight
          _ = (net.perform call).1 ++ ((net'.run calls).1 ++ (net'.run calls).2.inFlight) :=
              List.append_assoc ..
          _ = (net.perform call).1 ++ net'.inFlight ++ passed' := by
              rw [hflight', List.append_assoc]
          _ = net.inFlight ++ (passed ++ passed') := by
              rw [hflight, List.append_assoc]
      · change (net'.run calls).2.lost = _
        rw [hlost', hlost, List.append_assoc]

/-- Without reordering and retransmission a fresh network is a queue, whatever is drawn and however
sending and receiving are mixed.  The messages received so far and those in flight behind them are
the messages sent, in their order, without those that are lost, each of them once or twice in a row;
the lost ones are kept in the same order.  No message stands there twice if the rate of doubling is
not positive, and none is lost if the rate of losses is not. -/
theorem run_inOrder (config : Config) (draws : Nat → UInt64) (calls : List (Call M))
    (horder : config.reordering.value ≤ 0) (hcalls : .retransmitLost ∉ calls) :
    let outcome := (withDraws config draws).run calls
    Conveys config (sentBy calls) (outcome.1 ++ outcome.2.inFlight) outcome.2.lost ∧
      (config.loss.value ≤ 0 → outcome.2.lost = []) ∧
      (config.duplication.value ≤ 0 → (outcome.1 ++ outcome.2.inFlight).Sublist (sentBy calls)) ∧
      (config.loss.value ≤ 0 → config.duplication.value ≤ 0 →
        outcome.1 ++ outcome.2.inFlight = sentBy calls) := by
  intro outcome
  have horder' : (withDraws config draws : Network M).config.reordering.value ≤ 0 := horder
  obtain ⟨passed, lost, hconveys, hflight, hlost⟩ := run_conveys horder' hcalls
  have hflight : outcome.1 ++ outcome.2.inFlight = passed := hflight
  have hlost : outcome.2.lost = lost := hlost
  rw [hflight, hlost]
  refine ⟨hconveys, hconveys.lost_eq_nil, fun hdoubling => (hconveys.passed_sublist hdoubling).1,
    fun hloss hdoubling => ?_⟩
  obtain ⟨hsublist, hlength⟩ := hconveys.passed_sublist hdoubling
  rw [hconveys.lost_eq_nil hloss] at hlength
  exact hsublist.eq_of_length hlength

/-- A network that loses the first message, doubles the second one, and passes on the third. -/
def stuttering : Network Nat :=
  withDraws ⟨⟨1 / 2⟩, ⟨1 / 2⟩, ⟨0⟩, 0⟩ fun n =>
    if n = 0 ∨ n = 2 then 0 else .ofNat (UInt64.size - 1)

theorem run_inOrder_stuttering :
    let outcome := stuttering.run [.send 3, .send 5, .receive, .send 7]
    stuttering.config.reordering.value ≤ 0 ∧
      outcome.1 = [5] ∧ outcome.2.inFlight = [5, 7] ∧ outcome.2.lost = [3] ∧
      Conveys stuttering.config [3, 5, 7] ([5] ++ [5, 7]) [3] := by
  intro outcome
  have hreceived : outcome.1 = [5] := by decide +kernel
  have hflight : outcome.2.inFlight = [5, 7] := by decide +kernel
  have hlost : outcome.2.lost = [3] := by decide +kernel
  have horder : stuttering.config.reordering.value ≤ 0 := by decide
  have hconveys : Conveys stuttering.config [3, 5, 7] (outcome.1 ++ outcome.2.inFlight)
      outcome.2.lost :=
    (run_inOrder stuttering.config stuttering.draws
      [.send 3, .send 5, .receive, .send 7] horder (by simp)).1
  rw [hreceived, hflight, hlost] at hconveys
  exact ⟨horder, hreceived, hflight, hlost, hconveys⟩

end Ratchet.Network

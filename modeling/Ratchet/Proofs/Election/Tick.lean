import Ratchet.Proofs.Election.Votes

/-!
# Ticks of a member

What a tick makes of a sound state.  The deposits that wait for it reach neither the votes nor what
was won with them, and bring only backed replies.  In every pass the rules that follow messages come
first; they leave a state that has caught up, and the other rules of the pass keep it sound.  What
the tick queues in the end is as harmless as what it started with (`Tame`).
-/

namespace Ratchet.Election

variable {known : Ballots} {id quorum : Nat} {here scope : String} {S T : Store} {σ τ : State}

/-! ## Passes -/

/-- The rules that follow messages into later terms. -/
def followRules (id : Nat) (scope : String) : List Rule :=
  [followVoteRequestRule id scope, followVoteReplyRule id scope, followAppendRequestRule id scope]

/-- The other rules of the same tick. -/
def countRules (id : Nat) (here scope : String) : List Rule :=
  [voteForSelfRule id here scope, countOwnVoteRule id here scope, recordVoteRule id here scope,
    countVoteRule id here scope, declareVictoryRule id scope, recordOwnLeadRule id here scope,
    leadsCurrentTermRule id scope, recordLeaderRule id here scope]

/-- The rules of the next tick. -/
def sendRules (id : Nat) (here scope : String) : List Rule :=
  [advanceTermRule id scope, campaignRule id scope, requestVoteRule id here scope,
    answerVoteRequestRule id here scope, announceRule id here scope, answerLeaderRule id here scope]

theorem filter_sameTick_memberRules :
    (memberRules id here scope).filter (fun r => r.timing = .sameTick) =
      followRules id scope ++ countRules id here scope := rfl

theorem filter_nextTick_memberRules :
    (memberRules id here scope).filter (fun r => r.timing = .nextTick) =
      sendRules id here scope := rfl

/-- Following messages changes the term only, and only if it was behind. -/
theorem exists_of_pass_follow {changed : Bool} (hσ : Reads id S σ)
    (h : pass id (followRules id scope) S = .ok (T, changed)) :
    ∃ term : MaxInt, Reads id T (Function.update σ .term term) ∧
      Caught (Function.update σ .term term) ∧ (Caught σ → term = σ .term) := by
  obtain ⟨S₁, _, hfire₁, h, _⟩ := pass_cons h
  obtain ⟨S₂, _, hfire₂, h, _⟩ := pass_cons h
  obtain ⟨S₃, _, hfire₃, h, _⟩ := pass_cons h
  cases h
  obtain ⟨t₁, hS₁, _, hrequests, hsame₁⟩ := exists_of_fire_follow hσ hfire₁
  obtain ⟨t₂, hS₂, hle₂, hreplies, hsame₂⟩ := exists_of_fire_follow hS₁ hfire₂
  obtain ⟨t₃, hS₃, hle₃, happends, hsame₃⟩ := exists_of_fire_follow hS₂ hfire₃
  rw [Function.update_idem, Function.update_idem] at hS₃
  refine ⟨t₃, hS₃, ⟨?_, ?_, happends⟩, ?_⟩
  · intro m hm
    exact Int64.le_trans (hrequests m hm) (Int64.le_trans hle₂ hle₃)
  · intro m hm
    exact Int64.le_trans (hreplies m hm) hle₃
  · -- each of the rules in turn finds a term that is not behind
    intro hcaught
    obtain rfl := hsame₁ hcaught.1
    obtain rfl : t₂ = σ .term := hsame₂ hcaught.2.1
    exact hsame₃ hcaught.2.2

/-- A pass keeps a state sound. -/
theorem sound_of_pass {changed : Bool} (hσ : Reads id S σ) (hsound : Sound known here quorum σ)
    (hquorum : quorum ≤ majority (σ .peers).size)
    (h : pass id (followRules id scope ++ countRules id here scope) S = .ok (T, changed)) :
    ∃ τ, Reads id T τ ∧ Sound known here quorum τ ∧ Keeps σ τ := by
  obtain ⟨R, _, _, hfollow, hcount⟩ := pass_append h
  obtain ⟨term, hR, hcaught, hsame⟩ := exists_of_pass_follow hσ hfollow
  -- a leader had caught up, so its term does not move and it stays the winner of its term
  have hterm : (σ .isLeader).value → term = σ .term := fun hleads => hsame (hsound.leads hleads).2
  have hstart : Tallies known here quorum id σ R :=
    ⟨_, hR, hsound.update_term hterm, hcaught, keeps_refl σ⟩
  have hrules : ∀ r ∈ countRules id here scope, ∀ S T, Tallies known here quorum id σ S →
      r.fire id S = .ok T → Tallies known here quorum id σ T := by
    simp only [countRules, List.forall_mem_cons]
    exact ⟨fun _ _ h => h.voteForSelf, fun _ _ h => h.countOwnVote, fun _ _ h => h.recordVote,
      fun _ _ h => h.countVote, fun _ _ h => h.declareVictory hquorum,
      fun _ _ h => h.of_leaders, fun _ _ h => h.leadsCurrentTerm, fun _ _ h => h.of_leaders,
      nofun⟩
  obtain ⟨τ, hτ, hsound, _, hkeeps⟩ := of_pass hrules hstart hcount
  exact ⟨τ, hτ, hsound, hkeeps⟩

/-- Any number of passes keep a state sound. -/
theorem sound_of_passes {n : Nat} (hσ : Reads id S σ) (hsound : Sound known here quorum σ)
    (hquorum : quorum ≤ majority (σ .peers).size)
    (h : passes id (followRules id scope ++ countRules id here scope) n S = .ok T) :
    ∃ τ, Reads id T τ ∧ Sound known here quorum τ ∧ Keeps σ τ := by
  refine of_passes (P := fun T => ∃ τ, Reads id T τ ∧ Sound known here quorum τ ∧ Keeps σ τ)
    (fun S T changed hS hpass => ?_) ⟨σ, hσ, hsound, keeps_refl σ⟩ h
  obtain ⟨υ, hυ, hsound, hkeeps⟩ := hS
  have hpeers : quorum ≤ majority (υ .peers).size := by
    rw [hkeeps.2]
    exact hquorum
  obtain ⟨τ, hτ, hsound, hkeeps'⟩ := sound_of_pass hυ hsound hpeers hpass
  exact ⟨τ, hτ, hsound, hkeeps.trans hkeeps'⟩

/-! ## Deposits -/

/-- The deposit reaches neither the votes nor what is won with them, and the votes that it grants
are known. -/
def Tame (known : Ballots) (d : Deposit) : Prop :=
  d.slot ≤ Cell.campaigns.slot ∧
    ∀ m ∈ d.write.factsOf (.message .voteReply), m.granted →
      known m.senderAddr (termKey m.term) m.addr

theorem Tame.mono {known' : Ballots} {d : Deposit} (h : Tame known d)
    (hknown : ∀ voter key candidate, known voter key candidate → known' voter key candidate) :
    Tame known' d :=
  ⟨h.1, fun m hm hgrants => hknown _ _ _ (h.2 m hm hgrants)⟩

theorem tame_add {c : Cell} {x : c.type.Tuple} (hslot : c.slot ≤ Cell.campaigns.slot)
    (hne : c ≠ .voteReply) : Tame known ⟨c.slot, .add c.type x⟩ := by
  refine ⟨hslot, ?_⟩
  cases c <;> first | exact absurd rfl hne | nofun

section Start

variable {pending : List Deposit} {applied : Nat} (hS : (memberSlots scope).SameShape S)
  (hσ : Reads id S σ) (hpending : ∀ d ∈ pending, Tame known d)
  (hstart : S.resetScratch.depositAll id pending = .ok (T, applied))

include hS hσ hpending hstart

/-- What a tick starts from: the deposits are in the relations up to the campaigns, and the others
are as the reset left them. -/
theorem exists_start : ∃ τ, Reads id T τ ∧
    (∀ c : Cell, Cell.campaigns.slot < c.slot → τ c = σ.reset c) ∧
    (∀ m, m ∈ τ .voteReply ↔ ∃ d ∈ pending,
      d.slot = Cell.voteReply.slot ∧ m ∈ d.write.factsOf (.message .voteReply)) ∧
    ∀ x, x ∈ τ .peers ↔ x ∈ σ .peers ∨
      ∃ d ∈ pending, d.slot = Cell.peers.slot ∧ x ∈ d.write.factsOf .text := by
  have hreset := hσ.resetScratch hS
  have hT : (memberSlots scope).SameShape T :=
    hS.trans (S.sameShape_resetScratch.trans (Store.depositAll_least hstart).1.sameShape)
  obtain ⟨τ, hτ⟩ := exists_reads hT
  obtain ⟨replies, hreplies, hreply⟩ := exists_get_of_depositAll (hreset .voteReply) hstart
  obtain rfl := Except.ok.inj (hreplies.symm.trans (hτ .voteReply))
  obtain ⟨peers, hpeers, hpeer⟩ := exists_get_of_depositAll (hreset .peers) hstart
  obtain rfl := Except.ok.inj (hpeers.symm.trans (hτ .peers))
  refine ⟨τ, hτ, ?_, ?_, hpeer⟩
  · intro c hc
    have hne : ∀ d ∈ pending, d.slot ≠ c.slot := by
      intro d hd heq
      have hle := (hpending d hd).1
      omega
    have hget := get_of_depositAll_of_ne (h := Cell.handle id c) hne hstart
    rw [hτ c, hreset c] at hget
    exact Except.ok.inj hget
  · intro m
    rw [hreply]
    -- the channel was empty after the reset
    exact or_iff_right List.not_mem_nil

/-- A tick of a member starts from a sound state. -/
theorem sound_start (hsound : Sound known here quorum σ) :
    ∃ τ, Reads id T τ ∧ Sound known here quorum τ ∧ τ .voted = σ .voted ∧
      ∀ x, x ∈ τ .peers ↔ x ∈ σ .peers ∨
        ∃ d ∈ pending, d.slot = Cell.peers.slot ∧ x ∈ d.write.factsOf .text := by
  obtain ⟨τ, hτ, hsame, hreply, hpeer⟩ := exists_start hS hσ hpending hstart
  have hvoted : τ .voted = σ .voted := hsame .voted (by decide)
  have hgranted : τ .granted = σ .granted := hsame .granted (by decide)
  have hwon : τ .won = σ .won := hsame .won (by decide)
  have hisLeader : τ .isLeader = ⟨false⟩ := hsame .isLeader (by decide)
  refine ⟨τ, hτ, ⟨?_, ?_, ?_, ?_⟩, hvoted, hpeer⟩
  · intro m hm hgrants
    obtain ⟨d, hd, _, hm⟩ := (hreply m).1 hm
    exact .inl ((hpending d hd).2 m hm hgrants)
  · unfold Backed
    rw [hgranted, hvoted]
    exact hsound.granted
  · rw [hwon, hgranted]
    exact hsound.won
  · intro hleads
    rw [hisLeader] at hleads
    cases hleads

end Start

/-- A vote is granted to whom it is on record for. -/
theorem backed_of_answer {request : VoteRequest} {reply : VoteReply} (hσ : Reads id S σ)
    (h : answerVoteRequest (memberOf id) here ⟨id, S⟩ request = .ok (some reply))
    (hgrants : reply.granted) :
    Backed known here σ reply.senderAddr (termKey reply.term) reply.addr := by
  unfold answerVoteRequest at h
  rw [hσ.currentTerm] at h
  simp only [bind, Except.bind, hσ.votedFor, pure, Except.pure] at h
  split at h
  · cases h
    obtain ⟨_, hvote⟩ := of_decide_eq_true hgrants
    obtain ⟨⟨_⟩, hvote, rfl⟩ := Option.map_eq_some_iff.1 hvote
    exact .inr ⟨rfl, hvote⟩
  · cases h

theorem tame_of_send {r : Rule} {ds : List Deposit} {d : Deposit} (hσ : Reads id S σ)
    (hr : r ∈ sendRules id here scope) (hds : r.consequences ⟨id, S⟩ = .ok ds) (hd : d ∈ ds) :
    Tame (Backed known here σ) d ∧ d.slot ≠ Cell.peers.slot := by
  simp only [sendRules, List.mem_cons, List.not_mem_nil, or_false] at hr
  rcases hr with rfl | rfl | rfl | rfl | rfl | rfl
  case inr.inr.inr.inl =>
    -- the only rule that queues replies to vote requests
    obtain ⟨replies, hreplies, reply, hreply, rfl⟩ := exists_of_consequences hds hd
    obtain ⟨request, _, hselect⟩ := (hσ.mem_selected hreplies).1 hreply
    refine ⟨⟨by simp [Cell.slot], ?_⟩, by simp [Cell.slot]⟩
    intro m hm hgrants
    obtain rfl := List.mem_singleton.1 hm
    exact backed_of_answer hσ hselect hgrants
  all_goals
    obtain ⟨_, _, _, _, rfl⟩ := exists_of_consequences hds hd
    exact ⟨tame_add (by decide) (by decide), by simp [Cell.slot]⟩

/-! ## Ticks -/

/-- A tick keeps a member sound, and what it queues is tame. -/
theorem sound_of_tick {p q : Program} {patience : Nat} {result : Except ProgramError TickReport}
    (hrules : p.rules = memberRules p.id here scope) (hp : (memberSlots scope).SameShape p.store)
    (hσ : Reads p.id p.store σ) (hsound : Sound known here quorum σ)
    (hpending : ∀ d ∈ p.pending, Tame known d)
    (hquorum : ∀ peers : GrowSet String, (∀ x, x ∈ peers ↔ x ∈ σ .peers ∨
      ∃ d ∈ p.pending, d.slot = Cell.peers.slot ∧ x ∈ d.write.factsOf .text) →
        quorum ≤ majority peers.size)
    (htick : p.tick patience = .ok (q, result)) :
    ∃ τ, Reads q.id q.store τ ∧ Sound known here quorum τ ∧
      (∀ key vote, (σ .voted).get? key = some vote → (τ .voted).get? key = some vote) ∧
      (∀ x, x ∈ τ .peers ↔ x ∈ σ .peers ∨
        ∃ d ∈ p.pending, d.slot = Cell.peers.slot ∧ x ∈ d.write.factsOf .text) ∧
      ∀ d ∈ q.pending, Tame (Backed known here τ) d ∧ d.slot ≠ Cell.peers.slot := by
  obtain ⟨start, applied, n, hstart, hpasses, hqueue, hq⟩ := Program.passes_of_tick htick
  have hid : q.id = p.id := by rw [hq]
  obtain ⟨υ, hυ, hsound, hvoted, hpeers⟩ := sound_start hp hσ hpending hstart hsound
  rw [Program.sameTickRules, hrules, filter_sameTick_memberRules] at hpasses
  obtain ⟨τ, hτ, hsound, hkeeps⟩ := sound_of_passes hυ hsound (hquorum _ hpeers) hpasses
  refine ⟨τ, ?_, hsound, ?_, ?_, ?_⟩
  · rw [hid]
    exact hτ
  · rw [← hvoted]
    exact hkeeps.1
  · rw [hkeeps.2]
    exact hpeers
  · intro d hd
    rcases hqueue with hqueue | hnone
    · rw [Program.nextTickRules, hrules, filter_nextTick_memberRules] at hqueue
      obtain ⟨r, hr, ds, hds, hd⟩ := mem_of_allConsequences hqueue hd
      exact tame_of_send hτ hr hds hd
    · rw [hnone] at hd
      cases hd

end Ratchet.Election

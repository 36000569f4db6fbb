import Ratchet.Proofs.Election.Member

/-!
# Votes through a tick

Why the votes that a member counts were cast.  A vote is cast when it is recorded, and it stays on
record from then on (`Keeps`).  A vote is *backed* if its voter has it on record: the member itself
in its current state, the others as far as is `known` of them.

A state is `Sound` if whatever speaks of votes in it is backed.  The vote replies in its channel and
the votes that it has counted are backed, terms are won with a quorum of counted votes, and whoever
leads has won the current term.  Rules that follow messages into later terms would break the last of
these if they came late.  But they come first in every pass, and then the term is not behind any
message (`Caught`) and stays what it is up to the end of the tick.
-/

namespace Ratchet.Election

/-- Who is known to have voted: by voter, term and candidate. -/
abbrev Ballots := String → String → String → Prop

/-- The vote is known, or it is on the member's own record. -/
def Backed (known : Ballots) (here : String) (σ : State) (voter term candidate : String) : Prop :=
  known voter term candidate ∨ voter = here ∧ (σ .voted).get? term = some ⟨candidate⟩

/-- The term is not behind any message. -/
def Caught (σ : State) : Prop :=
  (∀ m ∈ σ .voteRequest, m.candidateTerm ≤ (σ .term).value) ∧
    (∀ m ∈ σ .voteReply, m.term ≤ (σ .term).value) ∧
    ∀ m ∈ σ .appendRequest, m.leaderTerm ≤ (σ .term).value

/-- Votes are counted only if they are backed, and terms are won only with a quorum of them. -/
structure Sound (known : Ballots) (here : String) (quorum : Nat) (σ : State) : Prop where
  replies : ∀ m ∈ σ .voteReply, m.granted →
    Backed known here σ m.senderAddr (termKey m.term) m.addr
  granted : ∀ key votes voter, (σ .granted).get? key = some votes → voter ∈ votes →
    Backed known here σ voter key here
  won : ∀ key, (σ .won).get? key = some ⟨true⟩ →
    ∃ votes, (σ .granted).get? key = some votes ∧ quorum ≤ votes.size
  leads : (σ .isLeader).value →
    (σ .won).get? (termKey (σ .term).value) = some ⟨true⟩ ∧ Caught σ

/-- What is on record stays on record, and the peers are the same. -/
def Keeps (σ τ : State) : Prop :=
  (∀ key vote, (σ .voted).get? key = some vote → (τ .voted).get? key = some vote) ∧
    τ .peers = σ .peers

variable {known : Ballots} {here : String} {quorum : Nat} {σ τ υ : State}
  {voter key candidate : String}

theorem keeps_refl (σ : State) : Keeps σ σ := ⟨fun _ _ h => h, rfl⟩

theorem Keeps.trans (hστ : Keeps σ τ) (hτυ : Keeps τ υ) : Keeps σ υ :=
  ⟨fun key vote h => hτυ.1 key vote (hστ.1 key vote h), hτυ.2.trans hστ.2⟩

theorem Backed.of_keeps (h : Backed known here σ voter key candidate) (hστ : Keeps σ τ) :
    Backed known here τ voter key candidate := by
  rcases h with h | ⟨rfl, h⟩
  · exact .inl h
  · exact .inr ⟨rfl, hστ.1 _ _ h⟩

/-- Votes that are backed by what is known are backed by more. -/
theorem Sound.of_backed {known' : Ballots} (h : Sound known here quorum σ)
    (hbacked : ∀ voter key candidate, Backed known here σ voter key candidate →
      Backed known' here σ voter key candidate) : Sound known' here quorum σ where
  replies m hm hgrants := hbacked _ _ _ (h.replies m hm hgrants)
  granted key votes voter hvotes hvoter := hbacked _ _ _ (h.granted key votes voter hvotes hvoter)
  won := h.won
  leads := h.leads

/-! ## Updates -/

/-- What is won stays won. -/
theorem won_of_addAll {won : StringMap Flag} {entries : List (MapEntry Flag)}
    (hadd : Relation.addAll (σ .won) entries = .ok won)
    (hkey : (σ .won).get? key = some ⟨true⟩) : won.get? key = some ⟨true⟩ := by
  have hbelow := StringMap.below_iff.1 (Relation.below_of_addAll hadd)
  obtain ⟨flag, hflag, hle⟩ := hbelow key _ hkey
  obtain rfl : (⟨true⟩ : Flag) = flag := Except.ok.inj hle
  exact hflag

section Update

variable (h : Sound known here quorum σ)

include h

theorem Sound.update_peers {peers : GrowSet String} :
    Sound known here quorum (Function.update σ .peers peers) where
  replies := h.replies
  granted := h.granted
  won := h.won
  leads := h.leads

theorem Sound.update_term {term : MaxInt} (hterm : (σ .isLeader).value → term = σ .term) :
    Sound known here quorum (Function.update σ .term term) where
  replies := h.replies
  granted := h.granted
  won := h.won
  leads hleads := by
    have hsame : Function.update σ .term term = σ := by
      rw [hterm hleads, Function.update_eq_self]
    rw [hsame]
    exact h.leads hleads

theorem Sound.update_voted {votes : StringMap MaxText}
    (hvotes : ∀ key vote, (σ .voted).get? key = some vote → votes.get? key = some vote) :
    Sound known here quorum (Function.update σ .voted votes) where
  replies m hm hgranted := (h.replies m hm hgranted).of_keeps ⟨hvotes, rfl⟩
  granted key s voter hs hvoter := (h.granted key s voter hs hvoter).of_keeps ⟨hvotes, rfl⟩
  won := h.won
  leads := h.leads

theorem Sound.update_granted {granted : StringMap (GrowSet String)}
    (hgrow : Lattice.Below (σ .granted) granted)
    (hbacked : ∀ key votes voter, granted.get? key = some votes → voter ∈ votes →
      Backed known here σ voter key here) :
    Sound known here quorum (Function.update σ .granted granted) where
  replies := h.replies
  granted := hbacked
  won key hwon := by
    obtain ⟨votes, hvotes, hquorum⟩ := h.won key hwon
    obtain ⟨votes', hvotes', hbelow⟩ := StringMap.below_iff.1 hgrow key votes hvotes
    have hsize : votes.size ≤ votes'.size :=
      GrowSet.size_le_of_forall_mem fun _ hx => GrowSet.mem_of_below hbelow hx
    exact ⟨votes', hvotes', by omega⟩
  leads := h.leads

/-- Votes that are added one by one have to be backed one by one. -/
theorem Sound.update_granted_of_addAll {granted : StringMap (GrowSet String)}
    {entries : List (MapEntry (GrowSet String))}
    (hadd : Relation.addAll (σ .granted) entries = .ok granted)
    (hbacked : ∀ e ∈ entries, ∀ voter ∈ e.value, Backed known here σ voter e.key here) :
    Sound known here quorum (Function.update σ .granted granted) := by
  refine h.update_granted (Relation.below_of_addAll hadd) ?_
  intro key votes voter hvotes hvoter
  have hunion : ∀ a b c : GrowSet String, Lattice.join a b = .ok c → voter ∈ c →
      voter ∈ a ∨ voter ∈ b := by
    rintro a b _ ⟨⟩ hc
    exact GrowSet.mem_union.1 hc
  rcases StringMap.mem_of_addAll hunion hadd hvotes hvoter with ⟨old, hold, hx⟩ | ⟨e, he, rfl, hx⟩
  · exact h.granted key old voter hold hx
  · exact hbacked e he voter hx

theorem Sound.update_won {won : StringMap Flag}
    (hgrow : ∀ key, (σ .won).get? key = some ⟨true⟩ → won.get? key = some ⟨true⟩)
    (hwon : ∀ key, won.get? key = some ⟨true⟩ →
      ∃ votes, (σ .granted).get? key = some votes ∧ quorum ≤ votes.size) :
    Sound known here quorum (Function.update σ .won won) where
  replies := h.replies
  granted := h.granted
  won := hwon
  leads hleads := by
    obtain ⟨hlead, hcaught⟩ := h.leads hleads
    exact ⟨hgrow _ hlead, hcaught⟩

/-- Terms that are won one by one need a quorum one by one. -/
theorem Sound.update_won_of_addAll {won : StringMap Flag} {entries : List (MapEntry Flag)}
    (hadd : Relation.addAll (σ .won) entries = .ok won)
    (hmajority : ∀ e ∈ entries,
      ∃ votes, (σ .granted).get? e.key = some votes ∧ quorum ≤ votes.size) :
    Sound known here quorum (Function.update σ .won won) := by
  refine h.update_won (fun key hkey => won_of_addAll hadd hkey) ?_
  intro key hkey
  have hor : ∀ a b c : Flag, Lattice.join a b = .ok c → c.value = true →
      a.value = true ∨ b.value = true := by
    rintro a b _ ⟨⟩ hc
    exact Bool.or_eq_true_iff.1 hc
  rcases StringMap.mem_of_addAll hor hadd hkey rfl with ⟨⟨_⟩, hold, rfl⟩ | ⟨e, he, rfl, _⟩
  · exact h.won key hold
  · exact hmajority e he

theorem Sound.update_leaders {leaders : StringMap MaxText} :
    Sound known here quorum (Function.update σ .leaders leaders) where
  replies := h.replies
  granted := h.granted
  won := h.won
  leads := h.leads

theorem Sound.update_isLeader {isLeader : Flag}
    (hleads : isLeader.value → (σ .isLeader).value ∨
      (σ .won).get? (termKey (σ .term).value) = some ⟨true⟩ ∧ Caught σ) :
    Sound known here quorum (Function.update σ .isLeader isLeader) where
  replies := h.replies
  granted := h.granted
  won := h.won
  leads hlead := by
    rcases hleads hlead with hold | hnew
    · exact h.leads hold
    · exact hnew

end Update

/-! ## Rules -/

section Rules

variable {id : Nat} {scope : String} {S T : Store}

/-- A rule that follows messages moves the term up to theirs, if it is not there yet. -/
theorem exists_of_fire_follow {c : Cell} {termOf : c.type.Tuple → Int64}
    (hσ : Reads id S σ) (hfire : (rule scope [c] .term .sameTick id (.of (Cell.handle id c))
      fun _ message => .ok (some (termOf message))).fire id S = .ok T) :
    ∃ term : MaxInt, Reads id T (Function.update σ .term term) ∧
      (σ .term).value ≤ term.value ∧
      (∀ m ∈ Relation.tuples (σ c), termOf m ≤ term.value) ∧
      ((∀ m ∈ Relation.tuples (σ c), termOf m ≤ (σ .term).value) → term = σ .term) := by
  obtain ⟨terms, term, hterms, hadd, hT⟩ := hσ.exists_of_fire hfire
  have hmem : ∀ t, t ∈ terms ↔ ∃ m ∈ Relation.tuples (σ c), termOf m = t := by
    intro t
    rw [hσ.mem_selected hterms]
    simp
  obtain ⟨hle, hall⟩ := MaxInt.le_of_addAll hadd
  refine ⟨term, hT, hle, fun m hm => hall _ ((hmem _).2 ⟨m, hm, rfl⟩), ?_⟩
  intro hcaught
  refine MaxInt.eq_of_addAll hadd ?_
  intro t ht
  obtain ⟨m, hm, rfl⟩ := (hmem t).1 ht
  exact hcaught m hm

/-- Votes recorded where there was none leave the record as it was elsewhere. -/
theorem voted_of_addAll {votes : StringMap MaxText} {entries : List (MapEntry MaxText)}
    (hadd : Relation.addAll (σ .voted) entries = .ok votes)
    (hnew : ∀ e ∈ entries, (σ .voted).get? e.key = none) (key : String) (vote : MaxText)
    (hvote : (σ .voted).get? key = some vote) : votes.get? key = some vote := by
  have hkeys : ∀ e ∈ entries, e.key ≠ key := by
    rintro e he rfl
    rw [hnew e he] at hvote
    cases hvote
  rw [StringMap.get?_of_addAll hadd hkeys, hvote]

/-- A candidate votes for itself only in a term without a vote on record. -/
theorem get?_of_voteForSelf {term : Int64} {e : MapEntry MaxText} (hσ : Reads id S σ)
    (h : voteForSelf (memberOf id) here ⟨id, S⟩ term = .ok (some e)) :
    (σ .voted).get? e.key = none := by
  unfold voteForSelf at h
  rw [hσ.currentTerm, hσ.votedFor] at h
  simp only [bind, Except.bind, pure, Except.pure, Except.ok.injEq,
    Option.ite_none_right_eq_some, Option.map_eq_none_iff, Option.some.injEq] at h
  obtain ⟨⟨_, hnone⟩, rfl⟩ := h
  exact hnone

/-- A member votes for others only in a term without a vote on record. -/
theorem get?_of_recordVote {request : VoteRequest} {e : MapEntry MaxText} (hσ : Reads id S σ)
    (h : recordVote (memberOf id) here ⟨id, S⟩ request = .ok (some e)) :
    (σ .voted).get? e.key = none := by
  unfold recordVote at h
  rw [hσ.currentTerm, hσ.votedFor] at h
  simp only [bind, Except.bind, pure, Except.pure, Except.ok.injEq,
    Option.ite_none_right_eq_some, Option.map_eq_none_iff, Option.some.injEq] at h
  obtain ⟨⟨_, _, hnone⟩, rfl⟩ := h
  exact hnone

/-- A rule that records a vote only where none is on record leaves the record as it was
elsewhere. -/
theorem exists_of_fire_voted {c : Cell} {sources : List Cell}
    {select : Facts → c.type.Tuple → Except Fault (Option (MapEntry MaxText))} (hσ : Reads id S σ)
    (hfire : (rule scope sources .voted .sameTick id (.of (Cell.handle id c)) select).fire id S =
      .ok T)
    (hnew : ∀ row e, select ⟨id, S⟩ row = .ok (some e) → (σ .voted).get? e.key = none) :
    ∃ votes, Reads id T (Function.update σ .voted votes) ∧
      ∀ key vote, (σ .voted).get? key = some vote → votes.get? key = some vote := by
  obtain ⟨entries, votes, hentries, hadd, hT⟩ := hσ.exists_of_fire hfire
  refine ⟨votes, hT, voted_of_addAll hadd ?_⟩
  intro e he
  obtain ⟨row, _, hselect⟩ := (hσ.mem_selected hentries).1 he
  exact hnew row e hselect

/-- The store has a sound state that has caught up, and that keeps what is on record at `origin`. -/
def Tallies (known : Ballots) (here : String) (quorum id : Nat) (origin : State) (S : Store) :
    Prop :=
  ∃ σ, Reads id S σ ∧ Sound known here quorum σ ∧ Caught σ ∧ Keeps origin σ

section Tallies

variable {origin : State} {c : Cell} {sources : List Cell}
  (h : Tallies known here quorum id origin S)

include h

/-- A rule that records votes must not record a second one. -/
theorem Tallies.of_voted {select : Facts → c.type.Tuple → Except Fault (Option (MapEntry MaxText))}
    (hfire : (rule scope sources .voted .sameTick id (.of (Cell.handle id c)) select).fire id S =
      .ok T)
    (hnew : ∀ σ row e, Reads id S σ → select ⟨id, S⟩ row = .ok (some e) →
      (σ .voted).get? e.key = none) :
    Tallies known here quorum id origin T := by
  obtain ⟨σ, hσ, hsound, hcaught, hkeeps⟩ := h
  obtain ⟨votes, hT, hvotes⟩ := exists_of_fire_voted hσ hfire fun row e => hnew σ row e hσ
  exact ⟨_, hT, hsound.update_voted hvotes, hcaught, hkeeps.trans ⟨hvotes, rfl⟩⟩

/-- A rule that counts votes must only count backed ones. -/
theorem Tallies.of_granted
    {select : Facts → c.type.Tuple → Except Fault (Option (MapEntry (GrowSet String)))}
    (hfire : (rule scope sources .granted .sameTick id (.of (Cell.handle id c)) select).fire id S =
      .ok T)
    (hbacked : ∀ σ, Reads id S σ → Sound known here quorum σ →
      ∀ row ∈ Relation.tuples (σ c), ∀ e, select ⟨id, S⟩ row = .ok (some e) →
        ∀ voter ∈ e.value, Backed known here σ voter e.key here) :
    Tallies known here quorum id origin T := by
  obtain ⟨σ, hσ, hsound, hcaught, hkeeps⟩ := h
  obtain ⟨entries, granted, hentries, hadd, hT⟩ := hσ.exists_of_fire hfire
  have hvotes : ∀ e ∈ entries, ∀ voter ∈ e.value, Backed known here σ voter e.key here := by
    intro e he
    obtain ⟨row, hrow, hselect⟩ := (hσ.mem_selected hentries).1 he
    exact hbacked σ hσ hsound row hrow e hselect
  exact ⟨_, hT, hsound.update_granted_of_addAll hadd hvotes, hcaught, hkeeps⟩

/-- A rule that takes note of leaders cannot do any harm. -/
theorem Tallies.of_leaders
    {select : Facts → c.type.Tuple → Except Fault (Option (MapEntry MaxText))}
    (hfire : (rule scope sources .leaders .sameTick id (.of (Cell.handle id c)) select).fire id S =
      .ok T) :
    Tallies known here quorum id origin T := by
  obtain ⟨σ, hσ, hsound, hcaught, hkeeps⟩ := h
  obtain ⟨_, leaders, _, _, hT⟩ := hσ.exists_of_fire hfire
  exact ⟨_, hT, hsound.update_leaders, hcaught, hkeeps⟩

theorem Tallies.voteForSelf (hfire : (voteForSelfRule id here scope).fire id S = .ok T) :
    Tallies known here quorum id origin T :=
  h.of_voted hfire fun _ _ _ hσ hselect => get?_of_voteForSelf hσ hselect

theorem Tallies.recordVote (hfire : (recordVoteRule id here scope).fire id S = .ok T) :
    Tallies known here quorum id origin T :=
  h.of_voted hfire fun _ _ _ hσ hselect => get?_of_recordVote hσ hselect

theorem Tallies.countOwnVote (hfire : (countOwnVoteRule id here scope).fire id S = .ok T) :
    Tallies known here quorum id origin T := by
  refine h.of_granted hfire ?_
  intro σ hσ _ term _ e hselect voter hvoter
  unfold Election.countOwnVote at hselect
  rw [hσ.votedFor] at hselect
  simp only [bind, Except.bind, pure, Except.pure, Except.ok.injEq,
    Option.ite_none_right_eq_some, Option.map_eq_some_iff, Option.some.injEq] at hselect
  obtain ⟨⟨⟨_⟩, hvote, rfl⟩, rfl⟩ := hselect
  exact .inr ⟨GrowSet.mem_singleton.1 hvoter, hvote⟩

theorem Tallies.countVote (hfire : (countVoteRule id here scope).fire id S = .ok T) :
    Tallies known here quorum id origin T := by
  refine h.of_granted hfire ?_
  intro σ _ hsound reply hreply e hselect voter hvoter
  unfold Election.countVote at hselect
  simp only [Except.ok.injEq, Option.ite_none_right_eq_some, Option.some.injEq] at hselect
  obtain ⟨⟨haddr, hgranted⟩, rfl⟩ := hselect
  have hbacked := hsound.replies reply hreply hgranted
  rw [haddr] at hbacked
  rw [GrowSet.mem_singleton.1 hvoter]
  exact hbacked

theorem Tallies.declareVictory (hquorum : quorum ≤ majority (origin .peers).size)
    (hfire : (declareVictoryRule id scope).fire id S = .ok T) :
    Tallies known here quorum id origin T := by
  obtain ⟨σ, hσ, hsound, hcaught, hkeeps⟩ := h
  obtain ⟨entries, won, hentries, hadd, hT⟩ := hσ.exists_of_fire hfire
  have hmajority : ∀ e ∈ entries, ∃ votes, (σ .granted).get? e.key = some votes ∧
      quorum ≤ votes.size := by
    intro e he
    obtain ⟨⟨key, votes⟩, hvotes, hselect⟩ := (hσ.mem_selected hentries).1 he
    unfold Election.declareVictory at hselect
    obtain ⟨peers, hpeers, hselect⟩ := bind_eq_ok.1 hselect
    obtain rfl := Except.ok.inj ((hσ .peers).symm.trans hpeers)
    simp only [pure, Except.pure, Except.ok.injEq, Option.ite_none_left_eq_some,
      Option.some.injEq, Nat.not_lt, hkeeps.2] at hselect
    obtain ⟨hsize, rfl⟩ := hselect
    exact ⟨votes, StringMap.mem_tuples.1 hvotes, by omega⟩
  exact ⟨_, hT, hsound.update_won_of_addAll hadd hmajority, hcaught, hkeeps⟩

theorem Tallies.leadsCurrentTerm (hfire : (leadsCurrentTermRule id scope).fire id S = .ok T) :
    Tallies known here quorum id origin T := by
  obtain ⟨σ, hσ, hsound, hcaught, hkeeps⟩ := h
  obtain ⟨flags, isLeader, hflags, hadd, hT⟩ := hσ.exists_of_fire hfire
  refine ⟨_, hT, hsound.update_isLeader ?_, hcaught, hkeeps⟩
  intro hleads
  rcases (Flag.value_of_addAll hadd).1 hleads with hold | hnew
  · exact .inl hold
  · obtain ⟨_, _, ⟨⟩, _, hselect⟩ := (mem_selected hflags).1 hnew
    unfold Election.leadsCurrentTerm at hselect
    obtain ⟨_, hterm, hselect⟩ := bind_eq_ok.1 hselect
    obtain rfl := Except.ok.inj (hσ.currentTerm.symm.trans hterm)
    obtain ⟨won, hwon, hselect⟩ := bind_eq_ok.1 hselect
    obtain rfl := Except.ok.inj ((hσ .won).symm.trans hwon)
    simp only [pure, Except.pure, Except.ok.injEq, Option.some.injEq, Option.any_eq_true] at hselect
    obtain ⟨⟨_⟩, hwon, rfl⟩ := hselect
    -- the term cannot move any further, as the rules that follow messages came first
    exact .inr ⟨hwon, hcaught⟩

end Tallies

end Rules

end Ratchet.Election

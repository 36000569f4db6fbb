import Mathlib
import Ratchet.Proofs.Election.Clause

/-!
# One pass of a member

The first pass of a tick leaves every rule of the same tick closed, whatever the state it starts
from.

The rules that follow messages read the channels only, and no rule of the same tick writes those.
The rules that count and declare read what the rules before them have written for good.  Only the
three rules about votes stand in each other's way: two of them record votes, and all three look at
what is on record.  Both record a vote only where there is none, so what they ask for becomes less.
A candidate counts its own vote between the two, and misses what is recorded after that.  But such
a vote is for the current term, and had the member stood for election in that term, its own vote
would have been on record before.

## Main result

* `exists_closed_pass`: the first pass, and the clauses that describe it.
-/

namespace Ratchet.Election

theorem termKey_injective {s t : Int64} (h : termKey s = termKey t) : s = t :=
  Int64.toInt_inj.1 (Int.repr_injective h)

/-! ## The clauses of a member -/

/-- Messages from a later term move the member to that term. -/
def followClause (c : Cell) (termOf : c.type.Tuple → Int64) : Clause :=
  .plain c .term fun message => some (termOf message)

section Clauses

variable (here : String)

def voteForSelfClause : Clause :=
  .ofRows .campaigns .voted [.term, .voted]
    (fun σ term => if term = (σ .term).value ∧
        ((σ .voted).get? (termKey term)).map MaxText.value = none then
      some ⟨termKey term, ⟨here⟩⟩ else none)
    fun σ τ h => by rw [h .term (by decide), h .voted (by decide)]

def countOwnVoteClause : Clause :=
  .ofRows .campaigns .granted [.voted]
    (fun σ term => if ((σ .voted).get? (termKey term)).map MaxText.value = some here then
      some ⟨termKey term, .singleton here⟩ else none)
    fun σ τ h => by rw [h .voted (by decide)]

def recordVoteClause : Clause :=
  .ofRows .voteRequest .voted [.term, .voted]
    (fun σ request => if request.addr = here ∧ request.candidateTerm = (σ .term).value ∧
        ((σ .voted).get? (termKey request.candidateTerm)).map MaxText.value = none then
      some ⟨termKey request.candidateTerm, ⟨request.candidateAddr⟩⟩ else none)
    fun σ τ h => by rw [h .term (by decide), h .voted (by decide)]

def countVoteClause : Clause :=
  .plain .voteReply .granted (countVote here)

def declareVictoryClause : Clause :=
  .ofRows .granted .won [.peers]
    (fun σ votes => if votes.value.size < majority (σ .peers).size then none
      else some ⟨votes.key, ⟨true⟩⟩)
    fun σ τ h => by rw [h .peers (by decide)]

def recordOwnLeadClause : Clause :=
  .plain .won .leaders (recordOwnLead here)

def leadsCurrentTermClause : Clause where
  target := .isLeader
  reads := [.term, .won]
  facts σ := [((σ .won).get? (termKey (σ .term).value)).any Flag.value]
  facts_congr σ τ h := by rw [h .term (by decide), h .won (by decide)]

def recordLeaderClause : Clause :=
  .plain .appendRequest .leaders (recordLeader here)

/-- The clauses that follow messages into later terms. -/
def followClauses : List Clause :=
  [followClause .voteRequest VoteRequest.candidateTerm, followClause .voteReply VoteReply.term,
    followClause .appendRequest AppendRequest.leaderTerm]

/-- The clauses that read and write the votes on record. -/
def voteClauses : List Clause :=
  [voteForSelfClause here, countOwnVoteClause here, recordVoteClause here]

/-- The clauses that count votes and declare leaders. -/
def leadClauses : List Clause :=
  [countVoteClause here, declareVictoryClause, recordOwnLeadClause here, leadsCurrentTermClause,
    recordLeaderClause here]

/-- The clauses of the same tick in the order of their rules. -/
def sameTickClauses : List Clause := followClauses ++ (voteClauses here ++ leadClauses here)

end Clauses

variable {id : Nat} {here scope : String} {S : Store} {σ τ : State}

theorem describes_voteForSelf :
    Clause.Describes id (voteForSelfRule id here scope) (voteForSelfClause here) := by
  refine Clause.describes_ofRows fun S σ term hσ => ?_
  unfold voteForSelf
  rw [hσ.currentTerm, hσ.votedFor]
  rfl

theorem describes_countOwnVote :
    Clause.Describes id (countOwnVoteRule id here scope) (countOwnVoteClause here) := by
  refine Clause.describes_ofRows fun S σ term hσ => ?_
  unfold countOwnVote
  rw [hσ.votedFor]
  rfl

theorem describes_recordVote :
    Clause.Describes id (recordVoteRule id here scope) (recordVoteClause here) := by
  refine Clause.describes_ofRows fun S σ request hσ => ?_
  unfold recordVote
  rw [hσ.currentTerm, hσ.votedFor]
  rfl

theorem describes_declareVictory :
    Clause.Describes id (declareVictoryRule id scope) declareVictoryClause := by
  refine Clause.describes_ofRows fun S σ votes hσ => ?_
  unfold declareVictory
  have hpeers : (Facts.mk id S).get (memberOf id).peers = .ok (σ .peers) := hσ .peers
  rw [hpeers]
  rfl

theorem describes_leadsCurrentTerm :
    Clause.Describes id (leadsCurrentTermRule id scope) leadsCurrentTermClause := by
  refine Clause.describes_of_selected (k := leadsCurrentTermClause) fun S σ hσ => ?_
  have hrows : Source.unit.rows ⟨id, S⟩ = .ok [()] := rfl
  refine selected_of_forall (f := fun _ =>
    some (((σ .won).get? (termKey (σ .term).value)).any Flag.value)) hrows fun row => ?_
  unfold leadsCurrentTerm
  have hwon : (Facts.mk id S).get (memberOf id).won = .ok (σ .won) := hσ .won
  rw [hσ.currentTerm]
  simp only [bind, Except.bind, hwon]
  rfl

theorem describes_sameTickClauses :
    List.Forall₂ (Clause.Describes id) (followRules id scope ++ countRules id here scope)
      (sameTickClauses here) := by
  have hfollow : ∀ (c : Cell) (termOf : c.type.Tuple → Int64), Clause.Describes id
      (rule scope [c] .term .sameTick id (.of (Cell.handle id c))
        fun _ message => .ok (some (termOf message))) (followClause c termOf) :=
    fun _ _ => Clause.describes_plain
  have hcount : Clause.Describes id (countVoteRule id here scope) (countVoteClause here) :=
    Clause.describes_plain
  have hlead : Clause.Describes id (recordOwnLeadRule id here scope) (recordOwnLeadClause here) :=
    Clause.describes_plain
  have hleader : Clause.Describes id (recordLeaderRule id here scope) (recordLeaderClause here) :=
    Clause.describes_plain
  exact .cons (hfollow .voteRequest _) <| .cons (hfollow .voteReply _) <|
    .cons (hfollow .appendRequest _) <| .cons describes_voteForSelf <|
    .cons describes_countOwnVote <| .cons describes_recordVote <| .cons hcount <|
    .cons describes_declareVictory <| .cons hlead <| .cons describes_leadsCurrentTerm <|
    .cons hleader .nil

/-! ## Votes -/

section Votes

variable {e : MapEntry MaxText} {term : Int64}

theorem mem_voteForSelf : e ∈ (voteForSelfClause here).facts σ ↔
    (σ .term).value ∈ σ .campaigns ∧ (σ .voted).get? (termKey (σ .term).value) = none ∧
      e = ⟨termKey (σ .term).value, ⟨here⟩⟩ := by
  refine List.mem_filterMap.trans ?_
  simp only [Option.ite_none_right_eq_some, Option.map_eq_none_iff, Option.some.injEq]
  constructor
  · rintro ⟨_, hterm, ⟨rfl, hnone⟩, rfl⟩
    exact ⟨hterm, hnone, rfl⟩
  · rintro ⟨hterm, hnone, rfl⟩
    exact ⟨_, hterm, ⟨rfl, hnone⟩, rfl⟩

theorem mem_recordVote : e ∈ (recordVoteClause here).facts σ ↔
    (σ .voted).get? (termKey (σ .term).value) = none ∧ ∃ request ∈ σ .voteRequest,
      request.addr = here ∧ request.candidateTerm = (σ .term).value ∧
        e = ⟨termKey (σ .term).value, ⟨request.candidateAddr⟩⟩ := by
  refine List.mem_filterMap.trans ?_
  simp only [Option.ite_none_right_eq_some, Option.map_eq_none_iff, Option.some.injEq]
  constructor
  · rintro ⟨request, hrequest, ⟨haddr, hterm, hnone⟩, rfl⟩
    rw [hterm] at hnone ⊢
    exact ⟨hnone, request, hrequest, haddr, hterm, rfl⟩
  · rintro ⟨hnone, request, hrequest, haddr, hterm, rfl⟩
    rw [← hterm] at hnone ⊢
    exact ⟨request, hrequest, ⟨haddr, rfl, hnone⟩, rfl⟩

/-- With more votes on record a member votes for itself less. -/
theorem mem_voteForSelf_of_below (hterm : τ .term = σ .term)
    (hcampaigns : τ .campaigns = σ .campaigns) (hvoted : Lattice.Below (σ .voted) (τ .voted)) :
    ∀ e ∈ (voteForSelfClause here).facts τ, e ∈ (voteForSelfClause here).facts σ := by
  intro e he
  obtain ⟨hstands, hnone, rfl⟩ := mem_voteForSelf.1 he
  rw [hterm, hcampaigns] at hstands
  rw [hterm] at hnone ⊢
  exact mem_voteForSelf.2 ⟨hstands, StringMap.get?_eq_none_of_below hvoted hnone, rfl⟩

/-- With more votes on record a member votes for others less. -/
theorem mem_recordVote_of_below (hterm : τ .term = σ .term)
    (hrequests : τ .voteRequest = σ .voteRequest) (hvoted : Lattice.Below (σ .voted) (τ .voted)) :
    ∀ e ∈ (recordVoteClause here).facts τ, e ∈ (recordVoteClause here).facts σ := by
  intro e he
  obtain ⟨hnone, request, hrequest, haddr, hcurrent, rfl⟩ := mem_recordVote.1 he
  rw [hrequests] at hrequest
  rw [hterm] at hnone hcurrent ⊢
  exact mem_recordVote.2 ⟨StringMap.get?_eq_none_of_below hvoted hnone, request, hrequest, haddr,
    hcurrent, rfl⟩

/-- The votes that a member counts for itself depend on the terms that it stands for election in. -/
theorem countOwnVote_congr (hcampaigns : τ .campaigns = σ .campaigns)
    (hvoted : ∀ term ∈ σ .campaigns,
      (τ .voted).get? (termKey term) = (σ .voted).get? (termKey term)) :
    (countOwnVoteClause here).facts τ = (countOwnVoteClause here).facts σ := by
  change (τ .campaigns).elements.filterMap _ = (σ .campaigns).elements.filterMap _
  rw [hcampaigns]
  exact List.filterMap_congr fun term hterm => by
    dsimp only
    rw [hvoted term hterm]

/-- A member that stands for election in its term has voted in it. -/
theorem voted_of_voteForSelf (h : (voteForSelfClause here).Step σ τ)
    (hterm : (σ .term).value ∈ σ .campaigns) :
    ∃ vote, (τ .voted).get? (termKey (σ .term).value) = some vote := by
  cases hvote : (σ .voted).get? (termKey (σ .term).value) with
  | none => exact StringMap.exists_get?_of_addAll h.addAll (mem_voteForSelf.2 ⟨hterm, hvote, rfl⟩)
  | some vote =>
      obtain ⟨vote', hvote', _⟩ := StringMap.below_iff.1 (h.below .voted) _ _ hvote
      exact ⟨vote', hvote'⟩

/-- The votes that are recorded last are not in terms that the member stood for election in. -/
theorem get?_voted_of_recordVote (h : (recordVoteClause here).Step σ τ)
    (hvoted : (σ .term).value ∈ σ .campaigns →
      ∃ vote, (σ .voted).get? (termKey (σ .term).value) = some vote) (hterm : term ∈ σ .campaigns) :
    (τ .voted).get? (termKey term) = (σ .voted).get? (termKey term) := by
  refine StringMap.get?_of_addAll h.addAll ?_
  rintro e he hkey
  obtain ⟨hnone, _, _, _, _, rfl⟩ := mem_recordVote.1 he
  obtain rfl := termKey_injective hkey
  obtain ⟨vote, hvote⟩ := hvoted hterm
  cases hvote.symm.trans hnone

theorem done_of_voteClauses (h : Clause.Steps (voteClauses here) σ τ) :
    ∀ k ∈ voteClauses here, k.Done τ := by
  obtain ⟨υ, hself, ρ, hown, _, hrecord, rfl⟩ := h
  have hvoted : ρ .voted = υ .voted := hown.of_ne (c := .voted) nofun
  have hbelow : Lattice.Below (υ .voted) (τ .voted) := hvoted ▸ hrecord.below .voted
  have hlast : Clause.Steps [countOwnVoteClause here, recordVoteClause here] υ τ :=
    ⟨ρ, hown, τ, hrecord, rfl⟩
  have hall : Clause.Steps (voteClauses here) σ τ := ⟨υ, hself, hlast⟩
  simp only [voteClauses, List.forall_mem_cons]
  refine ⟨?_, ?_, ?_, nofun⟩
  · exact hself.done_of_subset hbelow (mem_voteForSelf_of_below (hall.of_spare rfl)
      (hall.of_spare rfl) ((hself.below .voted).trans hbelow))
  · refine hown.done_of_subset (hrecord.below .granted) (fun e he => ?_)
    -- a vote that came between would be in a term with a vote on record
    have hstood : (ρ .term).value ∈ ρ .campaigns →
        ∃ vote, (ρ .voted).get? (termKey (ρ .term).value) = some vote := by
      have hfirst : Clause.Steps [voteForSelfClause here, countOwnVoteClause here] σ ρ :=
        ⟨υ, hself, ρ, hown, rfl⟩
      have hterm : ρ .term = σ .term := hfirst.of_spare rfl
      have hcampaigns : ρ .campaigns = σ .campaigns := hfirst.of_spare rfl
      rw [hvoted, hterm, hcampaigns]
      exact voted_of_voteForSelf hself
    have hcampaigns : ρ .campaigns = υ .campaigns := hown.of_ne (c := .campaigns) nofun
    have hsame : (countOwnVoteClause here).facts τ = (countOwnVoteClause here).facts υ := by
      refine countOwnVote_congr (hlast.of_spare rfl) fun term hterm => ?_
      rw [← hcampaigns] at hterm
      rw [get?_voted_of_recordVote hrecord hstood hterm, hvoted]
    rw [← hsame]
    exact he
  · exact hrecord.done_of_subset (Lattice.below_refl _) (mem_recordVote_of_below
      (hrecord.of_ne (c := .term) nofun) (hrecord.of_ne (c := .voteRequest) nofun)
      (hrecord.below .voted))

end Votes

/-! ## The pass -/

theorem done_of_sameTickClauses (h : Clause.Steps (sameTickClauses here) σ τ) :
    ∀ k ∈ sameTickClauses here, k.Done τ := by
  obtain ⟨υ, hfollow, hrest⟩ := Clause.steps_append.1 h
  obtain ⟨ρ, hvote, hlead⟩ := Clause.steps_append.1 hrest
  have hfollowed : ∀ k ∈ followClauses, k.Done τ :=
    Clause.done_of_steps (Clause.done_of_layered rfl hfollow) hrest rfl
  have hvoted : ∀ k ∈ voteClauses here, k.Done τ :=
    Clause.done_of_steps (done_of_voteClauses hvote) hlead rfl
  have hled : ∀ k ∈ leadClauses here, k.Done τ := Clause.done_of_layered rfl hlead
  exact List.forall_mem_append.2 ⟨hfollowed, List.forall_mem_append.2 ⟨hvoted, hled⟩⟩

/-- The first pass leaves every rule of the same tick closed. -/
theorem exists_closed_pass (here scope : String) (hσ : Reads id S σ) :
    ∃ T changed τ, pass id (followRules id scope ++ countRules id here scope) S =
        .ok (T, changed) ∧ Reads id T τ ∧ Clause.Steps (sameTickClauses here) σ τ ∧
      ∀ r ∈ followRules id scope ++ countRules id here scope, r.Closed id T := by
  have hclauses : List.Forall₂ (Clause.Describes id)
      (followRules id scope ++ countRules id here scope) (sameTickClauses here) :=
    describes_sameTickClauses
  obtain ⟨T, changed, τ, hpass, hτ, hsteps⟩ := Clause.exists_steps_of_pass hclauses hσ
  exact ⟨T, changed, τ, hpass, hτ, hsteps,
    Clause.closed_of_done hclauses hτ (done_of_sameTickClauses hsteps)⟩

end Ratchet.Election

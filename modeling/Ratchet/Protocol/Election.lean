import Ratchet.Program.Setup

/-!
# Leader election

The election half of a consensus protocol.  Time is divided into terms.  A member that has not
heard from a leader for too long stands for election in the next term, and asks every peer for its
vote.  Each member votes for at most one candidate in a term.  A candidate with the votes of a
majority leads the term, and tells every peer so in every tick.

Elections are started from outside, by depositing an election timeout for the next tick.  Terms
are used as keys of maps in their decimal form.

## Main definitions

* `Election.Channels`, `Election.Member`: what members declare.
* The selectors of the rules, each under a name of its own.
-/

namespace Ratchet.Election

/-- The channels between members. -/
structure Channels where
  voteRequest : Handle (.set (.message .voteRequest))
  voteReply : Handle (.set (.message .voteReply))
  appendRequest : Handle (.set (.message .appendRequest))
  appendReply : Handle (.set (.message .appendReply))

/-- Declares the channels only. -/
def Channels.declare (scope : String) : Setup Channels := do
  let voteRequest ← Setup.channel (.message .voteRequest) (scope ++ "RaftVoteRequest")
  let voteReply ← Setup.channel (.message .voteReply) (scope ++ "RaftVoteResponse")
  let appendRequest ←
    Setup.channel (.message .appendRequest) (scope ++ "RaftAppendEntryRequest")
  let appendReply ← Setup.channel (.message .appendReply) (scope ++ "RaftAppendEntryResponse")
  return ⟨voteRequest, voteReply, appendRequest, appendReply⟩

/-- The relations of a member. -/
structure Member where
  channels : Channels
  /-- The addresses of the other members, deposited from outside. -/
  peers : Handle (.set .text)
  /-- Whether the member has waited too long for a leader, deposited from outside for one tick. -/
  electionTimeout : Handle .flag
  term : Handle .max
  /-- The terms in which the member stood for election. -/
  campaigns : Handle (.set .int)
  /-- The candidate that the member voted for, by term. -/
  voted : Handle (.map .maxText)
  /-- The members that voted for this one, by term. -/
  granted : Handle (.map (.set .text))
  won : Handle (.map .flag)
  /-- The leader that the member has heard from, by term. -/
  leaders : Handle (.map .maxText)
  /-- Whether the member leads the current term, for reading from outside. -/
  isLeader : Handle .flag

/-! ## Terms and votes -/

/-- The decimal form of a term. -/
def termKey (term : Int64) : String := toString term.toInt

/-- How many members a majority needs, given the number of peers of one of them. -/
def majority (peers : Nat) : Nat := (peers + 1) / 2 + 1

/-- The candidate that the member voted for in a term. -/
def votedFor (m : Member) (facts : Facts) (term : Int64) : Except Fault (Option String) := do
  return ((← facts.get m.voted).get? (termKey term)).map MaxText.value

/-- The current term. -/
def currentTerm (m : Member) (facts : Facts) : Except Fault Int64 := do
  return (← facts.get m.term).value

/-! ## Standing for election -/

/-- A timeout moves the member to the next term. -/
def advanceTerm (m : Member) (facts : Facts) (fired : Bool) : Except Fault (Option Int64) := do
  if fired then return some (← checkedAdd (← currentTerm m facts) 1) else return none

/-- A timeout makes the member stand for election in the next term. -/
def campaign (m : Member) (facts : Facts) (fired : Bool) : Except Fault (Option Int64) := do
  let next ← checkedAdd (← currentTerm m facts) 1
  return if fired then some next else none

/-- A candidate votes for itself, unless it has already voted in the term. -/
def voteForSelf (m : Member) (here : String) (facts : Facts) (term : Int64) :
    Except Fault (Option (MapEntry MaxText)) := do
  let current ← currentTerm m facts
  let vote ← votedFor m facts term
  return if term = current ∧ vote = none then some ⟨termKey term, ⟨here⟩⟩ else none

/-- The vote of a candidate for itself counts. -/
def countOwnVote (m : Member) (here : String) (facts : Facts) (term : Int64) :
    Except Fault (Option (MapEntry (GrowSet String))) := do
  let vote ← votedFor m facts term
  return if vote = some here then some ⟨termKey term, .singleton here⟩ else none

/-- A candidate asks a peer for its vote, as long as nobody is known to lead the current term. -/
def requestVote (m : Member) (here : String) (facts : Facts) (row : Int64 × String) :
    Except Fault (Option VoteRequest) := do
  let current ← currentTerm m facts
  let leaders ← facts.get m.leaders
  return if row.1 = current ∧ !leaders.contains (termKey row.1) then
      some ⟨row.2, row.1, here, 0, 0⟩
    else none

/-! ## Voting -/

/-- A member votes for a candidate of the current term, unless it has already voted in it.  Of
requests that arrive together the greatest candidate address wins. -/
def recordVote (m : Member) (here : String) (facts : Facts) (request : VoteRequest) :
    Except Fault (Option (MapEntry MaxText)) := do
  let current ← currentTerm m facts
  let vote ← votedFor m facts request.candidateTerm
  return if request.addr = here ∧ request.candidateTerm = current ∧ vote = none then
      some ⟨termKey request.candidateTerm, ⟨request.candidateAddr⟩⟩
    else none

/-- A request for a vote is granted to the candidate that the member voted for. -/
def answerVoteRequest (m : Member) (here : String) (facts : Facts) (request : VoteRequest) :
    Except Fault (Option VoteReply) := do
  if request.addr = here then
    let current ← currentTerm m facts
    let vote ← votedFor m facts current
    let isGranted := decide (request.candidateTerm = current ∧ vote = some request.candidateAddr)
    return some ⟨request.candidateAddr, here, current, isGranted⟩
  else return none

/-! ## Winning -/

/-- A vote that was granted to the member counts. -/
def countVote (here : String) (reply : VoteReply) : Option (MapEntry (GrowSet String)) :=
  if reply.addr = here ∧ reply.granted then
    some ⟨termKey reply.term, .singleton reply.senderAddr⟩
  else none

/-- A term with the votes of a majority is won. -/
def declareVictory (m : Member) (facts : Facts) (votes : MapEntry (GrowSet String)) :
    Except Fault (Option (MapEntry Flag)) := do
  let peers ← facts.get m.peers
  return if votes.value.size < majority peers.size then none else some ⟨votes.key, ⟨true⟩⟩

/-- The winner of a term leads it. -/
def recordOwnLead (here : String) (victory : MapEntry Flag) : Option (MapEntry MaxText) :=
  if victory.value.value then some ⟨victory.key, ⟨here⟩⟩ else none

/-- Whether the member has won the current term. -/
def leadsCurrentTerm (m : Member) (facts : Facts) : Except Fault (Option Bool) := do
  let current ← currentTerm m facts
  let won ← facts.get m.won
  return some ((won.get? (termKey current)).any Flag.value)

/-! ## Leading and following -/

/-- A leader tells a peer that it leads. -/
def announce (m : Member) (here : String) (facts : Facts) (row : Bool × String) :
    Except Fault (Option AppendRequest) := do
  if row.1 then return some ⟨row.2, ← currentTerm m facts, here, 0, 0, "", 0⟩ else return none

/-- A follower takes note of the leader that it hears from. -/
def recordLeader (here : String) (request : AppendRequest) : Option (MapEntry MaxText) :=
  if request.addr = here then some ⟨termKey request.leaderTerm, ⟨request.leaderAddr⟩⟩ else none

/-- A follower answers a leader; it follows one whose term is not behind its own. -/
def answerLeader (m : Member) (here : String) (facts : Facts) (request : AppendRequest) :
    Except Fault (Option AppendReply) := do
  if request.addr = here then
    let current ← currentTerm m facts
    return some ⟨request.leaderAddr, here, current, decide (current ≤ request.leaderTerm), 0⟩
  else return none

/-! ## Members -/

namespace Member

/-- Declares the relations of a member. -/
def declareRelations (scope : String) : Setup Member := do
  let channels ← Channels.declare scope
  let peers ← Setup.declare (.set .text) (scope ++ "raftPeers")
  Setup.mark .input peers
  let electionTimeout ← Setup.declare .flag (scope ++ "raftElectionTimeout")
  Setup.mark .scratch electionTimeout
  Setup.mark .input electionTimeout
  let term ← Setup.declare .max (scope ++ "raftTerm")
  let campaigns ← Setup.declare (.set .int) (scope ++ "raftCampaigns")
  let voted ← Setup.declare (.map .maxText) (scope ++ "raftVoted")
  let granted ← Setup.declare (.map (.set .text)) (scope ++ "raftGranted")
  let won ← Setup.declare (.map .flag) (scope ++ "raftWon")
  let leaders ← Setup.declare (.map .maxText) (scope ++ "raftLeaders")
  let isLeader ← Setup.declare .flag (scope ++ "RaftIsLeader")
  Setup.mark .scratch isLeader
  Setup.mark .output isLeader
  return ⟨channels, peers, electionTimeout, term, campaigns, voted, granted, won, leaders,
    isLeader⟩

/-- Adds the rules of a member at the address `here`. -/
def addRules (m : Member) (here : String) : Setup Unit := do
  -- a timeout starts a campaign for the next term
  Setup.join (.of m.electionTimeout) m.term .nextTick (advanceTerm m)
  Setup.join (.of m.electionTimeout) m.campaigns .nextTick (campaign m)
  -- a message from a later term moves the member to that term
  Setup.join (.of m.channels.voteRequest) m.term .sameTick fun _ request =>
    .ok (some request.candidateTerm)
  Setup.join (.of m.channels.voteReply) m.term .sameTick fun _ reply => .ok (some reply.term)
  Setup.join (.of m.channels.appendRequest) m.term .sameTick fun _ request =>
    .ok (some request.leaderTerm)
  -- candidates vote for themselves and ask their peers
  Setup.join (.of m.campaigns) m.voted .sameTick (voteForSelf m here)
  Setup.join (.of m.campaigns) m.granted .sameTick (countOwnVote m here)
  Setup.join (.product (.of m.campaigns) (.of m.peers)) m.channels.voteRequest .nextTick
    (requestVote m here)
  -- members vote at most once in a term
  Setup.join (.of m.channels.voteRequest) m.voted .sameTick (recordVote m here)
  Setup.join (.of m.channels.voteRequest) m.channels.voteReply .nextTick
    (answerVoteRequest m here)
  -- votes are counted, and a majority wins the term
  Setup.join (.of m.channels.voteReply) m.granted .sameTick fun _ reply =>
    .ok (countVote here reply)
  Setup.join (.of m.granted) m.won .sameTick (declareVictory m)
  Setup.join (.of m.won) m.leaders .sameTick fun _ victory => .ok (recordOwnLead here victory)
  Setup.join .unit m.isLeader .sameTick fun facts () => leadsCurrentTerm m facts
  -- leaders announce themselves in every tick, and followers answer
  Setup.join (.product (.of m.isLeader) (.of m.peers)) m.channels.appendRequest .nextTick
    (announce m here)
  Setup.join (.of m.channels.appendRequest) m.leaders .sameTick fun _ request =>
    .ok (recordLeader here request)
  Setup.join (.of m.channels.appendRequest) m.channels.appendReply .nextTick
    (answerLeader m here)

/-- Declares a member. -/
def declare (scope : String) : Setup Member := do
  let m ← declareRelations scope
  addRules m (← Setup.addr)
  return m

/-- The term that a member is in. -/
def termOf (m : Member) (p : Program) : Except Fault Int64 := currentTerm m p.facts

/-- Whether a member leads its current term. -/
def leads (m : Member) (p : Program) : Except Fault Bool := do
  return (← p.facts.get m.isLeader).value

/-- The leader that a member knows of for its current term. -/
def leader (m : Member) (p : Program) : Except Fault (Option String) := do
  let current ← currentTerm m p.facts
  return ((← p.facts.get m.leaders).get? (termKey current)).map MaxText.value

end Member

end Ratchet.Election

import Ratchet.Record

/-!
# Messages of a leader election

Candidates ask for votes and leaders announce themselves; both are answered.  The messages have
room for the entries of a replicated log, which elections leave empty.
-/

namespace Ratchet.Election

/-- Sent by a candidate to gather votes. -/
structure VoteRequest where
  addr : String
  candidateTerm : Int64
  candidateAddr : String
  /-- The term of the last entry in the candidate's log. -/
  lastLogTerm : Int64
  /-- The index of the last entry in the candidate's log. -/
  lastLogIndex : Int64

/-- The answer to a request for a vote. -/
structure VoteReply where
  addr : String
  senderAddr : String
  term : Int64
  granted : Bool

/-- Sent by a leader; without an entry it only says that the leader is there. -/
structure AppendRequest where
  addr : String
  leaderTerm : Int64
  leaderAddr : String
  /-- The term of the entry before the one that is sent. -/
  prevLogTerm : Int64
  /-- The index of the entry before the one that is sent. -/
  prevLogIndex : Int64
  /-- The entry that is sent, or the empty text. -/
  entry : String
  commitIndex : Int64

/-- The answer to a leader. -/
structure AppendReply where
  addr : String
  senderAddr : String
  term : Int64
  /-- Whether the answering member follows the leader. -/
  success : Bool
  /-- How far the answering member's log is settled. -/
  commitIndex : Int64

instance : Record VoteRequest where
  fields := [⟨"addr", .text⟩, ⟨"candidate_term", .int⟩, ⟨"candidate_addr", .text⟩,
    ⟨"last_log_term", .int⟩, ⟨"last_log_index", .int⟩]
  toRow a := (a.addr, a.candidateTerm, a.candidateAddr, a.lastLogTerm, a.lastLogIndex, ())
  ofRow := fun (addr, candidateTerm, candidateAddr, lastLogTerm, lastLogIndex, ()) =>
    ⟨addr, candidateTerm, candidateAddr, lastLogTerm, lastLogIndex⟩
  ofRow_toRow _ := rfl

instance : Record VoteReply where
  fields := [⟨"addr", .text⟩, ⟨"from_addr", .text⟩, ⟨"term", .int⟩, ⟨"vote_granted", .flag⟩]
  toRow a := (a.addr, a.senderAddr, a.term, a.granted, ())
  ofRow := fun (addr, senderAddr, term, granted, ()) => ⟨addr, senderAddr, term, granted⟩
  ofRow_toRow _ := rfl

instance : Record AppendRequest where
  fields := [⟨"addr", .text⟩, ⟨"leader_term", .int⟩, ⟨"leader_addr", .text⟩,
    ⟨"prev_log_term", .int⟩, ⟨"prev_log_index", .int⟩, ⟨"entry", .text⟩, ⟨"commit_index", .int⟩]
  toRow a := (a.addr, a.leaderTerm, a.leaderAddr, a.prevLogTerm, a.prevLogIndex, a.entry,
    a.commitIndex, ())
  ofRow := fun (addr, leaderTerm, leaderAddr, prevLogTerm, prevLogIndex, entry, commitIndex, ()) =>
    ⟨addr, leaderTerm, leaderAddr, prevLogTerm, prevLogIndex, entry, commitIndex⟩
  ofRow_toRow _ := rfl

instance : Record AppendReply where
  fields := [⟨"addr", .text⟩, ⟨"from_addr", .text⟩, ⟨"term", .int⟩, ⟨"success", .flag⟩,
    ⟨"commit_index", .int⟩]
  toRow a := (a.addr, a.senderAddr, a.term, a.success, a.commitIndex, ())
  ofRow := fun (addr, senderAddr, term, success, commitIndex, ()) =>
    ⟨addr, senderAddr, term, success, commitIndex⟩
  ofRow_toRow _ := rfl

instance : Element VoteRequest := Record.element VoteRequest

instance : Element VoteReply := Record.element VoteReply

instance : Element AppendRequest := Record.element AppendRequest

instance : Element AppendReply := Record.element AppendReply

instance : Codec VoteRequest := Record.codec VoteRequest

instance : Codec VoteReply := Record.codec VoteReply

instance : Codec AppendRequest := Record.codec AppendRequest

instance : Codec AppendReply := Record.codec AppendReply

end Ratchet.Election

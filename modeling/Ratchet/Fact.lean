import Ratchet.Fact.Election
import Ratchet.Fact.Graph
import Ratchet.Fact.KeyValue
import Ratchet.Fact.Vote

/-!
# The types of facts

The closed list of fact types that sets can hold.  Some of them are messages: facts that name the
address they are meant for.

## Main definitions

* `MessageType`, `Message`: the types of messages, and messages of any type.
* `FactType`: the types of facts.
-/

namespace Ratchet

/-- The types of messages. -/
inductive MessageType where
  | quorumVote
  | quorumResult
  | put
  | putReply
  | get
  | getReply
  | snapshotRequest
  | snapshot
  | voteRequest
  | voteReply
  | appendRequest
  | appendReply
  deriving DecidableEq

namespace MessageType

/-- The messages of a type. -/
@[reducible]
def Carrier : MessageType → Type
  | quorumVote => QuorumVote
  | quorumResult => QuorumResult
  | put => KeyValue.Put
  | putReply => KeyValue.PutReply
  | get => KeyValue.Get
  | getReply => KeyValue.GetReply
  | snapshotRequest => KeyValue.SnapshotRequest
  | snapshot => KeyValue.Snapshot
  | voteRequest => Election.VoteRequest
  | voteReply => Election.VoteReply
  | appendRequest => Election.AppendRequest
  | appendReply => Election.AppendReply

instance : (m : MessageType) → Record m.Carrier
  | quorumVote => inferInstanceAs (Record QuorumVote)
  | quorumResult => inferInstanceAs (Record QuorumResult)
  | put => inferInstanceAs (Record KeyValue.Put)
  | putReply => inferInstanceAs (Record KeyValue.PutReply)
  | get => inferInstanceAs (Record KeyValue.Get)
  | getReply => inferInstanceAs (Record KeyValue.GetReply)
  | snapshotRequest => inferInstanceAs (Record KeyValue.SnapshotRequest)
  | snapshot => inferInstanceAs (Record KeyValue.Snapshot)
  | voteRequest => inferInstanceAs (Record Election.VoteRequest)
  | voteReply => inferInstanceAs (Record Election.VoteReply)
  | appendRequest => inferInstanceAs (Record Election.AppendRequest)
  | appendReply => inferInstanceAs (Record Election.AppendReply)

instance (m : MessageType) : Element m.Carrier := Record.element m.Carrier

instance (m : MessageType) : Codec m.Carrier := Record.codec m.Carrier

/-- The address that a message is meant for. -/
def addr : (m : MessageType) → m.Carrier → String
  | quorumVote, a => a.addr
  | quorumResult, a => a.addr
  | put, a => a.addr
  | putReply, a => a.addr
  | get, a => a.addr
  | getReply, a => a.addr
  | snapshotRequest, a => a.addr
  | snapshot, a => a.addr
  | voteRequest, a => a.addr
  | voteReply, a => a.addr
  | appendRequest, a => a.addr
  | appendReply, a => a.addr

/-- The name of a message type. -/
def name : MessageType → String
  | quorumVote => "QuorumVote"
  | quorumResult => "QuorumResult"
  | put => "KvPut"
  | putReply => "KvPutResponse"
  | get => "KvGet"
  | getReply => "KvGetResponse"
  | snapshotRequest => "KvReplReq"
  | snapshot => "KvReplMap"
  | voteRequest => "RaftVoteRequest"
  | voteReply => "RaftVoteResponse"
  | appendRequest => "RaftAppendEntryRequest"
  | appendReply => "RaftAppendEntryResponse"

/-- All message types. -/
def all : List MessageType :=
  [quorumVote, quorumResult, put, putReply, get, getReply, snapshotRequest, snapshot,
    voteRequest, voteReply, appendRequest, appendReply]

end MessageType

/-- The types of facts that a set can hold. -/
inductive FactType where
  | int
  | text
  | intPair
  | textInt
  | dynamic
  | link
  | path
  | raceVote
  | message (type : MessageType)
  deriving DecidableEq

namespace FactType

/-- The facts of a type. -/
@[reducible]
def Carrier : FactType → Type
  | int => Int64
  | text => String
  | intPair => Int64 × Int64
  | textInt => String × Int64
  | dynamic => Dynamic
  | link => Link
  | path => Path
  | raceVote => RaceVote
  | message m => m.Carrier

instance : (t : FactType) → Element t.Carrier
  | int => inferInstanceAs (Element Int64)
  | text => inferInstanceAs (Element String)
  | intPair => inferInstanceAs (Element (Int64 × Int64))
  | textInt => inferInstanceAs (Element (String × Int64))
  | dynamic => inferInstanceAs (Element Dynamic)
  | link => inferInstanceAs (Element Link)
  | path => inferInstanceAs (Element Path)
  | raceVote => inferInstanceAs (Element RaceVote)
  | message m => inferInstanceAs (Element m.Carrier)

instance : (t : FactType) → Codec t.Carrier
  | int => inferInstanceAs (Codec Int64)
  | text => inferInstanceAs (Codec String)
  | intPair => inferInstanceAs (Codec (Int64 × Int64))
  | textInt => inferInstanceAs (Codec (String × Int64))
  | dynamic => inferInstanceAs (Codec Dynamic)
  | link => inferInstanceAs (Codec Link)
  | path => inferInstanceAs (Codec Path)
  | raceVote => inferInstanceAs (Codec RaceVote)
  | message m => inferInstanceAs (Codec m.Carrier)

/-- The name of a fact type in the names of relation types. -/
def name : FactType → String
  | int => "int"
  | text => "str"
  | intPair => "pair"
  | textInt => "strint"
  | dynamic => "value"
  | link => "Link"
  | path => "Path"
  | raceVote => "MultiTallyVote"
  | message m => m.name

/-- All fact types. -/
def all : List FactType :=
  [int, text, intPair, textInt, dynamic, link, path, raceVote] ++ MessageType.all.map message

end FactType

end Ratchet

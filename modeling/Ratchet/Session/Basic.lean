import Ratchet.Cluster
import Ratchet.Protocol.AddressedQuorum
import Ratchet.Protocol.Election
import Ratchet.Protocol.KeyValue
import Ratchet.Protocol.RaceTally
import Ratchet.Protocol.Threshold
import Ratchet.Protocol.ShortestPath

/-!
# Sessions

A session keeps programs under labels, a cluster, and protocols under names, and carries out one
request after another.  A program that was moved into the cluster is found under its address.

A request can be refused, which leaves the session to go on; or it can meet a fault, which ends
the session.

## Main definitions

* `Session`, `Session.Step`: sessions and the requests on them.
* `Session.Ref`, `Session.resolve`: relations by name.
* The requests on single programs.
-/

namespace Ratchet

/-- A protocol that was declared on a program. -/
inductive Service where
  | threshold (count : Threshold)
  | raceTally (count : RaceTally)
  | addressedQuorum (quorum : AddressedQuorum)
  | shortestPath (search : ShortestPath)
  | replica (replica : KeyValue.Replica)
  | member (member : Election.Member)
  | channels

/-- The state of a session. -/
structure Session where
  /-- The programs that are not in the cluster, by their labels. -/
  free : StringMap Program
  cluster : Cluster
  services : StringMap Service
  created : Nat

/-- The reasons for which a request is refused. -/
inductive Refusal where
  | program (error : ProgramError)
  | cluster (error : ClusterError)

namespace Refusal

/-- The name of the kind of refusal. -/
def kind : Refusal → String
  | program e => e.kind
  | cluster e => e.kind

/-- The wording of a refusal. -/
def message : Refusal → String
  | program e => e.message
  | cluster e => e.message

end Refusal

namespace Session

/-- A session in which nothing has happened. -/
def start : Session where
  free := .empty
  cluster := .create .reliable
  services := .empty
  created := 0

/-- A request: it may change the session, be refused, or meet a fault. -/
abbrev Step := ExceptT Refusal (StateT Session (Except Fault))

/-- The outcome of a request. -/
def Step.runOn {α : Type} (request : Step α) (s : Session) :
    Except Fault (Except Refusal α × Session) :=
  (request.run).run s

/-- How many passes an unbounded tick is given. -/
def patience : Nat := UInt64.size

/-- A result that a fault may take the place of. -/
def orFault {α : Type} (result : Except Fault α) : Step α :=
  ExceptT.lift (StateT.lift result)

/-- A result that a program may refuse. -/
def orRefuse {α : Type} : Except ProgramError α → Step α
  | .ok a => return a
  | .error e => throw (.program e)

/-! ## Programs by label -/

/-- The program with a label, or else the one on the node with that address. -/
def program? (s : Session) (label : String) : Option Program :=
  match s.free.get? label with
  | some p => some p
  | none => s.cluster.nodes.get? label

/-- The session with a program replaced. -/
def putProgram (s : Session) (label : String) (p : Program) : Session :=
  if s.free.contains label then { s with free := s.free.put label p }
  else { s with cluster := { s.cluster with nodes := s.cluster.nodes.put p } }

/-- The program with a label. -/
def program (label : String) : Step Program := do
  match (← get).program? label with
  | some p => return p
  | none => throw (.cluster (.unknownNode label))

/-- Replaces the program with a label. -/
def setProgram (label : String) (p : Program) : Step Unit :=
  modify fun s => s.putProgram label p

/-- A relation by name, in the program that a request is about or in another one. -/
structure Ref (t : RelationType) where
  name : String
  /-- The label of the program, if it is another one. -/
  owner : Option String

/-- The handle of a relation that a request on a program refers to. -/
def resolve {t : RelationType} (label : String) (r : Ref t) : Step (Handle t) := do
  let p ← program (r.owner.getD label)
  orRefuse (p.relation t r.name)

/-! ## Requests on programs -/

/-- Creates a program; it takes the place of a free program with the same label. -/
def create (label addr : String) (passLimit : Option Nat) : Step Program := do
  let s ← get
  let p := Program.create s.created addr passLimit
  set { s with free := s.free.put label p, created := s.created + 1 }
  return p

/-- Changes a program, unless there is a fault. -/
def changeOrFault {α : Type} (label : String)
    (change : Program → Except Fault (Program × α)) : Step α := do
  let (p, a) ← orFault (change (← program label))
  setProgram label p
  return a

/-- Runs a script on a program; what it declared before a refusal stays. -/
def setUp {α : Type} (label : String) (script : Setup α) : Step α := do
  let (result, p) := script.runOn (← program label)
  setProgram label p
  orRefuse result

/-- Declares a relation. -/
def declare (label : String) (t : RelationType) (name : String) : Step Unit :=
  setUp label do discard (Setup.declare t name)

/-- Declares a channel. -/
def declareChannel (label : String) (facts : FactType) (name : String) : Step Unit :=
  setUp label do discard (Setup.channel facts name)

/-- Reads a program. -/
def read {α : Type} (label : String) (view : Program → Except Fault α) : Step α := do
  orFault (view (← program label))

variable {t : RelationType}

/-- Sets a mark on a relation. -/
def mark (label : String) (r : Ref t) (m : Mark) : Step Unit := do
  let h ← resolve label r
  setUp label (Setup.mark m h)

/-- What is known about a relation. -/
def describe (label : String) (r : Ref t) : Step Slot := do
  let h ← resolve label r
  orRefuse ((← program label).slotOf h)

/-- Adds a fact at once. -/
def add (label : String) (r : Ref t) (tuple : t.Tuple) : Step Bool := do
  let h ← resolve label r
  changeOrFault label fun p => p.add h tuple

/-- Merges a whole relation at once. -/
def merge (label : String) (r : Ref t) (value : t.Value) : Step Bool := do
  let h ← resolve label r
  changeOrFault label fun p => p.merge h value

/-- Queues a fact, and gives the number of waiting deposits. -/
def addNext (label : String) (r : Ref t) (tuple : t.Tuple) : Step Nat := do
  let h ← resolve label r
  changeOrFault label fun p => do
    let p ← p.addNext h tuple
    return (p, p.pending.length)

/-- Queues a whole relation, and gives the number of waiting deposits. -/
def mergeNext (label : String) (r : Ref t) (value : t.Value) : Step Nat := do
  let h ← resolve label r
  changeOrFault label fun p => do
    let p ← p.mergeNext h value
    return (p, p.pending.length)

/-- The value of a relation, where reading a foreign one is a fault. -/
def getValue (label : String) (r : Ref t) : Step t.Value := do
  let h ← resolve label r
  read label fun p => p.facts.get h

/-- The value of a relation, where reading a foreign one is refused. -/
def tryGetValue (label : String) (r : Ref t) : Step t.Value := do
  let h ← resolve label r
  orRefuse ((← program label).facts.tryGet h)

/-- The tuples of a relation. -/
def tuples (label : String) (r : Ref t) : Step (List t.Tuple) := do
  let h ← resolve label r
  read label fun p => p.facts.tuples h

/-- Whether two references lead to equal handles, and whether they lead to one relation. -/
def same {u : RelationType} (label : String) (a : Ref t) (b : Ref u) : Step (Bool × Bool) := do
  let g ← resolve label a
  let h ← resolve label b
  let sameRelation := decide (g.id = h.id)
  return (decide (t = u) && sameRelation, sameRelation)

/-- Ticks a program. -/
def tick (label : String) : Step (Except ProgramError TickReport × Program) := do
  let (p, result) ← orFault ((← program label).tick patience)
  setProgram label p
  return (result, p)

/-! ## Protocols -/

/-- Declares a protocol, and remembers it under a name if one is given. -/
def declareService (label : String) (name : Option String) (script : Setup Service) :
    Step Unit := do
  let service ← setUp label script
  if let some name := name then
    modify fun s => { s with services := s.services.put name service }

/-! ## The cluster -/

/-- Starts over with an empty cluster. -/
def newCluster (config : Network.Config) : Step Unit :=
  modify fun s => { s with cluster := .create config }

/-- Moves a free program into the cluster.  If its address is taken there, the program is gone. -/
def addNode (label : String) : Step Unit := do
  let s ← get
  match s.free.get? label with
  | none => throw (.cluster (.unknownNode label))
  | some p =>
    set { s with free := s.free.erase label }
    match s.cluster.addNode p with
    | .ok c => modify fun s => { s with cluster := c }
    | .error e => throw (.cluster e)

/-- Routes a channel. -/
def route (r : Route) : Step Unit :=
  modify fun s => { s with cluster := s.cluster.route r }

/-- Runs a request on the cluster. -/
def onCluster {α : Type} (request : Cluster → Except Fault (Cluster × α)) : Step α := do
  let s ← get
  let (c, a) ← orFault (request s.cluster)
  set { s with cluster := c }
  return a

/-- Puts the messages that the network lost back in flight. -/
def retransmitLost : Step Unit :=
  modify fun s => { s with cluster := s.cluster.retransmitLost }

/-- What the relation of a node is waited for to be. -/
inductive Goal (t : RelationType) where
  | atLeast (count : Nat)
  | equals (value : t.Value)

/-- Whether a relation has become what it is waited for to be. -/
def Goal.isMet {t : RelationType} (value : t.Value) : Goal t → Bool
  | .atLeast count => decide (count ≤ (Relation.tuples value).length)
  | .equals target => decide (value = target)

/-- Whether the named relation of a node is there and has become what it is waited for to be. -/
def goalReached (addr : String) (name : String) (goal : Goal t) (c : Cluster) : Bool :=
  match c.nodes.get? addr with
  | none => false
  | some p =>
    match (p.relation t name).bind p.facts.tryGet with
    | .ok value => goal.isMet value
    | .error _ => false

end Session

end Ratchet

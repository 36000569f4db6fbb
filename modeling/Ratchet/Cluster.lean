import Ratchet.Cluster.Nodes
import Ratchet.Network

/-!
# Clusters

A cluster runs programs on nodes that are connected by an unreliable network.  In a step every
node ticks once, in the order of the addresses.  Then the messages in the routed channels are
handed to the network, and what the network lets through is queued at the nodes it is addressed
to, where it becomes visible in the next step.

A message that is addressed to the node it stands on stays there.

A step that fails stops where it is: nodes that have ticked stay ticked, messages in the network
stay there, and the step does not count.

## Main definitions

* `Cluster`, `Cluster.addNode`, `Cluster.route`.
* `Cluster.step`, `Cluster.run`, `Cluster.runUntil`.
-/

namespace Ratchet

/-- A message on its way from one node to another. -/
structure Envelope where
  /-- The address of the node that the message comes from. -/
  sender : String
  target : String
  /-- The channel that carries the message, at both ends. -/
  channel : String
  type : MessageType
  message : type.Carrier

/-- A one-line summary of a message. -/
def Envelope.summary (e : Envelope) : String :=
  let sender := Program.quoteText e.sender
  let target := Program.quoteText e.target
  let channel := Program.quoteText e.channel
  "Envelope \x7b " ++ s!"from: {sender}, to: {target}, channel: {channel}" ++ " \x7d"

/-- A channel whose messages travel between nodes. -/
structure Route where
  channel : String
  type : MessageType

/-- The reasons for which a cluster refuses a request. -/
inductive ClusterError where
  /-- No node has the address. -/
  | unknownNode (addr : String)
  | duplicateNode (addr : String)
  | program (error : ProgramError)
  deriving DecidableEq

namespace ClusterError

/-- The name of the kind of error. -/
def kind : ClusterError → String
  | unknownNode _ => "UnknownNode"
  | duplicateNode _ => "DuplicateNode"
  | program e => "Runtime/" ++ e.kind

/-- The wording of an error. -/
def message : ClusterError → String
  | unknownNode addr => s!"Node not found: {addr}"
  | duplicateNode addr => s!"Node already exists: {addr}"
  | program e => "Runtime error: " ++ e.message

end ClusterError

/-- What a step did. -/
structure StepReport where
  /-- The number of the step, counted from zero. -/
  step : Nat
  /-- How many messages were handed to the network. -/
  sent : Nat
  /-- How many messages were queued at their target. -/
  delivered : Nat
  /-- How many messages were addressed to no node of the cluster. -/
  undeliverable : Nat
  deriving DecidableEq

/-- Programs connected by a network. -/
structure Cluster where
  nodes : Nodes
  /-- The routed channels in the order in which they were declared. -/
  routes : List Route
  network : Network Envelope
  steps : Nat

namespace Cluster

/-- A cluster without nodes. -/
def create (config : Network.Config) : Cluster where
  nodes := .empty
  routes := []
  network := .ofConfig config
  steps := 0

/-- Adds a node that runs a program, under the address of the program. -/
def addNode (c : Cluster) (p : Program) : Except ClusterError Cluster :=
  match c.nodes.get? p.addr with
  | some _ => .error (.duplicateNode p.addr)
  | none => .ok { c with nodes := c.nodes.put p }

/-- Routes the messages of a channel on every node.  Nodes without such a channel take no part. -/
def route (c : Cluster) (r : Route) : Cluster := { c with routes := c.routes ++ [r] }

/-- The program at an address. -/
def node (c : Cluster) (addr : String) : Except ClusterError Program :=
  match c.nodes.get? addr with
  | some p => .ok p
  | none => .error (.unknownNode addr)

/-! ## Steps -/

/-- Ticks programs in turn and puts them back on their nodes, up to the first one that fails. -/
def tickNodes (patience : Nat) : List Program → Nodes →
    Except Fault (Nodes × Option ProgramError)
  | [], nodes => .ok (nodes, none)
  | p :: rest, nodes => do
    let (p, result) ← p.tick patience
    match result with
    | .ok _ => tickNodes patience rest (nodes.put p)
    | .error e => return (nodes.put p, some e)

/-- The messages of a routed channel that are meant for other nodes. -/
def outbound (p : Program) (r : Route) : Except ProgramError (List Envelope) :=
  match p.relation (.set (.message r.type)) r.channel with
  | .ok h => do
    let messages ← p.facts.tryGet h
    let leaving := messages.elements.filter fun m => r.type.addr m != p.addr
    return leaving.map fun m => ⟨p.addr, r.type.addr m, r.channel, r.type, m⟩
  | .error (.unknownRelation _) => .ok []
  | .error e => .error e

/-- Hands the messages of routed channels to the network, up to the first channel that is refused.
The count is that of the messages handed over. -/
def collect : List (Program × Route) → Network Envelope → Nat →
    Network Envelope × Nat × Option ProgramError
  | [], network, sent => (network, sent, none)
  | (p, r) :: rest, network, sent =>
    match outbound p r with
    | .ok envelopes => collect rest (network.sendAll envelopes) (sent + envelopes.length)
    | .error e => (network, sent, some e)

/-- Queues a message at a program. -/
def receive (p : Program) (e : Envelope) : Except Fault (Except ProgramError Program) :=
  match p.relation (.set (.message e.type)) e.channel with
  | .ok h => .ok <$> p.send h e.message
  | .error err => .ok (.error err)

/-- How far the delivery of messages got. -/
structure Delivery where
  nodes : Nodes
  rest : List Envelope
  /-- How many messages were queued at their target. -/
  delivered : Nat
  undeliverable : Nat
  /-- The refusal that ended the delivery, if there was one. -/
  error : Option ProgramError

/-- Delivers messages in turn, up to the first one that is refused. -/
def deliver : List Envelope → Nodes → (delivered undeliverable : Nat) →
    Except Fault Delivery
  | [], nodes, delivered, undeliverable => .ok ⟨nodes, [], delivered, undeliverable, none⟩
  | e :: rest, nodes, delivered, undeliverable =>
    match nodes.get? e.target with
    | none => deliver rest nodes delivered (undeliverable + 1)
    | some p => do
      match ← receive p e with
      | .ok p => deliver rest (nodes.put p) (delivered + 1) undeliverable
      | .error err => return ⟨nodes, rest, delivered, undeliverable, some err⟩

/-- Runs one step. -/
def step (patience : Nat) (c : Cluster) :
    Except Fault (Cluster × Except ClusterError StepReport) := do
  let (nodes, error) ← tickNodes patience c.nodes.programs c.nodes
  let c := { c with nodes := nodes }
  if let some e := error then return (c, .error (.program e))
  let outboxes := c.nodes.programs.flatMap fun p => c.routes.map fun r => (p, r)
  let (network, sent, error) := collect outboxes c.network 0
  let c := { c with network := network }
  if let some e := error then return (c, .error (.program e))
  let (envelopes, network) := c.network.receiveAll
  let delivery ← deliver envelopes c.nodes 0 0
  let c := { c with
    nodes := delivery.nodes
    network := { network with inFlight := delivery.rest } }
  if let some e := delivery.error then return (c, .error (.program e))
  return ({ c with steps := c.steps + 1 },
    .ok ⟨c.steps, sent, delivery.delivered, delivery.undeliverable⟩)

/-- Runs a number of steps, up to the first one that fails. -/
def run (patience : Nat) : Nat → Cluster → Except Fault (Cluster × Except ClusterError Unit)
  | 0, c => .ok (c, .ok ())
  | n + 1, c => do
    match ← c.step patience with
    | (c, .ok _) => run patience n c
    | (c, .error e) => return (c, .error e)

/-- Runs steps until a condition holds, at most `limit` of them after `taken` earlier ones.  The
result is the number of steps taken, or `none` if the condition never held. -/
def runUntil (patience : Nat) (done : Cluster → Bool) : (limit taken : Nat) → Cluster →
    Except Fault (Cluster × Except ClusterError (Option Nat))
  | 0, taken, c => .ok (c, .ok (if done c then some taken else none))
  | limit + 1, taken, c =>
    if done c then .ok (c, .ok (some taken))
    else do
      match ← c.step patience with
      | (c, .ok _) => runUntil patience done limit (taken + 1) c
      | (c, .error e) => return (c, .error e)

/-- Puts the messages that the network lost back in flight. -/
def retransmitLost (c : Cluster) : Cluster := { c with network := c.network.retransmitLost }

/-! ## Introspection -/

/-- A one-line summary of a cluster. -/
def summary (c : Cluster) : String :=
  let nodes := Program.quoteAll c.nodes.addrs
  let routes := Program.quoteAll (c.routes.map Route.channel)
  "Cluster \x7b " ++ s!"nodes: {nodes}, routes: {routes}, steps: {c.steps}" ++ " \x7d"

/-- The messages in flight and the messages that were lost, in one line each. -/
def queues (c : Cluster) : String :=
  let list (es : List Envelope) := "[" ++ ", ".intercalate (es.map Envelope.summary) ++ "]"
  let inFlight := list c.network.inFlight
  let lost := list c.network.lost
  "NetworkSimulator \x7b " ++ s!"in_flight: {inFlight}, lost: {lost}"

end Cluster

end Ratchet

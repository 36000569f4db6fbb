import Ratchet.Cluster
import Ratchet.Cluster.Nodes
import Ratchet.Codec.Basic
import Ratchet.Codec.Lattice
import Ratchet.Element
import Ratchet.Fact
import Ratchet.Fact.Election
import Ratchet.Fact.Graph
import Ratchet.Fact.KeyValue
import Ratchet.Fact.Vote
import Ratchet.Json.Basic
import Ratchet.Json.Number
import Ratchet.Json.Token
import Ratchet.Lattice.Basic
import Ratchet.Lattice.Dynamic
import Ratchet.Lattice.Dynamic.Tree
import Ratchet.Lattice.GrowSet
import Ratchet.Lattice.Register
import Ratchet.Lattice.StringMap
import Ratchet.Network
import Ratchet.Network.Draw
import Ratchet.Network.Rate
import Ratchet.Program.Basic
import Ratchet.Program.Fault
import Ratchet.Program.Rule
import Ratchet.Program.Setup
import Ratchet.Program.Store
import Ratchet.Program.Tick
import Ratchet.Protocol.AddressedQuorum
import Ratchet.Protocol.Election
import Ratchet.Protocol.KeyValue
import Ratchet.Protocol.RaceTally
import Ratchet.Protocol.ShortestPath
import Ratchet.Protocol.Threshold
import Ratchet.Record
import Ratchet.RelationType
import Ratchet.Session.Basic
import Ratchet.Session.Question
import Ratchet.Session.Wiring
import Ratchet.Proofs.Except
import Ratchet.Proofs.Lattice.Ascending
import Ratchet.Proofs.Lattice.Clash
import Ratchet.Proofs.Lattice.Comparison
import Ratchet.Proofs.Lattice.Conflict
import Ratchet.Proofs.Lattice.Dynamic
import Ratchet.Proofs.Lattice.Exactness
import Ratchet.Proofs.Lattice.GrowSet
import Ratchet.Proofs.Lattice.InPlace
import Ratchet.Proofs.Lattice.JoinAll
import Ratchet.Proofs.Lattice.Lawful
import Ratchet.Proofs.Lattice.Ordered
import Ratchet.Proofs.Lattice.Path
import Ratchet.Proofs.Lattice.Piecewise
import Ratchet.Proofs.Lattice.Register
import Ratchet.Proofs.Lattice.StringMap
import Ratchet.Proofs.Fact.Comparison
import Ratchet.Proofs.Json.Number
import Ratchet.Proofs.Json.Parse
import Ratchet.Proofs.Json.Token
import Ratchet.Proofs.Codec.Lawful
import Ratchet.Proofs.Codec.RoundTrip
import Ratchet.Proofs.Program.Access
import Ratchet.Proofs.Program.Batching
import Ratchet.Proofs.Program.Bottom
import Ratchet.Proofs.Program.Bounded
import Ratchet.Proofs.Program.Copying
import Ratchet.Proofs.Program.Derived
import Ratchet.Proofs.Program.Fault
import Ratchet.Proofs.Program.Finite
import Ratchet.Proofs.Program.Fixpoint
import Ratchet.Proofs.Program.Growth
import Ratchet.Proofs.Program.Immediate
import Ratchet.Proofs.Program.Lasting
import Ratchet.Proofs.Program.Layout
import Ratchet.Proofs.Program.Mail
import Ratchet.Proofs.Program.Order
import Ratchet.Proofs.Program.Parts
import Ratchet.Proofs.Program.Queue
import Ratchet.Proofs.Program.Quiescence
import Ratchet.Proofs.Program.Registry
import Ratchet.Proofs.Program.Requests
import Ratchet.Proofs.Program.Retry
import Ratchet.Proofs.Program.RuleOrder
import Ratchet.Proofs.Program.Run
import Ratchet.Proofs.Program.Scratch
import Ratchet.Proofs.Program.Setup
import Ratchet.Proofs.Program.SideBySide
import Ratchet.Proofs.Program.Stages
import Ratchet.Proofs.Program.Total
import Ratchet.Proofs.Network.Balance
import Ratchet.Proofs.Network.InOrder
import Ratchet.Proofs.Cluster.Delivery
import Ratchet.Proofs.Cluster.Events
import Ratchet.Proofs.Cluster.ExactDelivery
import Ratchet.Proofs.Cluster.FailedStep
import Ratchet.Proofs.Cluster.Fates
import Ratchet.Proofs.Cluster.LossFree
import Ratchet.Proofs.Cluster.Steps
import Ratchet.Proofs.KeyValue.Batch
import Ratchet.Proofs.KeyValue.Convergence
import Ratchet.Proofs.KeyValue.Durability
import Ratchet.Proofs.KeyValue.Exchange
import Ratchet.Proofs.KeyValue.Fold
import Ratchet.Proofs.KeyValue.History
import Ratchet.Proofs.KeyValue.Refolding
import Ratchet.Proofs.KeyValue.Replica
import Ratchet.Proofs.KeyValue.Settling
import Ratchet.Proofs.KeyValue.World
import Ratchet.Proofs.Election.Agreement
import Ratchet.Proofs.Election.Clause
import Ratchet.Proofs.Election.Leaders
import Ratchet.Proofs.Election.Member
import Ratchet.Proofs.Election.OnePass
import Ratchet.Proofs.Election.Overflow
import Ratchet.Proofs.Election.Safety
import Ratchet.Proofs.Election.SingleVote
import Ratchet.Proofs.Election.TermBound
import Ratchet.Proofs.Election.Tick
import Ratchet.Proofs.Election.TwoPasses
import Ratchet.Proofs.Election.Votes
import Ratchet.Proofs.Election.World
import Ratchet.Proofs.Quorum.Counting
import Ratchet.Proofs.Quorum.Results
import Ratchet.Proofs.Threshold.Calls
import Ratchet.Proofs.Threshold.Counting
import Ratchet.Proofs.Threshold.Races
import Ratchet.Proofs.ShortestPath.Chain
import Ratchet.Proofs.ShortestPath.Cycle
import Ratchet.Proofs.ShortestPath.Search
import Ratchet.Proofs.ShortestPath.Termination

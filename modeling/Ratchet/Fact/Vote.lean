import Ratchet.Record

/-!
# Votes

Votes in a race, votes that are sent to the place where a quorum is counted, and the news that
the quorum was reached.
-/

namespace Ratchet

/-- A vote in one of several races. -/
structure RaceVote where
  race : String
  voter : String

/-- A vote for the quorum that is counted at an address. -/
structure QuorumVote where
  addr : String
  voter : String

/-- The news that a quorum was reached. -/
structure QuorumResult where
  addr : String

instance : Record RaceVote where
  fields := [⟨"race", .text⟩, ⟨"voter", .text⟩]
  toRow a := (a.race, a.voter, ())
  ofRow := fun (race, voter, ()) => ⟨race, voter⟩
  ofRow_toRow _ := rfl

instance : Record QuorumVote where
  fields := [⟨"addr", .text⟩, ⟨"voter", .text⟩]
  toRow a := (a.addr, a.voter, ())
  ofRow := fun (addr, voter, ()) => ⟨addr, voter⟩
  ofRow_toRow _ := rfl

instance : Record QuorumResult where
  fields := [⟨"addr", .text⟩]
  toRow a := (a.addr, ())
  ofRow := fun (addr, ()) => ⟨addr⟩
  ofRow_toRow _ := rfl

instance : Element RaceVote := Record.element RaceVote

instance : Element QuorumVote := Record.element QuorumVote

instance : Element QuorumResult := Record.element QuorumResult

instance : Codec RaceVote := Record.codec RaceVote

instance : Codec QuorumVote := Record.codec QuorumVote

instance : Codec QuorumResult := Record.codec QuorumResult

end Ratchet

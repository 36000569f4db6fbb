import Ratchet.Record

/-!
# Links and paths

The facts of a weighted graph: its links, and the paths that are derived from them.
-/

namespace Ratchet

/-- A directed link. -/
structure Link where
  source : String
  target : String
  cost : Int64

/-- A path, known by its ends, its cost and the node after its first link. -/
structure Path where
  source : String
  target : String
  /-- The end of the first link, or the empty text if the path is a single link. -/
  next : String
  cost : Int64

instance : Record Link where
  fields := [⟨"from", .text⟩, ⟨"to", .text⟩, ⟨"cost", .int⟩]
  toRow a := (a.source, a.target, a.cost, ())
  ofRow := fun (source, target, cost, ()) => ⟨source, target, cost⟩
  ofRow_toRow _ := rfl

instance : Record Path where
  fields := [⟨"from", .text⟩, ⟨"to", .text⟩, ⟨"next", .text⟩, ⟨"cost", .int⟩]
  toRow a := (a.source, a.target, a.next, a.cost, ())
  ofRow := fun (source, target, next, cost, ()) => ⟨source, target, next, cost⟩
  ofRow_toRow _ := rfl

instance : Element Link := Record.element Link

instance : Element Path := Record.element Path

instance : Codec Link := Record.codec Link

instance : Codec Path := Record.codec Path

end Ratchet

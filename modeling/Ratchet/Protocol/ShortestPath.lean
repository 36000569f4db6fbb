import Ratchet.Program.Setup

/-!
# Paths in a weighted graph

Every link is a path, and a link followed by a path is a path.  All paths are kept, and
`ShortestPath.best` picks the cheapest one.  On a graph with cycles the paths of growing cost may
never come to an end, so such a program should bound its passes.
-/

namespace Ratchet

/-- The relations of a path search. -/
structure ShortestPath where
  /-- The links, deposited from outside. -/
  links : Handle (.set .link)
  /-- The paths, for reading from outside. -/
  paths : Handle (.set .path)

namespace ShortestPath

/-- A link as a path. -/
def ofLink (link : Link) : Path := ⟨link.source, link.target, "", link.cost⟩

/-- A link followed by a path, if the path starts where the link ends. -/
def extend (link : Link) (path : Path) : Except Fault (Option Path) := do
  if link.target = path.source then
    return some ⟨link.source, path.target, link.target, ← checkedAdd link.cost path.cost⟩
  else return none

/-- Declares a path search. -/
def declare (scope : String) : Setup ShortestPath := do
  let links ← Setup.declare (.set .link) (scope ++ "ShortestPathLink")
  Setup.mark .input links
  let paths ← Setup.declare (.set .path) (scope ++ "ShortestPath")
  Setup.mark .output paths
  Setup.join (.of links) paths .sameTick fun _ link => .ok (some (ofLink link))
  Setup.join (.product (.of links) (.of paths)) paths .sameTick fun _ row =>
    extend row.1 row.2
  return ⟨links, paths⟩

/-- The cheaper of two paths, the first one on a tie. -/
def cheaper (a b : Path) : Path := if b.cost < a.cost then b else a

/-- The cheapest path of a list, the first one on a tie. -/
def cheapest? : List Path → Option Path
  | [] => none
  | a :: as => some (as.foldl cheaper a)

/-- The cheapest known path between two nodes. -/
def best (search : ShortestPath) (p : Program) (source target : String) :
    Except Fault (Option Path) := do
  let paths ← p.facts.tuples search.paths
  return cheapest? (paths.filter fun a => a.source = source ∧ a.target = target)

end ShortestPath

end Ratchet

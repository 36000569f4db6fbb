import Ratchet.Program.Tick

/-!
# Nodes

The nodes of a cluster, each running one program and found under the address of that program.
Nodes are listed in ascending order of their addresses.
-/

namespace Ratchet

/-- Programs by their addresses. -/
structure Nodes where
  map : StringMap Program
  addr_eq : ∀ e ∈ map.entries, e.2.addr = e.1

namespace Nodes

/-- No nodes. -/
def empty : Nodes where
  map := .empty
  addr_eq := by simp [StringMap.empty]

/-- The program at an address. -/
def get? (nodes : Nodes) (addr : String) : Option Program := nodes.map.get? addr

/-- The nodes with a program at its own address, in place of any other program there. -/
def put (nodes : Nodes) (p : Program) : Nodes where
  map := nodes.map.put p.addr p
  addr_eq := fun e he => by
    rcases StringMap.mem_putEntry he with rfl | he
    · rfl
    · exact nodes.addr_eq e he

/-- The programs in the order of their addresses. -/
def programs (nodes : Nodes) : List Program := nodes.map.values

/-- The addresses in ascending order. -/
def addrs (nodes : Nodes) : List String := nodes.map.keys

/-- The number of nodes. -/
def size (nodes : Nodes) : Nat := nodes.map.size

/-- Whether there are no nodes. -/
def isEmpty (nodes : Nodes) : Bool := nodes.map.isEmpty

end Nodes

end Ratchet

import Ratchet.Program.Fault

/-!
# Stores

A store holds the relations of a program, each in a slot of its own.  Relations are reached by
typed handles.  A handle names the program that it comes from, and every access checks that.

A deposit puts a fact, or a whole relation, into one slot.  Deposits are the only way in which
the contents of a store change, apart from the reset of scratch relations.

## Main definitions

* `Handle`, `Slot`, `Store`, `Facts`: relations and how they are read.
* `Write`, `Deposit`, `Store.deposit`, `Store.depositAll`: how they grow.
-/

namespace Ratchet

/-- A handle to a relation of type `t`. -/
structure Handle (t : RelationType) where
  id : RelationId
  deriving DecidableEq

/-- A relation with what was declared about it. -/
structure Slot where
  /-- The name, unique in its program. -/
  name : String
  type : RelationType
  value : type.Value
  /-- Whether the relation starts every tick from bottom. -/
  scratch : Bool
  /-- Whether the relation carries messages to other programs. -/
  channel : Bool
  /-- Whether the relation is written from outside. -/
  input : Bool
  output : Bool

/-- The relations of a program in the order of declaration. -/
abbrev Store := List Slot

/-- A fact on its way into a relation: one tuple, or a whole relation. -/
inductive Write where
  | add (type : RelationType) (tuple : type.Tuple)
  | merge (type : RelationType) (value : type.Value)

/-- A write and the slot that it is meant for. -/
structure Deposit where
  slot : Nat
  write : Write

namespace Write

/-- The type of relations that a write is made for. -/
def type : Write → RelationType
  | add t _ => t
  | merge t _ => t

/-- The value of a relation after a write, and whether it grew. -/
def applyTo : (w : Write) → w.type.Value → Except Mismatch (w.type.Value × Bool)
  | add _ tuple, value => Relation.add value tuple
  | merge _ whole, value => Lattice.merge value whole

end Write

namespace Slot

/-- A freshly declared relation. -/
def fresh (name : String) (t : RelationType) : Slot where
  name := name
  type := t
  value := t.bottom
  scratch := false
  channel := false
  input := false
  output := false

/-- The kind of lattice that the relation is. -/
def kind (s : Slot) : Kind := s.type.kind

/-- Whether the relation has the value that it started from. -/
def isBottom (s : Slot) : Bool := decide (s.value = s.type.bottom)

/-- The relation back at bottom. -/
def reset (s : Slot) : Slot := { s with value := s.type.bottom }

/-- The value of the relation, if it has the type that is asked for. -/
def valueAs (s : Slot) (t : RelationType) : Except ProgramError t.Value :=
  if h : s.type = t then .ok (h ▸ s.value) else .error (.typeMismatch s.name t s.type)

/-- The relation after a write, and whether it grew. -/
def apply (s : Slot) (w : Write) : Except Fault (Slot × Bool) :=
  if h : s.type = w.type then do
    let (value, grew) ← liftConflict (w.applyTo (h ▸ s.value))
    return ({ s with value := h ▸ value }, grew)
  else .error (.misuse (.typeMismatch s.name w.type s.type))

end Slot

/-! ## Reading -/

/-- A view of all relations of a program, for reading only. -/
structure Facts where
  program : Nat
  store : Store

namespace Facts

/-- The slot of a relation, which has to belong to the program. -/
def slot (facts : Facts) (id : RelationId) : Except ProgramError Slot :=
  if id.program = facts.program then
    match facts.store[id.slot]? with
    | some s => .ok s
    | none => .error (.foreignRelation id)
  else .error (.foreignRelation id)

/-- The value of a relation. -/
def tryGet {t : RelationType} (facts : Facts) (h : Handle t) : Except ProgramError t.Value := do
  (← facts.slot h.id).valueAs t

/-- The value of a relation, where reading a relation of another program is a fault. -/
def get {t : RelationType} (facts : Facts) (h : Handle t) : Except Fault t.Value :=
  (facts.tryGet h).mapError .misuse

/-- The tuples of a relation. -/
def tuples {t : RelationType} (facts : Facts) (h : Handle t) : Except Fault (List t.Tuple) := do
  return Relation.tuples (← facts.get h)

end Facts

/-! ## Writing -/

namespace Store

/-- The store with every scratch relation back at bottom. -/
def resetScratch (store : Store) : Store :=
  store.map fun s => if s.scratch then s.reset else s

/-- The store after a deposit, and whether it grew.  The program is named for the fault that a
deposit into a missing slot is. -/
def deposit (program : Nat) (store : Store) (d : Deposit) : Except Fault (Store × Bool) :=
  match store[d.slot]? with
  | none => .error (.misuse (.foreignRelation ⟨program, d.slot⟩))
  | some s => do
    let (s, grew) ← s.apply d.write
    return (store.set d.slot s, grew)

/-- The store after a list of deposits, and how many of them made it grow. -/
def depositAll (program : Nat) : Store → List Deposit → Except Fault (Store × Nat)
  | store, [] => .ok (store, 0)
  | store, d :: ds => do
    let (store, grew) ← deposit program store d
    let (store, count) ← depositAll program store ds
    return (store, if grew then count + 1 else count)

end Store

end Ratchet

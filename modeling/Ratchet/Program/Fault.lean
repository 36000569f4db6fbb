import Ratchet.RelationType

/-!
# Errors and faults

An error answers a request that a program cannot grant; the program goes on as before.  A fault
breaks off an evaluation for good: a rule met values that have no join, read a relation that it
has no right to, or left the range of integers.

## Main definitions

* `RelationId`: the identity of a relation, across programs.
* `ProgramError`, `Fault`, with their messages.
* `checkedAdd`: addition that faults when it leaves the range.
-/

namespace Ratchet

/-- The identity of a relation: its program, and its place in the order of declaration. -/
structure RelationId where
  program : Nat
  /-- The number of relations that were declared before it. -/
  slot : Nat
  deriving DecidableEq

/-- How a relation is called in messages. -/
def RelationId.text (id : RelationId) : String := s!"P{id.program}#{id.slot}"

/-- The reasons for which a program refuses a request. -/
inductive ProgramError where
  | duplicateRelation (name : String)
  /-- No relation has the name. -/
  | unknownRelation (name : String)
  /-- The relation has another type than the one that was asked for. -/
  | typeMismatch (name : String) (expected found : RelationType)
  | foreignRelation (id : RelationId)
  /-- A tick was still changing relations when it had used up its passes. -/
  | diverged (addr : String) (tick passes : Nat)
  deriving DecidableEq

namespace ProgramError

/-- The name of the kind of error. -/
def kind : ProgramError → String
  | duplicateRelation _ => "DuplicateRelation"
  | unknownRelation _ => "UnknownRelation"
  | typeMismatch .. => "RelationTypeMismatch"
  | foreignRelation _ => "ForeignRelation"
  | diverged .. => "FixpointDiverged"

/-- The wording of an error. -/
def message : ProgramError → String
  | duplicateRelation name => s!"Relation already declared: {name}"
  | unknownRelation name => s!"Relation not found: {name}"
  | typeMismatch name expected found =>
    s!"Type mismatch for relation {name}: expected {expected.code}, found {found.code}"
  | foreignRelation id => s!"Relation {id.text} belongs to a different program"
  | diverged addr tick passes => s!"No fixpoint at {addr} in tick {tick} after {passes} passes"

end ProgramError

/-- The reasons for which an evaluation breaks off. -/
inductive Fault where
  /-- Values of different kinds met where one had to grow by the other. -/
  | conflict (mismatch : Mismatch)
  /-- A relation was used in a way that its program refuses. -/
  | misuse (error : ProgramError)
  | overflow
  /-- An unbounded tick was given up before it reached its fixpoint. -/
  | exhausted
  deriving DecidableEq

/-- The wording of a fault. -/
def Fault.message : Fault → String
  | conflict mismatch => s!"lattice invariant violated: {mismatch.message}"
  | misuse error => error.message
  | overflow => "attempt to add with overflow"
  | exhausted => "no fixpoint within the passes waited for"

/-- A result that may fault instead of conflicting. -/
def liftConflict {α : Type} : Except Mismatch α → Except Fault α
  | .ok a => .ok a
  | .error mismatch => .error (.conflict mismatch)

/-- The sum of two integers, unless it is out of range. -/
def checkedAdd (a b : Int64) : Except Fault Int64 :=
  if Int64.minValue.toInt ≤ a.toInt + b.toInt ∧ a.toInt + b.toInt ≤ Int64.maxValue.toInt then
    .ok (a + b)
  else .error .overflow

end Ratchet

import Ratchet.Program.Basic

/-!
# Setting up programs

A setup script declares relations and rules one after the other.  It stops at the first
declaration that is refused; what was declared before that stays declared.

## Main definitions

* `Setup`: scripts over a program.
* `Setup.declare`, `Setup.channel`, `Setup.mark`, `Setup.join`, `Setup.joinMerge`, `Setup.copy`:
  the steps that scripts are made of.
-/

namespace Ratchet

/-- A script that sets up a program and may be refused on the way. -/
abbrev Setup := ExceptT ProgramError (StateM Program)

namespace Setup

/-- The outcome of a script on a program: the program afterwards, and the result or the refusal. -/
def runOn {α : Type} (script : Setup α) (p : Program) : Except ProgramError α × Program :=
  (script.run).run p

/-- A step that extends the program and returns something. -/
def extend {α : Type} (step : Program → Except ProgramError (Program × α)) : Setup α := do
  match step (← get) with
  | .ok (p, a) =>
    set p
    return a
  | .error e => throw e

/-- A step that only extends the program. -/
def extendOnly (step : Program → Except ProgramError Program) : Setup Unit :=
  extend fun p => do return (← step p, ())

/-- The address of the node that runs the program. -/
def addr : Setup String := do return (← get).addr

/-- Declares a relation. -/
def declare (t : RelationType) (name : String) : Setup (Handle t) :=
  extend fun p => p.declare t name

/-- Declares a channel. -/
def channel (facts : FactType) (name : String) : Setup (Handle (.set facts)) :=
  extend fun p => p.declareChannel facts name

/-- Sets a mark on a relation. -/
def mark {t : RelationType} (m : Mark) (h : Handle t) : Setup Unit :=
  extendOnly fun p => p.mark m h

/-- Adds a rule whose selector returns one fact for a row, or none. -/
def join {ρ : Type} {t : RelationType} (source : Source ρ) (target : Handle t) (timing : Timing)
    (select : Facts → ρ → Except Fault (Option t.Tuple)) : Setup Unit :=
  extendOnly fun p => p.join source target timing select

/-- Adds a rule whose selector returns a whole relation for a row, or none. -/
def joinMerge {ρ : Type} {t : RelationType} (source : Source ρ) (target : Handle t)
    (timing : Timing) (select : Facts → ρ → Except Fault (Option t.Value)) : Setup Unit :=
  extendOnly fun p => p.joinMerge source target timing select

/-- Adds a rule that copies the tuples of a relation to another relation of its type. -/
def copy {t : RelationType} (source target : Handle t) (timing : Timing) : Setup Unit :=
  join (.of source) target timing fun _ tuple => .ok (some tuple)

end Setup

end Ratchet

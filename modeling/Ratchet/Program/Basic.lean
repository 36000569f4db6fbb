import Ratchet.Program.Rule

/-!
# Programs

A program is what one node runs: relations with unique names, standing rules in the order of their
declaration, a count of completed ticks, and the deposits that wait for the next tick.

Everything that is declared is checked at once.  A rejected declaration leaves the program as it
was.

## Main definitions

* `Program`, `Program.create`.
* `Program.declare`, `Program.relation`, `Program.mark`, `Program.addRule`: the registry.
* `Program.add`, `Program.merge`, `Program.addNext`, `Program.mergeNext`: deposits from outside.
-/

namespace Ratchet

/-- A program with its relations and rules. -/
structure Program where
  id : Nat
  /-- The address of the node that runs the program. -/
  addr : String
  /-- How many passes a tick may take, if that is bounded. -/
  passLimit : Option Nat
  store : Store
  rules : List Rule
  /-- The deposits that wait for the next tick. -/
  pending : List Deposit
  ticks : Nat

/-- What can be declared about a relation. -/
inductive Mark where
  /-- The relation starts every tick from bottom. -/
  | scratch
  | input
  | output
  /-- The relation carries messages, and is scratch as well. -/
  | channel
  deriving DecidableEq

/-- The relation with a mark set. -/
def Slot.mark (s : Slot) : Mark → Slot
  | .scratch => { s with scratch := true }
  | .input => { s with input := true }
  | .output => { s with output := true }
  | .channel => { s with scratch := true, channel := true }

namespace Program

/-- A program without relations and rules. -/
def create (id : Nat) (addr : String) (passLimit : Option Nat) : Program where
  id := id
  addr := addr
  passLimit := passLimit
  store := []
  rules := []
  pending := []
  ticks := 0

/-- The relations of a program, for reading. -/
def facts (p : Program) : Facts := ⟨p.id, p.store⟩

/-! ## The registry -/

/-- Declares a relation of type `t` under a name of its own. -/
def declare (p : Program) (t : RelationType) (name : String) :
    Except ProgramError (Program × Handle t) :=
  if p.store.any fun s => s.name == name then .error (.duplicateRelation name)
  else .ok ({ p with store := p.store ++ [.fresh name t] }, ⟨⟨p.id, p.store.length⟩⟩)

/-- The relation of type `t` with a given name. -/
def relation (p : Program) (t : RelationType) (name : String) :
    Except ProgramError (Handle t) :=
  match p.store.findIdx? fun s => s.name == name with
  | none => .error (.unknownRelation name)
  | some i => do
    let s ← p.facts.slot ⟨p.id, i⟩
    let _ ← s.valueAs t
    return ⟨⟨p.id, i⟩⟩

/-- What is known about the relation of a handle. -/
def slotOf {t : RelationType} (p : Program) (h : Handle t) : Except ProgramError Slot :=
  p.facts.slot h.id

/-- Sets a mark on a relation. -/
def mark {t : RelationType} (p : Program) (m : Mark) (h : Handle t) :
    Except ProgramError Program := do
  let s ← p.slotOf h
  return { p with store := p.store.set h.id.slot (s.mark m) }

/-- Declares a channel for facts of one type. -/
def declareChannel (p : Program) (facts : FactType) (name : String) :
    Except ProgramError (Program × Handle (.set facts)) := do
  let (p, h) ← p.declare (.set facts) name
  return (← p.mark .channel h, h)

/-- The name of a relation, which has to belong to the program. -/
def nameOf (p : Program) (id : RelationId) : Except ProgramError String := do
  return (← p.facts.slot id).name

/-- Adds a rule over sources and a target that belong to the program. -/
def addRule (p : Program) (sources : List RelationId) (target : RelationId) (mode : WriteMode)
    (timing : Timing) (evaluate : Facts → Except Fault (List Write)) :
    Except ProgramError Program := do
  let names ← sources.mapM p.nameOf
  let targetName ← p.nameOf target
  let rule : Rule := ⟨names, targetName, target.slot, mode, timing, evaluate⟩
  return { p with rules := p.rules ++ [rule] }

/-- Adds a rule whose selector returns one fact for a row, or none. -/
def join {ρ : Type} {t : RelationType} (p : Program) (source : Source ρ) (target : Handle t)
    (timing : Timing) (select : Facts → ρ → Except Fault (Option t.Tuple)) :
    Except ProgramError Program :=
  p.addRule source.ids target.id .add timing <|
    Rule.selectRows source fun facts row => do return (← select facts row).map (.add t)

/-- Adds a rule whose selector returns a whole relation for a row, or none. -/
def joinMerge {ρ : Type} {t : RelationType} (p : Program) (source : Source ρ) (target : Handle t)
    (timing : Timing) (select : Facts → ρ → Except Fault (Option t.Value)) :
    Except ProgramError Program :=
  p.addRule source.ids target.id .merge timing <|
    Rule.selectRows source fun facts row => do return (← select facts row).map (.merge t)

/-! ## Deposits from outside -/

/-- Deposits a write at once, and says whether the relation grew. -/
def depositNow (p : Program) (id : RelationId) (w : Write) : Except Fault (Program × Bool) := do
  let _ ← (p.facts.slot id).mapError .misuse
  let (store, grew) ← p.store.deposit p.id ⟨id.slot, w⟩
  return ({ p with store := store }, grew)

/-- Queues a write for the next tick. -/
def depositNext (p : Program) (id : RelationId) (w : Write) : Except Fault Program := do
  let _ ← (p.facts.slot id).mapError .misuse
  return { p with pending := p.pending ++ [⟨id.slot, w⟩] }

variable {t : RelationType}

/-- Adds a fact at once, and says whether the relation grew. -/
def add (p : Program) (h : Handle t) (tuple : t.Tuple) : Except Fault (Program × Bool) :=
  p.depositNow h.id (.add t tuple)

/-- Merges a whole relation at once, and says whether the relation grew. -/
def merge (p : Program) (h : Handle t) (value : t.Value) : Except Fault (Program × Bool) :=
  p.depositNow h.id (.merge t value)

/-- Queues a fact for the next tick. -/
def addNext (p : Program) (h : Handle t) (tuple : t.Tuple) : Except Fault Program :=
  p.depositNext h.id (.add t tuple)

/-- Queues a whole relation for the next tick. -/
def mergeNext (p : Program) (h : Handle t) (value : t.Value) : Except Fault Program :=
  p.depositNext h.id (.merge t value)

/-- Sends a message: it is queued on a channel for the next tick. -/
def send {facts : FactType} (p : Program) (h : Handle (.set facts)) (message : facts.Carrier) :
    Except Fault Program :=
  p.addNext h message

/-! ## Introspection -/

/-- The names of the relations in the order of declaration. -/
def names (p : Program) : List String := p.store.map Slot.name

/-- The names of the relations that are written from outside. -/
def inputs (p : Program) : List String := (p.store.filter Slot.input).map Slot.name

/-- The names of the relations that are read from outside. -/
def outputs (p : Program) : List String := (p.store.filter Slot.output).map Slot.name

/-- The names of the channels. -/
def channels (p : Program) : List String := (p.store.filter Slot.channel).map Slot.name

/-- The relations that have left bottom. -/
def state (p : Program) : List Slot := p.store.filter fun s => !s.isBottom

/-- A text in quotes. -/
def quoteText (s : String) : String := "\"" ++ s ++ "\""

/-- A list of texts in quotes. -/
def quoteAll (ss : List String) : String := "[" ++ ", ".intercalate (ss.map quoteText) ++ "]"

/-- A one-line summary of a program. -/
def summary (p : Program) : String :=
  let addr := quoteText p.addr
  let relations := quoteAll p.names
  let body := s!"addr: {addr}, ticks: {p.ticks}, relations: {relations}, " ++
    s!"joins: {p.rules.length}, pending: {p.pending.length}"
  "Program \x7b " ++ body ++ " \x7d"

end Program

end Ratchet

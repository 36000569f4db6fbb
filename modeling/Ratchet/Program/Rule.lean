import Ratchet.Program.Store

/-!
# Rules

A rule joins the tuples of its sources: every combination of tuples, one from each source, is
handed to a selector, and what the selector returns is deposited in the target of the rule.  The
selector can also read relations that are not among the sources.

A rule of the same tick takes part in the fixpoint of the tick.  A rule of the next tick is
evaluated once, against the fixpoint, and its results wait for the next tick.

## Main definitions

* `Source`: where the rows of a rule come from; sources combine by `Source.product`.
* `Rule`, `Rule.consequences`: a standing rule and the deposits that it asks for.
-/

namespace Ratchet

/-- Where a rule takes its rows from. -/
structure Source (ρ : Type) where
  ids : List RelationId
  rows : Facts → Except Fault (List ρ)

namespace Source

/-- No relation, and a single empty row. -/
def unit : Source Unit where
  ids := []
  rows _ := .ok [()]

/-- The tuples of one relation. -/
def of {t : RelationType} (h : Handle t) : Source t.Tuple where
  ids := [h.id]
  rows facts := facts.tuples h

/-- Every combination of two rows; the rows of the first source change slowest. -/
def product {ρ σ : Type} (a : Source ρ) (b : Source σ) : Source (ρ × σ) where
  ids := a.ids ++ b.ids
  rows facts := do
    let rows ← a.rows facts
    let others ← b.rows facts
    return rows.flatMap fun row => others.map fun other => (row, other)

/-- The rows of a source, each put through a function. -/
def map {ρ σ : Type} (f : ρ → σ) (a : Source ρ) : Source σ where
  ids := a.ids
  rows facts := (a.rows facts).map fun rows => rows.map f

end Source

/-- Whether a rule adds single facts or merges whole relations. -/
inductive WriteMode where
  | add
  | merge
  deriving DecidableEq

/-- When the results of a rule become visible. -/
inductive Timing where
  | sameTick
  | nextTick
  deriving DecidableEq

/-- A standing rule, evaluated in every tick. -/
structure Rule where
  sources : List String
  targetName : String
  target : Nat
  mode : WriteMode
  timing : Timing
  /-- The writes that follow from the current relations. -/
  evaluate : Facts → Except Fault (List Write)

namespace Rule

/-- The word for a mode. -/
def modeText : WriteMode → String
  | .add => "add"
  | .merge => "merge"

/-- The words for a timing. -/
def timingText : Timing → String
  | .sameTick => "same tick"
  | .nextTick => "next tick"

/-- A description of a rule. -/
def describe (r : Rule) : String :=
  let sources := ", ".intercalate r.sources
  let mode := modeText r.mode
  let timing := timingText r.timing
  s!"({sources}) -> {r.targetName} [{mode}, {timing}]"

/-- The deposits that a rule asks for. -/
def consequences (r : Rule) (facts : Facts) : Except Fault (List Deposit) := do
  return (← r.evaluate facts).map (Deposit.mk r.target)

/-- The writes of a rule: the selector runs on every row, and its results are written in the
order of the rows. -/
def selectRows {ρ : Type} (source : Source ρ)
    (select : Facts → ρ → Except Fault (Option Write)) (facts : Facts) :
    Except Fault (List Write) := do
  let writes ← (← source.rows facts).mapM (select facts)
  return writes.filterMap id

end Rule

end Ratchet

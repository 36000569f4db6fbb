import Ratchet.Program.Basic

/-!
# Ticks

A tick runs four phases in order.

1. Scratch relations are reset to bottom.
2. The deposits that wait for the tick are made.
3. The rules of the same tick are evaluated in the order of their declaration, pass after pass,
   until a pass changes nothing: that is the fixpoint of the tick.
4. The rules of the next tick are evaluated once against the fixpoint, and their results wait for
   the next tick.

A program can bound the number of passes.  A tick that still changes relations after that many
passes fails: the relations stay as the passes left them, the tick does not count, and nothing is
queued.  Without a bound a tick may need more passes than anyone waits for, so `Program.tick`
takes the number of passes that the caller is willing to wait.

## Main definitions

* `pass`: one pass over the rules.
* `settle`: passes until nothing changes, up to a limit.
* `Program.tick`: one tick.
-/

namespace Ratchet

/-- One pass: every rule in turn sees what the rules before it deposited.  The result says whether
anything changed. -/
def pass (program : Nat) : List Rule → Store → Except Fault (Store × Bool)
  | [], store => .ok (store, false)
  | r :: rs, store => do
    let deposits ← r.consequences ⟨program, store⟩
    let (store, count) ← store.depositAll program deposits
    let (store, more) ← pass program rs store
    return (store, decide (0 < count) || more)

/-- How a run of passes ends. -/
inductive Settled where
  | stable (store : Store) (passes : Nat)
  /-- All passes were used up, and the last one still changed something. -/
  | unstable (store : Store)

/-- Runs at most `limit` passes, after `done` earlier ones, until a pass changes nothing. -/
def settle (program : Nat) (rules : List Rule) : (limit done : Nat) → Store → Except Fault Settled
  | 0, _, store => .ok (.unstable store)
  | limit + 1, done, store => do
    let (store, changed) ← pass program rules store
    if changed then settle program rules limit (done + 1) store
    else return .stable store (done + 1)

/-- The deposits that a list of rules asks for, in the order of the rules. -/
def allConsequences (facts : Facts) : List Rule → Except Fault (List Deposit)
  | [] => .ok []
  | r :: rs => do
    let deposits ← r.consequences facts
    return deposits ++ (← allConsequences facts rs)

/-- What a tick did. -/
structure TickReport where
  /-- The number of the tick, counted from zero. -/
  tick : Nat
  /-- The passes up to the fixpoint, with the last one that changed nothing. -/
  passes : Nat
  /-- How many waiting deposits changed their relation. -/
  applied : Nat
  /-- How many deposits the tick queued for the next one. -/
  queued : Nat
  deriving DecidableEq

namespace Program

/-- The rules that take part in the fixpoint. -/
def sameTickRules (p : Program) : List Rule := p.rules.filter fun r => r.timing = .sameTick

/-- The rules whose results wait for the next tick. -/
def nextTickRules (p : Program) : List Rule := p.rules.filter fun r => r.timing = .nextTick

/-- Runs one tick.  A tick without a bound on its passes is given up after `patience` passes. -/
def tick (patience : Nat) (p : Program) :
    Except Fault (Program × Except ProgramError TickReport) := do
  let (start, applied) ← p.store.resetScratch.depositAll p.id p.pending
  match ← settle p.id p.sameTickRules (p.passLimit.getD patience) 0 start with
  | .stable store passes =>
    let queue ← allConsequences ⟨p.id, store⟩ p.nextTickRules
    return ({ p with store := store, pending := queue, ticks := p.ticks + 1 },
      .ok ⟨p.ticks, passes, applied, queue.length⟩)
  | .unstable store =>
    match p.passLimit with
    | some limit =>
      return ({ p with store := store, pending := [] }, .error (.diverged p.addr p.ticks limit))
    | none => throw .exhausted

end Program

end Ratchet

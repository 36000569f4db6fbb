import Ratchet.Program.Tick
import Ratchet.Proofs.Lattice.Lawful

/-!
# Runs of a program

What happens to a program from outside, once it is set up: facts and whole relations are deposited
at once or for the next tick, and ticks are taken.  A run is a list of such actions.  It gives the
program and what was told after every action, and breaks off with the first fault.
-/

namespace Ratchet

/-- Something that is done to a program from outside. -/
inductive Action where
  | add {t : RelationType} (h : Handle t) (tuple : t.Tuple)
  | merge {t : RelationType} (h : Handle t) (value : t.Value)
  | addNext {t : RelationType} (h : Handle t) (tuple : t.Tuple)
  /-- A whole relation is queued for the next tick. -/
  | mergeNext {t : RelationType} (h : Handle t) (value : t.Value)
  | tick

/-- What an action deposits, at once or for the next tick, and into which relation. -/
def Action.deposit? : Action → Option (RelationId × Write)
  | @add t h tuple | @addNext t h tuple => some (h.id, .add t tuple)
  | @merge t h value | @mergeNext t h value => some (h.id, .merge t value)
  | tick => none

theorem Action.eq_tick_of_deposit? {action : Action} (h : action.deposit? = none) :
    action = .tick := by
  cases action with
  | tick => rfl
  | add | merge | addNext | mergeNext => cases h

/-- The relation that an action deposits into. -/
def Action.target? : Action → Option RelationId
  | .add h _ | .merge h _ | .addNext h _ | .mergeNext h _ => some h.id
  | .tick => none

theorem Action.target?_of_deposit? {action : Action} {target : RelationId} {w : Write}
    (h : action.deposit? = some (target, w)) : action.target? = some target := by
  cases action <;> cases h <;> rfl

/-- A fact is deposited at once, or for the next tick. -/
def Action.addAt {t : RelationType} (timing : Timing) (h : Handle t) (tuple : t.Tuple) : Action :=
  match timing with
  | .sameTick => .add h tuple
  | .nextTick => .addNext h tuple

/-- A whole relation is deposited at once, or for the next tick. -/
def Action.mergeAt {t : RelationType} (timing : Timing) (h : Handle t) (value : t.Value) : Action :=
  match timing with
  | .sameTick => .merge h value
  | .nextTick => .mergeNext h value

theorem Action.deposit?_addAt {t : RelationType} {timing : Timing} {h : Handle t}
    {tuple : t.Tuple} : (addAt timing h tuple).deposit? = some (h.id, .add t tuple) := by
  cases timing <;> rfl

theorem Action.deposit?_mergeAt {t : RelationType} {timing : Timing} {h : Handle t}
    {value : t.Value} : (mergeAt timing h value).deposit? = some (h.id, .merge t value) := by
  cases timing <;> rfl

/-- What is told about an action. -/
inductive Outcome where
  | deposited (grew : Bool)
  /-- Nothing, as the deposit waits. -/
  | queued
  | ticked (result : Except ProgramError TickReport)

/-- Whether the action was a tick. -/
def Outcome.isTick : Outcome → Bool
  | .ticked _ => true
  | _ => false

/-- What a completed tick reports. -/
def Outcome.report? : Outcome → Option TickReport
  | .ticked (.ok report) => some report
  | _ => none

theorem Outcome.report?_eq_some {outcome : Outcome} {report : TickReport} :
    outcome.report? = some report ↔ outcome = .ticked (.ok report) := by
  unfold report?
  split
  · simp
  · next hother =>
      refine ⟨nofun, ?_⟩
      rintro rfl
      exact absurd rfl (hother report)

namespace Program

/-- The program after an action, and what is told about it. -/
def perform (patience : Nat) (p : Program) : Action → Except Fault (Program × Outcome)
  | .add h tuple => do
    let (q, grew) ← p.add h tuple
    return (q, .deposited grew)
  | .merge h value => do
    let (q, grew) ← p.merge h value
    return (q, .deposited grew)
  | .addNext h tuple => do return (← p.addNext h tuple, .queued)
  | .mergeNext h value => do return (← p.mergeNext h value, .queued)
  | .tick => do
    let (q, result) ← p.tick patience
    return (q, .ticked result)

/-- Performs a list of actions; `patience` is how many passes are waited for in a tick. -/
def run (patience : Nat) : Program → List Action → Except Fault (List (Program × Outcome))
  | _, [] => .ok []
  | p, action :: actions => do
    let (q, outcome) ← p.perform patience action
    return (q, outcome) :: (← run patience q actions)

variable {p : Program} {patience : Nat} {action : Action} {actions : List Action}

theorem run_cons {trace : List (Program × Outcome)} :
    run patience p (action :: actions) = .ok trace ↔ ∃ q outcome rest,
      p.perform patience action = .ok (q, outcome) ∧ run patience q actions = .ok rest ∧
        trace = (q, outcome) :: rest := by
  refine bind_eq_ok.trans ⟨?_, ?_⟩
  · rintro ⟨⟨q, outcome⟩, hperform, h⟩
    obtain ⟨rest, hrest, heq⟩ := bind_eq_ok.1 h
    cases heq
    exact ⟨q, outcome, rest, hperform, hrest, rfl⟩
  · rintro ⟨q, outcome, rest, hperform, hrest, rfl⟩
    exact ⟨(q, outcome), hperform, bind_eq_ok.2 ⟨rest, hrest, rfl⟩⟩

/-- All ticks came to their end. -/
def AllComplete (trace : List (Program × Outcome)) : Prop :=
  ∀ q result, (q, .ticked result) ∈ trace → ∃ report, result = .ok report

/-- What each step of a run leaves in place, if all ticks come to their end, is in place before each
of them. -/
theorem exists_step_of_run {β : Type} {act : β → Action} {I : Program → List β → Prop}
    {calls rest before after : List β} {call : β} {history : List (Program × Outcome)}
    (hstep : ∀ p q calls call outcome, I p calls →
      p.perform patience (act call) = .ok (q, outcome) →
      (∀ result, outcome = .ticked result → ∃ report, result = .ok report) → I q (calls ++ [call]))
    (hI : I p calls) (hrun : p.run patience (rest.map act) = .ok history)
    (hticks : AllComplete history) (hrest : rest = before ++ call :: after) :
    ∃ prior q outcome, I prior (calls ++ before) ∧
      prior.perform patience (act call) = .ok (q, outcome) ∧
      (∀ result, outcome = .ticked result → ∃ report, result = .ok report) ∧
      history[before.length]? = some (q, outcome) := by
  induction before generalizing p calls rest history with
  | nil =>
      subst hrest
      obtain ⟨q, outcome, rest, hperform, _, rfl⟩ := run_cons.1 hrun
      rw [List.append_nil]
      exact ⟨p, q, outcome, hI, hperform, fun result heq =>
        hticks q result (heq ▸ List.mem_cons_self), rfl⟩
  | cons first before ih =>
      subst hrest
      obtain ⟨q, outcome, rest, hperform, hrest, rfl⟩ := run_cons.1 hrun
      have hq := hstep p q calls first outcome hI hperform fun result heq =>
        hticks q result (heq ▸ List.mem_cons_self)
      obtain ⟨prior, r, outcome', hprior, hrest⟩ := ih hq hrest
        (fun q' result hstep => hticks q' result (List.mem_cons_of_mem _ hstep)) rfl
      rw [List.append_assoc] at hprior
      exact ⟨prior, r, outcome', hprior, hrest⟩

/-- If every step can be made from what the earlier ones leave in place, and its tick comes to its
end, then so is the run. -/
theorem exists_run_of_step {β : Type} {act : β → Action} {I : Program → List β → Prop}
    (hstep : ∀ p calls call, I p calls → ∃ q outcome,
      p.perform patience (act call) = .ok (q, outcome) ∧ I q (calls ++ [call]) ∧
        ∀ result, outcome = .ticked result → ∃ report, result = .ok report)
    {calls : List β} (hI : I p calls) (rest : List β) :
    ∃ trace, p.run patience (rest.map act) = .ok trace ∧ AllComplete trace := by
  induction rest generalizing p calls with
  | nil => exact ⟨[], rfl, nofun⟩
  | cons call rest ih =>
      obtain ⟨q, outcome, hperform, hq, hcomplete⟩ := hstep p calls call hI
      obtain ⟨trace, hrun, hticks⟩ := ih hq
      refine ⟨_, run_cons.2 ⟨q, outcome, trace, hperform, hrun, rfl⟩, fun q' result hmem => ?_⟩
      rcases List.mem_cons.1 hmem with heq | hmem
      · cases heq
        exact hcomplete result rfl
      · exact hticks q' result hmem

/-- An action is a deposit, at once or for the next tick, or it is a tick. -/
theorem perform_cases {q : Program} {outcome : Outcome}
    (h : p.perform patience action = .ok (q, outcome)) :
    (∃ target w, action.deposit? = some (target, w) ∧ (∀ result, outcome ≠ .ticked result) ∧
        ((∃ grew, p.depositNow target w = .ok (q, grew)) ∨ p.depositNext target w = .ok q)) ∨
      ∃ result, action = .tick ∧ p.tick patience = .ok (q, result) ∧ outcome = .ticked result := by
  cases action with
  | add handle tuple =>
      obtain ⟨⟨_, grew⟩, hdeposit, heq⟩ := bind_eq_ok.1 h
      cases heq
      exact .inl ⟨handle.id, _, rfl, nofun, .inl ⟨grew, hdeposit⟩⟩
  | merge handle value =>
      obtain ⟨⟨_, grew⟩, hdeposit, heq⟩ := bind_eq_ok.1 h
      cases heq
      exact .inl ⟨handle.id, _, rfl, nofun, .inl ⟨grew, hdeposit⟩⟩
  | addNext handle tuple =>
      obtain ⟨_, hdeposit, heq⟩ := bind_eq_ok.1 h
      cases heq
      exact .inl ⟨handle.id, _, rfl, nofun, .inr hdeposit⟩
  | mergeNext handle value =>
      obtain ⟨_, hdeposit, heq⟩ := bind_eq_ok.1 h
      cases heq
      exact .inl ⟨handle.id, _, rfl, nofun, .inr hdeposit⟩
  | tick =>
      obtain ⟨⟨_, result⟩, htick, heq⟩ := bind_eq_ok.1 h
      cases heq
      exact .inr ⟨result, rfl, htick, rfl⟩

/-- A deposit is all that an action may add to the queue. -/
theorem pending_of_deposit? {q : Program} {outcome : Outcome} {target : RelationId} {w : Write}
    (haction : action.deposit? = some (target, w))
    (h : p.perform patience action = .ok (q, outcome)) :
    q.pending = p.pending ∨ q.pending = p.pending ++ [⟨target.slot, w⟩] := by
  rcases perform_cases h with ⟨_, _, heq, _, ⟨_, hnow⟩ | hnext⟩ | ⟨_, rfl, _⟩
  · obtain ⟨_, _, hnow⟩ := bind_eq_ok.1 hnow
    obtain ⟨_, _, heq⟩ := bind_eq_ok.1 hnow
    cases heq
    exact .inl rfl
  · cases haction.symm.trans heq
    obtain ⟨_, _, heq⟩ := bind_eq_ok.1 hnext
    cases heq
    exact .inr rfl
  · cases haction

/-- An action that deposits into a relation of the program can be performed, at once or for the next
tick, if the deposit can be made at once. -/
theorem exists_perform_of_deposit? {target : RelationId} {w : Write} {s : Slot} {S : Store}
    {grew : Bool} (haction : action.deposit? = some (target, w))
    (hs : p.facts.slot target = .ok s)
    (hdeposit : p.store.deposit p.id ⟨target.slot, w⟩ = .ok (S, grew)) :
    ∃ q outcome, p.perform patience action = .ok (q, outcome) := by
  have hslot : (p.facts.slot target).mapError Fault.misuse = .ok s := by
    rw [hs]
    rfl
  have hnow : p.depositNow target w = .ok ({ p with store := S }, grew) :=
    bind_eq_ok.2 ⟨s, hslot, bind_eq_ok.2 ⟨_, hdeposit, rfl⟩⟩
  have hnext : p.depositNext target w = .ok { p with pending := p.pending ++ [⟨target.slot, w⟩] } :=
    bind_eq_ok.2 ⟨s, hslot, rfl⟩
  cases action with
  | add handle tuple | merge handle value =>
      cases haction
      exact ⟨_, _, bind_eq_ok.2 ⟨_, hnow, rfl⟩⟩
  | addNext handle tuple | mergeNext handle value =>
      cases haction
      exact ⟨_, _, bind_eq_ok.2 ⟨_, hnext, rfl⟩⟩
  | tick => cases haction

end Program

end Ratchet

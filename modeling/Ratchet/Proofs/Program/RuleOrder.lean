import Mathlib.Data.List.Forall2
import Ratchet.Proofs.Program.Fixpoint
import Ratchet.Proofs.Program.Run

/-!
# The order of rules

Declaring the rules of an unbounded program in another order changes nothing that can be seen of a
run, if the rules of the same tick are monotone.  Rules of the next tick may be anything.

Both orders reach the same least fixpoint, so what has to be shown is that the second order reaches
it at all.  The lattices may have infinite chains, and no measure of the store goes down.  What
counts is the other run: one pass in one order is overtaken by as many passes in the other order as
there are rules (`pass_below_passes`), as each of these passes fires the next rule of the first
order on a store that is at least as great.  So if the first order needs `k` passes, the last of
them without a change, then the second order is done after `n * (k - 1) + 1` (`settle_reordered`).

The results for the next tick are queued in another order.  What a tick does with its queue depends
on the members of the queue only, so `Reordered` programs stay reordered (`Reordered.perform`), and
the runs go on in step (`Program.run_reordered`).
-/

namespace Ratchet

variable {program : Nat} {r : Rule} {rs rs' : List Rule} {frame S T U V : Store}

/-! ## One order overtakes the other -/

/-- A pass does at least what firing one of its rules at its start does. -/
theorem fire_below_pass {changed : Bool} (hmono : r.Monotone program frame)
    (hS : frame.SameShape S) (hSU : S.Below U) (hr : r ∈ rs) (hT : r.fire program S = .ok T)
    (hV : pass program rs U = .ok (V, changed)) : T.Below V := by
  induction rs generalizing U changed with
  | nil => cases hr
  | cons first rest ih =>
      obtain ⟨R, more, hfire, hpass, _⟩ := pass_cons hV
      rcases List.mem_cons.1 hr with rfl | hr
      · have hTR : T.Below R := hmono S U T R hS hSU hT hfire
        exact hTR.trans (pass_growth hpass).1
      · exact ih (hSU.trans (Rule.below_of_fire hfire)) hr hpass

/-- One pass is overtaken by as many passes over another list with its rules as there are rules. -/
theorem pass_below_passes {changed : Bool} (hmono : ∀ r ∈ rs, r.Monotone program frame)
    (hS : frame.SameShape S) (hSU : S.Below U) (hsub : ∀ r ∈ rs, r ∈ rs')
    (hT : pass program rs S = .ok (T, changed))
    (hV : passes program rs' rs.length U = .ok V) : T.Below V := by
  induction rs generalizing S U changed with
  | nil =>
      cases hT
      cases hV
      exact hSU
  | cons r rs ih =>
      obtain ⟨R, more, hfire, hpass, _⟩ := pass_cons hT
      obtain ⟨W, _, hW, hV⟩ := passes_succ.1 hV
      obtain ⟨hmonor, hmonors⟩ := List.forall_mem_cons.1 hmono
      obtain ⟨hr, hrs⟩ := List.forall_mem_cons.1 hsub
      have hRW : R.Below W := fire_below_pass hmonor hS hSU hr hfire hW
      have hR : frame.SameShape R := hS.trans (Rule.below_of_fire hfire).sameShape
      exact ih hmonors hR hRW hrs hpass hV

theorem passes_below_passes {m : Nat} (hmono : ∀ r ∈ rs, r.Monotone program frame)
    (hS : frame.SameShape S) (hSU : S.Below U) (hsub : ∀ r ∈ rs, r ∈ rs')
    (hT : passes program rs m S = .ok T)
    (hV : passes program rs' (rs.length * m) U = .ok V) : T.Below V := by
  induction m generalizing S U with
  | zero =>
      cases hT
      cases hV
      exact hSU
  | succ m ih =>
      rw [show rs.length * (m + 1) = rs.length + rs.length * m by rw [Nat.mul_succ, Nat.add_comm]]
        at hV
      obtain ⟨R, _, hpass, hrest⟩ := passes_succ.1 hT
      obtain ⟨W, hW, hV⟩ := passes_add.1 hV
      have hRW : R.Below W := pass_below_passes hmono hS hSU hsub hpass hW
      exact ih (hS.trans (pass_growth hpass).1.sameShape) hRW hrest hV

/-- If the passes settle in one order, then they settle on the same store in every other order. -/
theorem settle_reordered {k count : Nat} {result : Settled} (hperm : rs'.Perm rs)
    (hmono : ∀ r ∈ rs, r.Monotone program frame) (hS : frame.SameShape S)
    (h : settle program rs k 0 S = .ok (.stable T count))
    (h' : settle program rs' (rs.length * (k - 1) + 1) 0 S = .ok result) :
    ∃ count', result = .stable T count' ∧ count' ≤ rs.length * (count - 1) + 1 := by
  have hmono' : ∀ r ∈ rs', r.Monotone program frame := fun r hr => hmono r (hperm.mem_iff.1 hr)
  obtain ⟨m, T', hm, _, ⟨hmk, hclosed, heq⟩ | ⟨_, heq⟩⟩ := settle_eq_ok h
  · obtain ⟨rfl, rfl⟩ : T' = T ∧ 0 + m + 1 = count := by cases heq; exact ⟨rfl, rfl⟩
    have hclosed' : ∀ r ∈ rs', r.Closed program T' := fun r hr => hclosed r (hperm.mem_iff.1 hr)
    have hover : ∀ U, passes program rs' (rs.length * m) S = .ok U → T'.Below U := fun U hU =>
      passes_below_passes hmono hS S.below_refl (fun r hr => hperm.mem_iff.2 hr) hm hU
    have hlimit : rs.length * m ≤ rs.length * (k - 1) := Nat.mul_le_mul_left _ (by omega)
    obtain ⟨count', rfl, hcount⟩ := settle_of_overtaken hmono' hS (below_of_passes hm) hclosed'
      hover (Nat.lt_succ_of_le hlimit) h'
    refine ⟨count', rfl, ?_⟩
    rwa [show 0 + m + 1 - 1 = m by omega, ← Nat.zero_add (rs.length * m)]
  · cases heq

/-! ## Giving up is left to the caller -/

/-- Evaluating the rule never breaks off for lack of patience: that fault is for ticks alone. -/
def Rule.Patient (r : Rule) : Prop := ∀ facts, r.evaluate facts ≠ .error .exhausted

theorem Rule.patient_of_select {ρ : Type} {source : Source ρ} {r : Rule}
    {select : Facts → ρ → Except Fault (Option Write)}
    (hr : r.evaluate = Rule.selectRows source select)
    (hrows : ∀ facts, source.rows facts ≠ .error .exhausted)
    (hselect : ∀ facts row, select facts row ≠ .error .exhausted) : r.Patient := by
  intro facts h
  rw [hr] at h
  rcases bind_eq_error.1 h with hfault | ⟨rows, _, h⟩
  · exact hrows facts hfault
  · rcases bind_eq_error.1 h with hfault | ⟨_, _, heq⟩
    · obtain ⟨row, _, hrow⟩ := mapM_eq_error hfault
      exact hselect facts row hrow
    · cases heq

theorem Source.rows_of_ne_exhausted {t : RelationType} (h : Handle t) (facts : Facts) :
    (Source.of h).rows facts ≠ .error .exhausted := by
  intro heq
  rcases bind_eq_error.1 heq with hget | ⟨_, _, heq⟩
  · unfold Facts.get at hget
    cases hread : facts.tryGet h <;> simp [hread, Except.mapError] at hget
  · cases heq

theorem Slot.apply_ne_exhausted {s : Slot} {w : Write} : s.apply w ≠ .error .exhausted := by
  unfold Slot.apply
  split
  · next h =>
      intro heq
      rcases bind_eq_error.1 heq with hconflict | ⟨_, _, heq⟩
      · cases hw : w.applyTo (h ▸ s.value) <;> simp [liftConflict, hw] at hconflict
      · cases heq
  · nofun

theorem Store.depositAll_ne_exhausted {ds : List Deposit} :
    S.depositAll program ds ≠ .error .exhausted := by
  induction ds generalizing S with
  | nil => nofun
  | cons d ds ih =>
      intro h
      rcases bind_eq_error.1 h with hd | ⟨⟨T, grew⟩, _, h⟩
      · unfold deposit at hd
        split at hd
        · cases hd
        · rcases bind_eq_error.1 hd with happly | ⟨_, _, heq⟩
          · exact Slot.apply_ne_exhausted happly
          · cases heq
      · rcases bind_eq_error.1 h with hds | ⟨_, _, heq⟩
        · exact ih hds
        · cases heq

theorem pass_ne_exhausted (hpatient : ∀ r ∈ rs, r.Patient) :
    pass program rs S ≠ .error .exhausted := by
  induction rs generalizing S with
  | nil => nofun
  | cons r rs ih =>
      intro h
      obtain ⟨hr, hrs⟩ := List.forall_mem_cons.1 hpatient
      rcases bind_eq_error.1 h with hds | ⟨ds, _, h⟩
      · rcases bind_eq_error.1 hds with hevaluate | ⟨_, _, heq⟩
        · exact hr _ hevaluate
        · cases heq
      · rcases bind_eq_error.1 h with hall | ⟨_, _, h⟩
        · exact Store.depositAll_ne_exhausted hall
        · rcases bind_eq_error.1 h with hpass | ⟨_, _, heq⟩
          · exact ih hrs hpass
          · cases heq

theorem settle_ne_exhausted {limit done : Nat} (hpatient : ∀ r ∈ rs, r.Patient) :
    settle program rs limit done S ≠ .error .exhausted := by
  induction limit generalizing S done with
  | zero => nofun
  | succ limit ih =>
      intro h
      rcases bind_eq_error.1 h with hpass | ⟨⟨T, changed⟩, _, h⟩
      · exact pass_ne_exhausted hpatient hpass
      · cases changed with
        | true => exact ih h
        | false => cases h

/-! ## Queues -/

/-- Rules in another order ask for the same deposits in another order. -/
theorem allConsequences_perm {facts : Facts} {queue : List Deposit} (hperm : rs.Perm rs')
    (h : allConsequences facts rs = .ok queue) :
    ∃ queue', allConsequences facts rs' = .ok queue' ∧ queue'.Perm queue := by
  induction hperm generalizing queue with
  | nil => exact ⟨queue, h, .refl _⟩
  | cons r _ ih =>
      obtain ⟨ds, rest, hds, hrest, rfl⟩ := allConsequences_cons.1 h
      obtain ⟨rest', hrest', hperm⟩ := ih hrest
      exact ⟨ds ++ rest', allConsequences_cons.2 ⟨ds, rest', hds, hrest', rfl⟩,
        hperm.append_left ds⟩
  | swap r r' rs =>
      obtain ⟨ds, _, hds, htail, rfl⟩ := allConsequences_cons.1 h
      obtain ⟨es, rest, hes, hrest, rfl⟩ := allConsequences_cons.1 htail
      refine ⟨es ++ (ds ++ rest), ?_, ?_⟩
      · exact allConsequences_cons.2 ⟨es, ds ++ rest, hes,
          allConsequences_cons.2 ⟨ds, rest, hds, hrest, rfl⟩, rfl⟩
      · rw [← List.append_assoc, ← List.append_assoc]
        exact List.perm_append_comm.append_right rest
  | trans _ _ ih ih' =>
      obtain ⟨queue', hqueue', hperm⟩ := ih h
      obtain ⟨last, hlast, hperm'⟩ := ih' hqueue'
      exact ⟨last, hlast, hperm'.trans hperm⟩

/-! ## Runs in step -/

/-- The same program, but for the order of its rules and of its queue. -/
def Program.Reordered (p q : Program) : Prop :=
  ∃ rules queue, rules.Perm p.rules ∧ queue.Perm p.pending ∧
    q = { p with rules := rules, pending := queue }

/-- What a run in step can rely on about the program that completes its ticks. -/
structure Program.Orderly (frame : Store) (p : Program) : Prop where
  unbounded : p.passLimit = none
  sameShape : frame.SameShape p.store
  monotone : ∀ r ∈ p.sameTickRules, r.Monotone p.id frame
  patient : ∀ r ∈ p.rules, r.Patient

/-- What is told is the same, but for how many passes a tick took, where the second may take `n`
times as many as the first as long as they change something, and for how many of the waiting
deposits had an effect of their own. -/
def Outcome.Matches (n : Nat) : Outcome → Outcome → Prop
  | .ticked (.ok a), .ticked (.ok b) =>
    b.tick = a.tick ∧ b.queued = a.queued ∧ b.passes ≤ n * (a.passes - 1) + 1
  | a, b => b = a

namespace Program

variable {p q p' : Program} {k n : Nat}

theorem exists_settle_of_tick {start : Store} {applied : Nat} (hlimit : p.passLimit = none)
    (hpatient : ∀ r ∈ p.rules, r.Patient)
    (hstart : p.store.resetScratch.depositAll p.id p.pending = .ok (start, applied))
    (hp : ∀ fault, p.tick k = .error fault → fault = .exhausted) :
    ∃ result, settle p.id p.sameTickRules k 0 start = .ok result := by
  cases hresult : settle p.id p.sameTickRules k 0 start with
  | ok result => exact ⟨result, rfl⟩
  | error fault =>
      have htick : p.tick k = .error fault := by
        refine bind_eq_error.2 (.inr ⟨_, hstart, bind_eq_error.2 (.inl ?_)⟩)
        show settle p.id p.sameTickRules (p.passLimit.getD k) 0 start = _
        rw [hlimit]
        exact hresult
      obtain rfl := hp fault htick
      have hrules : ∀ r ∈ p.sameTickRules, r.Patient := fun r hr =>
        hpatient r (List.mem_filter.1 hr).1
      exact absurd hresult (settle_ne_exhausted hrules)

theorem tick_reordered {a : Except ProgramError TickReport} (hp : p.Orderly frame)
    (hpq : p.Reordered q) (htick : p.tick k = .ok (p', a))
    (hq : ∀ fault, q.tick (p.sameTickRules.length * (k - 1) + 1) = .error fault →
      fault = .exhausted) :
    ∃ q' b, q.tick (p.sameTickRules.length * (k - 1) + 1) = .ok (q', b) ∧
      p'.Orderly frame ∧ p'.Reordered q' ∧ p'.sameTickRules = p.sameTickRules ∧
      (Outcome.ticked a).Matches p.sameTickRules.length (.ticked b) := by
  obtain ⟨rules, pending, hrules, hpending, rfl⟩ := hpq
  obtain ⟨report, rfl⟩ := exists_report_of_tick hp.unbounded htick
  obtain ⟨start, applied, store, count, queue, hstart, hsettle, hqueue, rfl, rfl⟩ :=
    tick_eq_ok.1 htick
  generalize hn : p.sameTickRules.length = n at hq ⊢
  let q : Program := { p with rules := rules, pending := pending }
  have hsame : q.sameTickRules.Perm p.sameTickRules := hrules.filter _
  have hnext : p.nextTickRules.Perm q.nextTickRules := (hrules.filter _).symm
  -- the queue leads to the same start
  obtain ⟨applied', hstart'⟩ :=
    Store.exists_depositAll_congr (fun d => hpending.mem_iff.symm) hstart
  -- the passes lead to the same fixpoint
  have hshape : frame.SameShape start := hp.sameShape.trans (sameShape_start hstart)
  rw [hp.unbounded] at hsettle
  have hpatient : ∀ r ∈ q.rules, r.Patient := fun r hr => hp.patient r (hrules.mem_iff.1 hr)
  obtain ⟨result, hsettle'⟩ := exists_settle_of_tick (p := q) hp.unbounded hpatient hstart' hq
  rw [← hn] at hsettle'
  obtain ⟨count', rfl, hcount⟩ := settle_reordered hsame hp.monotone hshape hsettle hsettle'
  rw [hn] at hsettle' hcount
  -- the results for the next tick are the same up to their order
  obtain ⟨queue', hqueue', hperm⟩ := allConsequences_perm hnext hqueue
  have htick' : q.tick (n * (k - 1) + 1) =
      .ok ({ q with store := store, pending := queue', ticks := p.ticks + 1 },
        .ok ⟨p.ticks, count', applied', queue'.length⟩) := by
    refine tick_eq_ok.2 ⟨start, applied', store, count', queue', hstart', ?_, hqueue', rfl, rfl⟩
    show settle p.id q.sameTickRules (p.passLimit.getD _) 0 start = _
    rw [hp.unbounded]
    exact hsettle'
  refine ⟨_, _, htick', ⟨hp.unbounded, ?_, hp.monotone, hp.patient⟩,
    ⟨rules, queue', hrules, hperm, rfl⟩, rfl, rfl, hperm.length_eq, hcount⟩
  exact hshape.trans (leastClosed_of_settle hp.monotone hshape hsettle).above.sameShape

theorem depositNow_reordered {id : RelationId} {w : Write} {grew : Bool} (hp : p.Orderly frame)
    (hpq : p.Reordered q) (h : p.depositNow id w = .ok (p', grew)) :
    ∃ q', q.depositNow id w = .ok (q', grew) ∧ p'.Orderly frame ∧ p'.Reordered q' ∧
      p'.sameTickRules = p.sameTickRules := by
  obtain ⟨rules, pending, hrules, hpending, rfl⟩ := hpq
  obtain ⟨s, hs, h⟩ := bind_eq_ok.1 h
  obtain ⟨⟨store, g⟩, hdeposit, heq⟩ := bind_eq_ok.1 h
  cases heq
  have hshape : frame.SameShape store :=
    hp.sameShape.trans (Store.deposit_least hdeposit).1.sameShape
  exact ⟨{ p with store := store, rules := rules, pending := pending },
    bind_eq_ok.2 ⟨s, hs, bind_eq_ok.2 ⟨_, hdeposit, rfl⟩⟩,
    ⟨hp.unbounded, hshape, hp.monotone, hp.patient⟩, ⟨rules, pending, hrules, hpending, rfl⟩, rfl⟩

theorem depositNext_reordered {id : RelationId} {w : Write} (hp : p.Orderly frame)
    (hpq : p.Reordered q) (h : p.depositNext id w = .ok p') :
    ∃ q', q.depositNext id w = .ok q' ∧ p'.Orderly frame ∧ p'.Reordered q' ∧
      p'.sameTickRules = p.sameTickRules := by
  obtain ⟨rules, pending, hrules, hpending, rfl⟩ := hpq
  obtain ⟨s, hs, heq⟩ := bind_eq_ok.1 h
  cases heq
  exact ⟨{ p with rules := rules, pending := pending ++ [⟨id.slot, w⟩] },
    bind_eq_ok.2 ⟨s, hs, rfl⟩, ⟨hp.unbounded, hp.sameShape, hp.monotone, hp.patient⟩,
    ⟨rules, _, hrules, hpending.append_right _, rfl⟩, rfl⟩

/-- Reordered programs stay reordered, whatever is done to both. -/
theorem perform_reordered {action : Action} {a : Outcome} (hp : p.Orderly frame)
    (hpq : p.Reordered q) (h : p.perform k action = .ok (p', a))
    (hq : ∀ fault, q.perform (p.sameTickRules.length * (k - 1) + 1) action = .error fault →
      fault = .exhausted) :
    ∃ q' b, q.perform (p.sameTickRules.length * (k - 1) + 1) action = .ok (q', b) ∧
      p'.Orderly frame ∧ p'.Reordered q' ∧ p'.sameTickRules = p.sameTickRules ∧
      a.Matches p.sameTickRules.length b := by
  cases action with
  | add handle tuple =>
      obtain ⟨⟨_, grew⟩, hdeposit, heq⟩ := bind_eq_ok.1 h
      cases heq
      obtain ⟨q', hq', hp', hpq', hrules⟩ := depositNow_reordered hp hpq hdeposit
      exact ⟨q', _, bind_eq_ok.2 ⟨_, hq', rfl⟩, hp', hpq', hrules, rfl⟩
  | merge handle value =>
      obtain ⟨⟨_, grew⟩, hdeposit, heq⟩ := bind_eq_ok.1 h
      cases heq
      obtain ⟨q', hq', hp', hpq', hrules⟩ := depositNow_reordered hp hpq hdeposit
      exact ⟨q', _, bind_eq_ok.2 ⟨_, hq', rfl⟩, hp', hpq', hrules, rfl⟩
  | addNext handle tuple =>
      obtain ⟨_, hdeposit, heq⟩ := bind_eq_ok.1 h
      cases heq
      obtain ⟨q', hq', hp', hpq', hrules⟩ := depositNext_reordered hp hpq hdeposit
      exact ⟨q', _, bind_eq_ok.2 ⟨_, hq', rfl⟩, hp', hpq', hrules, rfl⟩
  | mergeNext handle value =>
      obtain ⟨_, hdeposit, heq⟩ := bind_eq_ok.1 h
      cases heq
      obtain ⟨q', hq', hp', hpq', hrules⟩ := depositNext_reordered hp hpq hdeposit
      exact ⟨q', _, bind_eq_ok.2 ⟨_, hq', rfl⟩, hp', hpq', hrules, rfl⟩
  | tick =>
      obtain ⟨⟨_, result⟩, htick, heq⟩ := bind_eq_ok.1 h
      cases heq
      have htick' : ∀ fault, q.tick (p.sameTickRules.length * (k - 1) + 1) = .error fault →
          fault = .exhausted := fun fault hfault => hq fault (bind_eq_error.2 (.inl hfault))
      obtain ⟨q', b, hq', hp', hpq', hrules, hmatch⟩ := tick_reordered hp hpq htick htick'
      exact ⟨q', _, bind_eq_ok.2 ⟨_, hq', rfl⟩, hp', hpq', hrules, hmatch⟩

/-- Runs of two programs that differ in the order of their rules and their queue go on in step. -/
theorem run_in_step {actions : List Action} {trace : List (Program × Outcome)}
    (hp : p.Orderly frame) (hpq : p.Reordered q) (h : p.run k actions = .ok trace)
    (hq : ∀ fault, q.run (p.sameTickRules.length * (k - 1) + 1) actions = .error fault →
      fault = .exhausted) :
    ∃ trace', q.run (p.sameTickRules.length * (k - 1) + 1) actions = .ok trace' ∧
      List.Forall₂ (fun a b => b.1.store = a.1.store ∧ a.2.Matches p.sameTickRules.length b.2)
        trace trace' := by
  induction actions generalizing p q trace with
  | nil =>
      cases h
      exact ⟨[], rfl, .nil⟩
  | cons action actions ih =>
      obtain ⟨p', a, rest, hperform, hrun, rfl⟩ := run_cons.1 h
      -- a fault of the first action or of the rest is a fault of the whole run
      have hfirst : ∀ fault,
          q.perform (p.sameTickRules.length * (k - 1) + 1) action = .error fault →
            fault = .exhausted := fun fault hfault => hq fault (bind_eq_error.2 (.inl hfault))
      obtain ⟨q', b, hperform', hp', hpq', hrules, hmatch⟩ :=
        perform_reordered hp hpq hperform hfirst
      rw [← hrules] at hq hmatch hperform' ⊢
      have hlater : ∀ fault,
          q'.run (p'.sameTickRules.length * (k - 1) + 1) actions = .error fault →
            fault = .exhausted := fun fault hfault =>
        hq fault (bind_eq_error.2 (.inr ⟨_, hperform', bind_eq_error.2 (.inl hfault)⟩))
      obtain ⟨rest', hrun', hrest⟩ := ih hp' hpq' hrun hlater
      have hstore : q'.store = p'.store := by
        obtain ⟨rules, queue, _, _, rfl⟩ := hpq'
        rfl
      exact ⟨(q', b) :: rest', run_cons.2 ⟨q', b, rest', hperform', hrun', rfl⟩,
        .cons ⟨hstore, hmatch⟩ hrest⟩

/-- The order in which rules are declared does not matter over whole runs.  If an unbounded program
with monotone rules gets through a run, then so does the program with its rules in another order,
unless it breaks off with a fault of its own.  After every action both hold the same relations.  A
tick that takes `passes` passes takes at most `n * (passes - 1) + 1` in the other order, where `n`
is the number of rules of the same tick, and both queue as much. -/
theorem run_reordered {rules : List Rule} {actions : List Action}
    {trace : List (Program × Outcome)} (hperm : rules.Perm p.rules) (hlimit : p.passLimit = none)
    (hmono : ∀ r ∈ p.sameTickRules, r.Monotone p.id p.store)
    (hpatient : ∀ r ∈ p.rules, r.Patient) (h : p.run k actions = .ok trace)
    (hfault : ∀ fault, ({ p with rules := rules } : Program).run
      (p.sameTickRules.length * (k - 1) + 1) actions = .error fault → fault = .exhausted) :
    ∃ trace', ({ p with rules := rules } : Program).run
        (p.sameTickRules.length * (k - 1) + 1) actions = .ok trace' ∧
      List.Forall₂ (fun a b => b.1.store = a.1.store ∧ a.2.Matches p.sameTickRules.length b.2)
        trace trace' := by
  have hshape : p.store.SameShape p.store := p.store.below_refl.sameShape
  exact run_in_step ⟨hlimit, hshape, hmono, hpatient⟩ ⟨rules, p.pending, hperm, .refl _, rfl⟩ h
    hfault

theorem patient_of_mem_chain : ∀ r ∈ chain.rules, r.Patient := by
  rintro r (_ | ⟨_, _ | ⟨_, hr⟩⟩)
  · exact Rule.patient_of_select rfl (Source.rows_of_ne_exhausted _) nofun
  · exact Rule.patient_of_select rfl (Source.rows_of_ne_exhausted _) nofun
  · cases hr

/-- The copying of `chain` in the order in which it takes the fewest passes. -/
def chainForward : Program := { chain with rules := chain.rules.reverse }

/-- Two ticks with a number that arrives in between. -/
def chainActions : List Action := [.tick, .addNext (t := .set .int) ⟨⟨0, 0⟩⟩ 8, .tick]

theorem run_reordered_chain :
    ∃ trace trace', chainForward.run 2 chainActions = .ok trace ∧
      ({ chainForward with rules := chain.rules } : Program).run
        (chainForward.sameTickRules.length * (2 - 1) + 1) chainActions = .ok trace' ∧
      List.Forall₂ (fun a b => b.1.store = a.1.store ∧
        a.2.Matches chainForward.sameTickRules.length b.2) trace trace' := by
  obtain ⟨trace, htrace⟩ : ∃ trace, chainForward.run 2 chainActions = .ok trace := ⟨_, rfl⟩
  have hrules : ∀ r ∈ chainForward.rules, r ∈ chain.rules := fun r hr => List.mem_reverse.1 hr
  obtain ⟨_, hcompletes⟩ : ∃ trace', ({ chainForward with rules := chain.rules } : Program).run
      (chainForward.sameTickRules.length * (2 - 1) + 1) chainActions = .ok trace' := ⟨_, rfl⟩
  obtain ⟨trace', htrace', hsteps⟩ := run_reordered (p := chainForward)
    (List.reverse_perm chain.rules).symm rfl
    (fun r hr => monotone_of_mem_chain r (hrules r (List.mem_filter.1 hr).1))
    (fun r hr => patient_of_mem_chain r (hrules r hr)) htrace
    (fun fault hfault => nomatch hcompletes.symm.trans hfault)
  exact ⟨trace, trace', htrace, htrace', hsteps⟩

end Program

end Ratchet

import Ratchet.Proofs.Program.Mail
import Ratchet.Proofs.Program.Run
import Ratchet.Proofs.Program.Setup

/-!
# What a run keeps

Whatever is done to a program, its declarations stay (`Program.sameSetup_of_perform`).  So do the
contents of a relation that ticks do not reset: it only grows, from each action to all later ones
(`Program.pairwise_get_of_run`).  Nothing is assumed about the rules, and ticks may fail.
-/

namespace Ratchet.Program

variable {p q : Program} {t : RelationType} {h : Handle t} {v : t.Value} {patience : Nat}
  {action : Action} {actions : List Action} {outcome : Outcome} {trace : List (Program × Outcome)}

/-! ## One action -/

/-- An action changes the relations and what waits for them. -/
theorem eq_of_perform (h : p.perform patience action = .ok (q, outcome)) :
    q = { p with store := q.store, pending := q.pending, ticks := q.ticks } ∧
      p.store.SameShape q.store := by
  rcases perform_cases h with ⟨_, _, _, _, ⟨_, hnow⟩ | hnext⟩ | ⟨_, _, htick, _⟩
  · obtain ⟨_, _, hnow⟩ := bind_eq_ok.1 hnow
    obtain ⟨_, hdeposit, heq⟩ := bind_eq_ok.1 hnow
    cases heq
    exact ⟨rfl, (Store.deposit_least hdeposit).1.sameShape⟩
  · obtain ⟨_, _, heq⟩ := bind_eq_ok.1 hnext
    cases heq
    exact ⟨rfl, p.store.below_refl.sameShape⟩
  · obtain ⟨_, _, _, hstart, hpasses, _, heq⟩ := passes_of_tick htick
    exact ⟨heq, (sameShape_start hstart).trans (below_of_passes hpasses).sameShape⟩

theorem sameSetup_of_perform (h : p.perform patience action = .ok (q, outcome)) :
    p.SameSetup q := by
  obtain ⟨heq, hshape⟩ := eq_of_perform h
  rw [heq]
  exact ⟨rfl, rfl, rfl, hshape⟩

/-- A relation that ticks do not reset has grown when the passes start. -/
theorem exists_get_of_start {start : Store} {applied : Nat} (hresets : h.Resets p.store false)
    (hv : p.facts.get h = .ok v)
    (hstart : p.store.resetScratch.depositAll p.id p.pending = .ok (start, applied)) :
    ∃ w, (Facts.mk p.id start).get h = .ok w ∧ Lattice.Below v w := by
  obtain ⟨s, hs, hscratch⟩ := hresets
  have hreset := get_resetScratch hs hv
  rw [hscratch, if_neg Bool.false_ne_true] at hreset
  exact Facts.exists_get (Store.depositAll_least hstart).1 hreset

/-- A relation that ticks do not reset grows with every action. -/
theorem exists_get_of_perform (hresets : h.Resets p.store false) (hv : p.facts.get h = .ok v)
    (hperform : p.perform patience action = .ok (q, outcome)) :
    ∃ w, q.facts.get h = .ok w ∧ Lattice.Below v w := by
  rcases perform_cases hperform with ⟨_, _, _, _, ⟨_, hnow⟩ | hnext⟩ | ⟨_, _, htick, _⟩
  · obtain ⟨_, _, hnow⟩ := bind_eq_ok.1 hnow
    obtain ⟨_, hdeposit, heq⟩ := bind_eq_ok.1 hnow
    cases heq
    exact Facts.exists_get (Store.deposit_least hdeposit).1 hv
  · obtain ⟨_, _, heq⟩ := bind_eq_ok.1 hnext
    cases heq
    exact ⟨v, hv, Lattice.below_refl v⟩
  · obtain ⟨start, _, _, hstart, hpasses, _, heq⟩ := passes_of_tick htick
    obtain ⟨w, hw, hvw⟩ := exists_get_of_start hresets hv hstart
    obtain ⟨x, hx, hwx⟩ := Facts.exists_get (below_of_passes hpasses) hw
    rw [heq]
    exact ⟨x, hx, hvw.trans hwx⟩

/-! ## Runs -/

/-- Every step of a run was made by an action on the same program at an earlier time. -/
theorem exists_perform_of_run (hrun : p.run patience actions = .ok trace)
    {step : Program × Outcome} (hstep : step ∈ trace) :
    ∃ prior action, p.SameSetup prior ∧ prior.perform patience action = .ok step := by
  induction actions generalizing p trace with
  | nil =>
      cases hrun
      cases hstep
  | cons action actions ih =>
      obtain ⟨q, outcome, rest, hperform, hrest, rfl⟩ := run_cons.1 hrun
      rcases List.mem_cons.1 hstep with rfl | hstep
      · exact ⟨p, action, .refl p, hperform⟩
      · obtain ⟨prior, action', hprior, hstep⟩ := ih hrest hstep
        exact ⟨prior, action', (sameSetup_of_perform hperform).trans hprior, hstep⟩

/-- A relation that ticks do not reset only grows in a run. -/
theorem pairwise_get_of_run (hresets : h.Resets p.store false) (hv : p.facts.get h = .ok v)
    (hrun : p.run patience actions = .ok trace) :
    (p :: trace.map Prod.fst).Pairwise fun earlier later => ∃ v w,
      earlier.facts.get h = .ok v ∧ later.facts.get h = .ok w ∧ Lattice.Below v w := by
  induction actions generalizing p v trace with
  | nil =>
      cases hrun
      exact List.pairwise_singleton ..
  | cons action actions ih =>
      obtain ⟨q, outcome, rest, hperform, hrest, rfl⟩ := run_cons.1 hrun
      obtain ⟨w, hw, hvw⟩ := exists_get_of_perform hresets hv hperform
      have hlater := ih (hresets.of_sameShape (sameSetup_of_perform hperform).sameShape) hw hrest
      refine List.pairwise_cons.2 ⟨?_, hlater⟩
      intro later hmem
      -- what has grown from the relation after the first action has grown from it before that
      rcases List.mem_cons.1 hmem with rfl | hmem
      · exact ⟨v, w, hv, hw, hvw⟩
      · obtain ⟨w', x, hw', hx, hwx⟩ := (List.pairwise_cons.1 hlater).1 later hmem
        obtain rfl := Except.ok.inj (hw.symm.trans hw')
        exact ⟨v, x, hv, hx, hvw.trans hwx⟩

/-- A flag that ticks do not reset stays raised. -/
theorem pairwise_flag_of_run {k : Handle .flag} {flag : Flag} (hresets : k.Resets p.store false)
    (hflag : p.facts.get k = .ok flag) (hrun : p.run patience actions = .ok trace) :
    trace.Pairwise fun earlier later =>
      earlier.1.facts.get k = .ok ⟨true⟩ → later.1.facts.get k = .ok ⟨true⟩ := by
  have hgrows := (List.pairwise_cons.1 (pairwise_get_of_run hresets hflag hrun)).2
  refine (List.pairwise_map.1 hgrows).imp ?_
  rintro earlier later ⟨v, w, hv, hw, hvw⟩ htrue
  obtain rfl := Except.ok.inj (hv.symm.trans htrue)
  obtain ⟨b⟩ := w
  obtain rfl : b = true := Flag.value_of_below hvw rfl
  exact hw

/-- What such a relation has after one step of a run is below what it has after all later ones. -/
theorem exists_get_of_suffix {w : t.Value} {rest : List (Program × Outcome)}
    (hresets : h.Resets p.store false) (hv : p.facts.get h = .ok v)
    (hrun : p.run patience actions = .ok trace) (hsuffix : (q, outcome) :: rest <:+ trace)
    (hw : q.facts.get h = .ok w) :
    ∀ step ∈ rest, ∃ x, step.1.facts.get h = .ok x ∧ Lattice.Below w x := by
  intro step hstep
  have hsub : (q :: rest.map Prod.fst).Sublist (p :: trace.map Prod.fst) :=
    (hsuffix.sublist.map Prod.fst).trans (List.sublist_cons_self ..)
  have hpairwise := (pairwise_get_of_run hresets hv hrun).sublist hsub
  obtain ⟨w', x, hw', hx, hwx⟩ :=
    (List.pairwise_cons.1 hpairwise).1 step.1 (List.mem_map_of_mem hstep)
  obtain rfl := Except.ok.inj (hw.symm.trans hw')
  exact ⟨x, hx, hwx⟩

end Ratchet.Program

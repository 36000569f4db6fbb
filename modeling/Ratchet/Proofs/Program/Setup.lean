import Ratchet.Program.Setup
import Ratchet.Proofs.Program.Access

/-!
# What setup scripts leave behind

The steps of a setup script as equations, so that a script can be run on a program whose name and
address are variables.

Ticks and deposits never touch what was declared.  `Program.SameSetup` relates a program to what it
was right after its setup, and what a name stands for is the same for both
(`Program.SameSetup.relation_eq`).
-/

namespace Ratchet

namespace Setup

variable {α β : Type} {p : Program}

@[simp] theorem runOn_pure (a : α) : (pure a : Setup α).runOn p = (.ok a, p) := rfl

@[simp] theorem runOn_bind (x : Setup α) (f : α → Setup β) : (x >>= f).runOn p =
    match x.runOn p with
    | (.ok a, q) => (f a).runOn q
    | (.error e, q) => (.error e, q) := by
  simp only [runOn, ExceptT.run, bind, ExceptT.bind, ExceptT.mk, StateT.bind, StateT.run,
    ExceptT.bindCont]
  cases x p with
  | mk r q => cases r <;> rfl

@[simp] theorem runOn_extend (step : Program → Except ProgramError (Program × α)) :
    (extend step).runOn p =
      match step p with
      | .ok (q, a) => (.ok a, q)
      | .error e => (.error e, p) := by
  unfold extend
  rw [runOn_bind]
  change (match step p with | .ok (q, a) => _ | .error e => _ : Setup α).runOn p = _
  cases step p <;> rfl

@[simp] theorem runOn_addr : addr.runOn p = (.ok p.addr, p) := rfl

end Setup

/-- Names under one scope are as different as what follows the scope. -/
@[simp] theorem scope_append_beq (scope a b : String) :
    (scope ++ a == scope ++ b) = (a == b) := by
  rw [Bool.eq_iff_iff, beq_iff_eq, beq_iff_eq, String.append_right_inj]

/-- The rule that `Setup.join` adds. -/
def joinRule {ρ : Type} {t : RelationType} (sources : List String) (targetName : String)
    (source : Source ρ) (target : Handle t) (timing : Timing)
    (select : Facts → ρ → Except Fault (Option t.Tuple)) : Rule where
  sources := sources
  targetName := targetName
  target := target.id.slot
  mode := .add
  timing := timing
  evaluate := Rule.selectRows source (writing (.add t) select)

/-- The rule that `Setup.joinMerge` adds. -/
def joinMergeRule {ρ : Type} {t : RelationType} (sources : List String) (targetName : String)
    (source : Source ρ) (target : Handle t) (timing : Timing)
    (select : Facts → ρ → Except Fault (Option t.Value)) : Rule where
  sources := sources
  targetName := targetName
  target := target.id.slot
  mode := .merge
  timing := timing
  evaluate := Rule.selectRows source (writing (.merge t) select)

namespace Program

/-- The same program at another time: all that was declared is the same. -/
structure SameSetup (p q : Program) : Prop where
  id_eq : q.id = p.id
  addr_eq : q.addr = p.addr
  rules_eq : q.rules = p.rules
  sameShape : p.store.SameShape q.store

variable {p q r : Program} {id : RelationId} {w : Write} {grew : Bool} {patience : Nat}

theorem SameSetup.refl (p : Program) : p.SameSetup p :=
  ⟨rfl, rfl, rfl, p.store.below_refl.sameShape⟩

theorem SameSetup.trans (hpq : p.SameSetup q) (hqr : q.SameSetup r) : p.SameSetup r where
  id_eq := hqr.id_eq.trans hpq.id_eq
  addr_eq := hqr.addr_eq.trans hpq.addr_eq
  rules_eq := hqr.rules_eq.trans hpq.rules_eq
  sameShape := hpq.sameShape.trans hqr.sameShape

theorem SameSetup.sameTickRules_eq (hpq : p.SameSetup q) : q.sameTickRules = p.sameTickRules :=
  congrArg (List.filter _) hpq.rules_eq

theorem SameSetup.declared {t : RelationType} {h : Handle t} (hpq : p.SameSetup q)
    (hh : h.Declared p.id p.store) : h.Declared q.id q.store :=
  hpq.id_eq ▸ hh.of_sameShape hpq.sameShape

theorem sameSetup_of_depositNext (h : p.depositNext id w = .ok q) : p.SameSetup q := by
  obtain ⟨_, _, heq⟩ := bind_eq_ok.1 h
  cases heq
  exact ⟨rfl, rfl, rfl, p.store.below_refl.sameShape⟩

theorem sameSetup_of_depositNow (h : p.depositNow id w = .ok (q, grew)) : p.SameSetup q := by
  obtain ⟨_, _, h⟩ := bind_eq_ok.1 h
  obtain ⟨⟨store, g⟩, hdeposit, heq⟩ := bind_eq_ok.1 h
  cases heq
  exact ⟨rfl, rfl, rfl, (Store.deposit_least hdeposit).1.sameShape⟩

theorem sameSetup_of_tick {result : Except ProgramError TickReport}
    (h : p.tick patience = .ok (q, result)) : p.SameSetup q := by
  obtain ⟨start, applied, n, hstart, hn, _, heq⟩ := passes_of_tick h
  rw [heq]
  exact ⟨rfl, rfl, rfl, (sameShape_start hstart).trans (below_of_passes hn).sameShape⟩

/-! ## Relations by name -/

variable {t : RelationType} {name : String} {h : Handle t}

theorem SameSetup.relation_eq (h : p.SameSetup q) : q.relation t name = p.relation t name := by
  obtain ⟨hlength, hslots⟩ := h.sameShape
  have hnames : q.store.map Slot.name = p.store.map Slot.name := by
    refine List.ext_getElem (by simp [hlength]) fun i hi hj => ?_
    simp only [List.length_map] at hi hj
    obtain ⟨v, hv⟩ := hslots i p.store[i] q.store[i] (List.getElem?_eq_getElem hj)
      (List.getElem?_eq_getElem hi)
    simp [hv]
  have hfind : q.store.findIdx? (fun s => s.name == name) =
      p.store.findIdx? fun s => s.name == name := by
    have hmap := congrArg (List.findIdx? (· == name)) hnames
    rwa [List.findIdx?_map, List.findIdx?_map] at hmap
  unfold relation
  rw [hfind]
  cases hi : p.store.findIdx? fun s => s.name == name with
  | none => rfl
  | some i =>
      obtain ⟨hi, -⟩ := List.findIdx?_eq_some_iff_getElem.1 hi
      have hs := List.getElem?_eq_getElem hi
      obtain ⟨s', hs'⟩ := Store.exists_of_length_eq hlength hs
      obtain ⟨v, rfl⟩ := hslots i _ s' hs hs'
      simp only [facts, Facts.slot, h.id_eq, hs, hs', if_true, Slot.valueAs, bind, Except.bind]
      by_cases htype : p.store[i].type = t
      · simp only [dif_pos htype]
      · simp only [dif_neg htype]

/-- The handle of a relation leads to a slot with its name and of its type. -/
theorem slot_of_relation (hh : p.relation t name = .ok h) :
    ∃ s, p.store[h.id.slot]? = some s ∧ s.name = name ∧ s.type = t ∧ h.id.program = p.id := by
  unfold relation at hh
  split at hh
  · cases hh
  · next i hi =>
      obtain ⟨s, hslot, hh⟩ := bind_eq_ok.1 hh
      obtain ⟨v, hv, heq⟩ := bind_eq_ok.1 hh
      cases heq
      obtain ⟨_, hs⟩ := Facts.slot_eq_ok.1 hslot
      obtain ⟨htype, _⟩ := Slot.valueAs_eq_ok.1 hv
      obtain ⟨hlt, hname, _⟩ := List.findIdx?_eq_some_iff_getElem.1 hi
      obtain rfl : p.store[i] = s := Option.some.inj ((List.getElem?_eq_getElem hlt).symm.trans hs)
      exact ⟨_, hs, beq_iff_eq.1 hname, htype, rfl⟩

/-- The handle of a relation can be read through. -/
theorem tryGet_of_relation (hh : p.relation t name = .ok h) : ∃ v, p.facts.tryGet h = .ok v := by
  unfold relation at hh
  split at hh
  · cases hh
  · obtain ⟨s, hs, hh⟩ := bind_eq_ok.1 hh
    obtain ⟨v, hv, heq⟩ := bind_eq_ok.1 hh
    cases heq
    exact ⟨v, bind_eq_ok.2 ⟨s, hs, hv⟩⟩

end Program

end Ratchet

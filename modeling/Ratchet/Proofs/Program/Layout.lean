import Mathlib.Data.List.Nodup
import Ratchet.Proofs.Program.Scratch
import Ratchet.Proofs.Program.Setup

/-!
# Programs with one declaration

A declaration leaves handles, relations and rules on a fresh program.  A `Layout` says which ones,
and a program is `Hosted` by it as long as nothing else has been declared.  Running a program only
changes what its relations hold, so it keeps its layout (`Hosted.of_sameSetup`), and what can be
read off the layout holds of the program at any time: its rules, and which relations are scratch.

Each handle of a layout leads to a slot of its own.  So a store can be described by a list of
readings, and assigning through a handle replaces one of them (`Store.Reads.assign`).
-/

namespace Ratchet

/-! ## Layouts -/

/-- What a declaration leaves on a fresh program. -/
structure Layout (α : Type) where
  /-- The handles, on a program with this number. -/
  handles : Nat → α
  /-- The relations, with nothing in them. -/
  slots : Store
  /-- The rules, with these handles and on a program with this address. -/
  rules : α → String → List Rule

namespace Layout

variable {α : Type} {l : Layout α} {a : α} {p q : Program}

/-- The program holds just what the layout says.  This was declared on a fresh program, which has
only run since. -/
structure Hosted (l : Layout α) (a : α) (p : Program) : Prop where
  handles_eq : a = l.handles p.id
  sameShape : l.slots.SameShape p.store
  rules_eq : p.rules = l.rules a p.addr

/-- A program that was just set up is laid out as its script says. -/
theorem hosted_of_runOn {script : Setup α} {id : Nat} {here : String} {limit : Option Nat}
    (hscript : script.runOn (.create id here limit) = (.ok (l.handles id),
      { Program.create id here limit with
        store := l.slots
        rules := l.rules (l.handles id) here }))
    (hrun : script.runOn (.create id here limit) = (.ok a, p)) :
    l.Hosted a p ∧ p.addr = here ∧ p.passLimit = limit ∧ p.pending = [] ∧ p.store = l.slots := by
  obtain ⟨ha, rfl⟩ := Prod.mk.inj (hscript.symm.trans hrun)
  obtain rfl := Except.ok.inj ha
  exact ⟨⟨rfl, l.slots.below_refl.sameShape, rfl⟩, rfl, rfl, rfl, rfl⟩

namespace Hosted

theorem of_sameSetup (hp : l.Hosted a p) (hpq : p.SameSetup q) : l.Hosted a q where
  handles_eq := by rw [hpq.id_eq]; exact hp.handles_eq
  sameShape := hp.sameShape.trans hpq.sameShape
  rules_eq := by rw [hpq.rules_eq, hpq.addr_eq]; exact hp.rules_eq

theorem sameTickRules_eq (hp : l.Hosted a p) :
    p.sameTickRules = (l.rules a p.addr).filter fun r => r.timing = .sameTick := by
  rw [Program.sameTickRules, hp.rules_eq]

theorem nextTickRules_eq (hp : l.Hosted a p) :
    p.nextTickRules = (l.rules a p.addr).filter fun r => r.timing = .nextTick := by
  rw [Program.nextTickRules, hp.rules_eq]

/-- If no relation is declared as scratch, then none is. -/
theorem lasting (hp : l.Hosted a p) (hslots : ∀ s ∈ l.slots, s.scratch = false) :
    ∀ s ∈ p.store, s.scratch = false :=
  hp.sameShape.forall_scratch hslots

end Hosted

end Layout

/-! ## Readings -/

/-- A handle, and what is read through it. -/
structure Reading where
  {type : RelationType}
  handle : Handle type
  value : type.Value

/-- The store gives all these readings, each of them from another slot. -/
structure Store.Reads (program : Nat) (S : Store) (readings : List Reading) : Prop where
  get_eq : readings.Forall fun r => (Facts.mk program S).get r.handle = .ok r.value
  nodup : (readings.map fun r => r.handle.id.slot).Nodup

/-- Assigning changes what is read through the handle, and nothing else. -/
theorem Store.Reads.assign {t : RelationType} {program : Nat} {S : Store}
    (before after : List Reading) {h : Handle t} {v : t.Value}
    (hS : S.Reads program (before ++ ⟨h, v⟩ :: after)) (w : t.Value) :
    (S.assign h w).Reads program (before ++ ⟨h, w⟩ :: after) := by
  obtain ⟨hget, hnodup⟩ := hS
  -- the slot of the handle is not among those of the other readings
  have hne : ∀ r ∈ before ++ after, h.id.slot ≠ r.handle.id.slot := by
    rw [List.map_append, List.map_cons, List.nodup_middle, ← List.map_append] at hnodup
    intro r hr hslot
    exact (List.nodup_cons.1 hnodup).1 (hslot ▸ List.mem_map_of_mem hr)
  rw [List.forall_iff_forall_mem, List.forall_mem_append, List.forall_mem_cons] at hget
  obtain ⟨hbefore, hv, hafter⟩ := hget
  refine ⟨?_, by simpa using hnodup⟩
  rw [List.forall_iff_forall_mem, List.forall_mem_append, List.forall_mem_cons]
  refine ⟨fun r hr => ?_, get_assign_self hv, fun r hr => ?_⟩
  · rw [get_assign_of_ne (hne r (List.mem_append_left _ hr))]
    exact hbefore r hr
  · rw [get_assign_of_ne (hne r (List.mem_append_right _ hr))]
    exact hafter r hr

end Ratchet

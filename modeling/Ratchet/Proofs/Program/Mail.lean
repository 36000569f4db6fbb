import Ratchet.Program.Basic
import Ratchet.Proofs.Program.Access

/-!
# What waits for a tick

Facts that are sent to a program wait in its queue, whichever set they are meant for.  A set that
starts every tick empty holds what waited for it when the passes start, in whatever order and
however often it was sent (`mem_of_start`).

As long as nothing else is in the queue (`Program.OnlyFacts`), the start of a tick does not break
off (`exists_start`), and relations of other types keep their values (`get_of_start`).
-/

namespace Ratchet

/-- Whether the relation of the handle starts every tick from bottom. -/
def Handle.Resets {t : RelationType} (h : Handle t) (S : Store) (resets : Bool) : Prop :=
  ∃ s, S[h.id.slot]? = some s ∧ s.scratch = resets

theorem Handle.Resets.of_sameShape {t : RelationType} {h : Handle t} {S T : Store} {resets : Bool}
    (hh : h.Resets S resets) (hST : S.SameShape T) : h.Resets T resets := by
  obtain ⟨s, hs, hscratch⟩ := hh
  obtain ⟨s', hs'⟩ := Store.exists_of_length_eq hST.1 hs
  obtain ⟨_, rfl⟩ := hST.2 _ s s' hs hs'
  exact ⟨_, hs', hscratch⟩

namespace Program

variable {p q : Program} {t : RelationType} {f g : FactType} {h : Handle (.set f)}
  {k : Handle (.set g)} {x y : f.Carrier}

/-- The facts that wait for a set, in the order of sending. -/
def waiting (p : Program) (h : Handle (.set f)) : List f.Carrier :=
  (p.pending.filter fun d => d.slot = h.id.slot).flatMap fun d => d.write.factsOf f

theorem mem_waiting :
    x ∈ p.waiting h ↔ ∃ d ∈ p.pending, d.slot = h.id.slot ∧ x ∈ d.write.factsOf f := by
  simp [waiting, and_assoc]

/-- Nothing waits but facts for sets of the program. -/
def OnlyFacts (p : Program) : Prop :=
  ∀ d ∈ p.pending, ∃ (f : FactType) (h : Handle (.set f)) (x : f.Carrier),
    h.Declared p.id p.store ∧ d = ⟨h.id.slot, .add (.set f) x⟩

/-! ## Sending -/

theorem send_eq_ok (hh : h.Declared p.id p.store) : p.send h x = .ok q ↔
    q = { p with pending := p.pending ++ [⟨h.id.slot, .add (.set f) x⟩] } := by
  obtain ⟨s, hslot⟩ : ∃ s, p.facts.slot h.id = .ok s := hh.exists_slot
  simp only [send, addNext, depositNext, hslot]
  exact ⟨fun heq => (Except.ok.inj heq).symm, fun heq => congrArg Except.ok heq.symm⟩

section Send

variable (hh : h.Declared p.id p.store) (hsend : p.send h x = .ok q)

include hh hsend

theorem mem_waiting_of_send : y ∈ q.waiting h ↔ y ∈ p.waiting h ∨ y = x := by
  rw [(send_eq_ok hh).1 hsend]
  simp [waiting, Write.factsOf_add]

theorem waiting_of_send_of_ne (hne : h.id.slot ≠ k.id.slot) : q.waiting k = p.waiting k := by
  rw [(send_eq_ok hh).1 hsend]
  simp [waiting, hne]

theorem onlyFacts_of_send (honly : p.OnlyFacts) : q.OnlyFacts := by
  rw [(send_eq_ok hh).1 hsend]
  intro d hd
  rcases List.mem_append.1 hd with hd | hd
  · exact honly d hd
  · exact ⟨f, h, x, hh, List.mem_singleton.1 hd⟩

end Send

/-! ## The start of a tick -/

/-- Facts can be deposited into sets. -/
theorem exists_depositAll_of_declared {program : Nat} {S : Store} {ds : List Deposit}
    (hds : ∀ d ∈ ds, ∃ (f : FactType) (h : Handle (.set f)) (x : f.Carrier),
      h.Declared program S ∧ d = ⟨h.id.slot, .add (.set f) x⟩) :
    ∃ T count, S.depositAll program ds = .ok (T, count) := by
  induction ds generalizing S with
  | nil => exact ⟨S, 0, rfl⟩
  | cons d ds ih =>
      obtain ⟨⟨f, h, x, hdeclared, rfl⟩, hrest⟩ := List.forall_mem_cons.1 hds
      obtain ⟨v, hv⟩ := Handle.declared_iff.1 hdeclared
      have hdeposit : S.deposit program ⟨h.id.slot, .add (.set f) x⟩ = .ok _ :=
        (deposit_add_eq_ok hv).2 ⟨_, rfl, rfl, rfl⟩
      have hshape := (Store.deposit_least hdeposit).1.sameShape
      obtain ⟨T, count, hall⟩ := ih fun d hd => by
        obtain ⟨g, k, y, hk, rfl⟩ := hrest d hd
        exact ⟨g, k, y, hk.of_sameShape hshape, rfl⟩
      exact ⟨T, _, bind_eq_ok.2 ⟨_, hdeposit, bind_eq_ok.2 ⟨_, hall, rfl⟩⟩⟩

theorem exists_start (honly : p.OnlyFacts) :
    ∃ start applied, p.store.resetScratch.depositAll p.id p.pending = .ok (start, applied) := by
  apply exists_depositAll_of_declared
  intro d hd
  obtain ⟨f, h, x, hh, rfl⟩ := honly d hd
  exact ⟨f, h, x, hh.of_sameShape p.store.sameShape_resetScratch, rfl⟩

section Start

variable {start : Store} {applied : Nat}
  (hstart : p.store.resetScratch.depositAll p.id p.pending = .ok (start, applied))

include hstart

/-- A set that starts every tick empty holds what waited for it. -/
theorem mem_of_start {v : GrowSet f.Carrier} (hh : h.Declared p.id p.store)
    (hresets : h.Resets p.store true) (hv : (Facts.mk p.id start).get h = .ok v) :
    x ∈ v ↔ x ∈ p.waiting h := by
  obtain ⟨u, hu⟩ := Handle.declared_iff.1 hh
  obtain ⟨s, hs, hscratch⟩ := hresets
  have hreset := get_resetScratch hs hu
  rw [if_pos hscratch] at hreset
  obtain ⟨w, hw, hmem⟩ := exists_get_of_depositAll hreset hstart
  obtain rfl := Except.ok.inj (hw.symm.trans hv)
  rw [hmem, mem_waiting]
  exact or_iff_right List.not_mem_nil

/-- What is not a set keeps its value if it is not reset. -/
theorem get_of_start {k : Handle t} {v : t.Value} (honly : p.OnlyFacts)
    (ht : ∀ f, t ≠ .set f) (hresets : k.Resets p.store false) (hv : p.facts.get k = .ok v) :
    (Facts.mk p.id start).get k = .ok v := by
  obtain ⟨s, hs, hscratch⟩ := hresets
  have hreset := get_resetScratch hs hv
  rw [if_neg (by simp [hscratch])] at hreset
  refine (get_of_depositAll_of_ne ?_ hstart).trans hreset
  intro d hd heq
  obtain ⟨f, h, x, ⟨_, s', hs', hset⟩, rfl⟩ := honly d hd
  obtain ⟨_, _, hs'', hread⟩ := Facts.get_eq_ok.1 hv
  obtain ⟨htype, _⟩ := Slot.valueAs_eq_ok.1 hread
  dsimp only at heq
  rw [heq, hs''] at hs'
  obtain rfl := Option.some.inj hs'
  exact ht f (htype.symm.trans hset)

end Start

end Program

end Ratchet

import Ratchet.Proofs.Program.Mail

/-!
# What the rules of a tick put in

Everything that the rules of the same tick ask for in the passes of a tick, in the order in which
they ask for it (`Program.derived`).  Together with what waited for the tick it accounts for all
members of a set that starts every tick empty: nothing else can be in there, and nothing of it is
missing (`Program.exists_get_of_tick`).
-/

namespace Ratchet

variable {program : Nat} {r : Rule} {rs : List Rule} {S T : Store} {f : FactType}
  {h : Handle (.set f)} {v : GrowSet f.Carrier} {x : f.Carrier}

/-- The deposits that the rules ask for in a pass. -/
def passDeposits (program : Nat) : List Rule → Store → List Deposit
  | [], _ => []
  | r :: rs, S =>
    match r.consequences ⟨program, S⟩, r.fire program S with
    | .ok ds, .ok T => ds ++ passDeposits program rs T
    | _, _ => []

/-- The deposits that the rules ask for in the passes up to the first one without a change, of
which there are at most `limit`. -/
def settleDeposits (program : Nat) (rules : List Rule) : (limit : Nat) → Store → List Deposit
  | 0, _ => []
  | limit + 1, S =>
    passDeposits program rules S ++
      match pass program rules S with
      | .ok (T, true) => settleDeposits program rules limit T
      | _ => []

/-- The deposits that the rules of the same tick ask for in a tick. -/
def Program.derived (patience : Nat) (p : Program) : List Deposit :=
  match p.store.resetScratch.depositAll p.id p.pending with
  | .ok (start, _) =>
    settleDeposits p.id p.sameTickRules (p.passLimit.getD patience) start
  | .error _ => []

/-- The fact is among those that a deposit of the list puts into the set. -/
def Handle.PutBy (h : Handle (.set f)) (ds : List Deposit) (x : f.Carrier) : Prop :=
  ∃ d ∈ ds, d.slot = h.id.slot ∧ x ∈ d.write.factsOf f

theorem Handle.putBy_append {ds es : List Deposit} :
    h.PutBy (ds ++ es) x ↔ h.PutBy ds x ∨ h.PutBy es x := by
  simp only [PutBy, List.mem_append, or_and_right, exists_or]

theorem exists_get_of_pass {changed : Bool} (hv : (Facts.mk program S).get h = .ok v)
    (hpass : pass program rs S = .ok (T, changed)) :
    ∃ w, (Facts.mk program T).get h = .ok w ∧
      ∀ x, x ∈ w ↔ x ∈ v ∨ h.PutBy (passDeposits program rs S) x := by
  induction rs generalizing S v changed with
  | nil =>
      cases hpass
      exact ⟨v, hv, fun x => by simp [Handle.PutBy, passDeposits]⟩
  | cons r rs ih =>
      obtain ⟨R, more, hfire, hrest, _⟩ := pass_cons hpass
      obtain ⟨ds, count, hds, hall⟩ := Rule.fire_eq_ok.1 hfire
      obtain ⟨u, hu, hput⟩ := exists_get_of_depositAll hv hall
      obtain ⟨w, hw, hmem⟩ := ih hu hrest
      refine ⟨w, hw, ?_⟩
      intro x
      rw [hmem, hput, passDeposits, hds, hfire, Handle.putBy_append, or_assoc]
      rfl

theorem exists_get_of_settle {limit done count : Nat} (hv : (Facts.mk program S).get h = .ok v)
    (hsettle : settle program rs limit done S = .ok (.stable T count)) :
    ∃ w, (Facts.mk program T).get h = .ok w ∧
      ∀ x, x ∈ w ↔ x ∈ v ∨ h.PutBy (settleDeposits program rs limit S) x := by
  induction limit generalizing S v done with
  | zero => cases hsettle
  | succ limit ih =>
      obtain ⟨⟨R, changed⟩, hpass, hsettle⟩ := bind_eq_ok.1 hsettle
      obtain ⟨u, hu, hput⟩ := exists_get_of_pass hv hpass
      rw [settleDeposits, hpass]
      cases changed with
      | false =>
          cases hsettle
          exact ⟨u, hu, fun x => by rw [hput, List.append_nil]⟩
      | true =>
          obtain ⟨w, hw, hmem⟩ := ih hu hsettle
          refine ⟨w, hw, ?_⟩
          intro x
          rw [hmem, hput, Handle.putBy_append, or_assoc]

/-- After a tick, a set that is reset holds what waited for it and what the rules put in. -/
theorem Program.exists_get_of_tick {p q : Program} {patience : Nat} {report : TickReport}
    (hh : h.Declared p.id p.store) (hresets : h.Resets p.store true)
    (htick : p.tick patience = .ok (q, .ok report)) :
    ∃ v, q.facts.get h = .ok v ∧
      ∀ x, x ∈ v ↔ x ∈ p.waiting h ∨ h.PutBy (p.derived patience) x := by
  obtain ⟨start, applied, store, count, queue, hstart, hsettle, _, rfl, _⟩ := tick_eq_ok.1 htick
  obtain ⟨u, hu⟩ := Handle.declared_iff.1 (hh.of_sameShape (sameShape_start hstart))
  obtain ⟨w, hw, hmem⟩ := exists_get_of_settle hu hsettle
  refine ⟨w, hw, ?_⟩
  intro x
  rw [hmem, mem_of_start hstart hh hresets hu, derived, hstart]

section Untargeted

variable {p q : Program} {patience : Nat} {report : TickReport}
  (htick : p.tick patience = .ok (q, .ok report))

include htick

/-- A set that is reset, and that no rule of the same tick writes to, holds what waited for it. -/
theorem Program.exists_get_of_tick_of_ne (hh : h.Declared p.id p.store)
    (hresets : h.Resets p.store true) (hrules : ∀ r ∈ p.sameTickRules, r.target ≠ h.id.slot) :
    ∃ v, q.facts.get h = .ok v ∧ ∀ x, x ∈ v ↔ x ∈ p.waiting h := by
  obtain ⟨start, applied, n, hstart, hpasses, _, heq⟩ := passes_of_tick htick
  obtain ⟨v, hv⟩ := Handle.declared_iff.1 (hh.of_sameShape (sameShape_start hstart))
  have hsame : (Facts.mk p.id q.store).get h = (Facts.mk p.id start).get h :=
    Facts.get_congr (getElem?_of_passes hrules hpasses)
  rw [heq]
  exact ⟨v, hsame.trans hv, fun x => mem_of_start hstart hh hresets hv⟩

/-- Nothing waits after a tick for a set that no rule of the next tick writes to. -/
theorem Program.waiting_of_tick (hrules : ∀ r ∈ p.nextTickRules, r.target ≠ h.id.slot) :
    q.waiting h = [] := by
  obtain ⟨_, _, _, _, queue, _, _, hqueue, rfl, _⟩ := tick_eq_ok.1 htick
  apply List.eq_nil_iff_forall_not_mem.2
  intro x hx
  obtain ⟨d, hd, hslot, _⟩ := mem_waiting.1 hx
  obtain ⟨r, hr, ds, hds, hd⟩ := mem_of_allConsequences hqueue hd
  exact hrules r hr ((Rule.slot_of_mem_consequences hds hd).symm.trans hslot)

end Untargeted

end Ratchet

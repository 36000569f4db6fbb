import Ratchet.Proofs.Program.Run
import Ratchet.Proofs.Program.Setup

/-!
# Deposits that cannot fail

Relations of most types can grow by anything of their type: two registers, two sets and two maps of
such values always have a join.  Only maps of dynamic values may meet a value of another kind
(`RelationType.IsTotal`).  A deposit that is made for a slot of its type (`Deposit.Fits`) and for a
total type never fails, whatever the store holds (`Store.exists_depositAll_of_fits`).

Facts that are deposited through handles of the program fit, and so does what waits from then on
(`Program.AllFit.of_perform`).
-/

namespace Ratchet

/-- Whether any two values of a relation have a join. -/
def RelationType.IsTotal : RelationType → Prop
  | .dynamicMap => False
  | .map v => v.IsTotal
  | _ => True

theorem RelationType.IsTotal.exists_join : {t : RelationType} → t.IsTotal →
    ∀ a b : t.Value, ∃ c, Lattice.join a b = .ok c
  | .max, _, a, b => ⟨a.join b, rfl⟩
  | .maxText, _, a, b => ⟨a.join b, rfl⟩
  | .flag, _, a, b => ⟨a.join b, rfl⟩
  | .set _, _, a, b => ⟨a.union b, rfl⟩
  | .map v, h, a, b => by
    refine StringMap.exists_join_of (m := a) (n := b) ?_
    intro key
    cases a.get? key with
    | none => exact ⟨_, rfl⟩
    | some x =>
        cases b.get? key with
        | none => exact ⟨_, rfl⟩
        | some y =>
            obtain ⟨z, hz⟩ := IsTotal.exists_join (t := v) h x y
            exact ⟨some z, joinOption_some_eq_ok.2 ⟨z, hz, rfl⟩⟩

section Total

variable {t : RelationType} (ht : t.IsTotal)

include ht

theorem RelationType.IsTotal.exists_merge (a b : t.Value) : ∃ r, Lattice.merge a b = .ok r := by
  obtain ⟨c, hjoin⟩ := ht.exists_join a b
  obtain ⟨grew, hmerge⟩ := (LawfulLattice.exactMerge b).exists_merge hjoin
  exact ⟨(c, grew), hmerge⟩

theorem RelationType.IsTotal.exists_add (a : t.Value) (x : t.Tuple) :
    ∃ r, Relation.add a x = .ok r := by
  obtain ⟨b, hb⟩ := LawfulRelation.add_eq_merge (R := t.Value) x
  rw [hb]
  exact ht.exists_merge a b

/-- Any facts can be added to a relation of a total type. -/
theorem RelationType.IsTotal.exists_addAll (a : t.Value) (xs : List t.Tuple) :
    ∃ b, Relation.addAll a xs = .ok b := by
  induction xs generalizing a with
  | nil => exact ⟨a, rfl⟩
  | cons x xs ih =>
      obtain ⟨r, hadd⟩ := ht.exists_add a x
      obtain ⟨b, hrest⟩ := ih r.1
      exact ⟨b, Relation.addAll_cons.2 ⟨r, hadd, hrest⟩⟩

end Total

/-! ## Deposits -/

variable {program : Nat} {S T : Store}

/-- The deposit is made for a slot of its own type. -/
def Deposit.Fits (program : Nat) (S : Store) (d : Deposit) : Prop :=
  ∃ h : Handle d.write.type, h.Declared program S ∧ d.slot = h.id.slot

theorem Deposit.Fits.of_sameShape {d : Deposit} (hd : d.Fits program S) (hST : S.SameShape T) :
    d.Fits program T := by
  obtain ⟨h, hh, hslot⟩ := hd
  exact ⟨h, hh.of_sameShape hST, hslot⟩

theorem Store.exists_deposit_of_fits {d : Deposit} (hd : d.Fits program S)
    (ht : d.write.type.IsTotal) : ∃ T grew, S.deposit program d = .ok (T, grew) := by
  obtain ⟨h, hh, hslot⟩ := hd
  obtain ⟨v, hv⟩ := Handle.declared_iff.1 hh
  obtain ⟨b, hb⟩ := d.write.exists_value
  obtain ⟨r, hmerge⟩ := ht.exists_merge v b
  have hdeposit : S.deposit program d = _ := hslot ▸ deposit_eq hv
  rw [hb, hmerge] at hdeposit
  exact ⟨_, _, hdeposit⟩

theorem Store.exists_depositAll_of_fits {ds : List Deposit}
    (hds : ∀ d ∈ ds, d.Fits program S ∧ d.write.type.IsTotal) :
    ∃ T count, S.depositAll program ds = .ok (T, count) := by
  induction ds generalizing S with
  | nil => exact ⟨S, 0, rfl⟩
  | cons d ds ih =>
      obtain ⟨⟨hfits, htotal⟩, hrest⟩ := List.forall_mem_cons.1 hds
      obtain ⟨R, grew, hdeposit⟩ := exists_deposit_of_fits hfits htotal
      have hshape := (deposit_least hdeposit).1.sameShape
      obtain ⟨T, count, hall⟩ := ih fun e he =>
        ⟨(hrest e he).1.of_sameShape hshape, (hrest e he).2⟩
      exact ⟨T, _, bind_eq_ok.2 ⟨_, hdeposit, bind_eq_ok.2 ⟨_, hall, rfl⟩⟩⟩

/-! ## Actions -/

/-- Deposits are made through handles of the program. -/
def Action.Fits (program : Nat) (S : Store) : Action → Prop
  | .add h _ | .merge h _ | .addNext h _ | .mergeNext h _ => h.Declared program S
  | .tick => True

theorem Action.Fits.of_sameShape {action : Action} (haction : action.Fits program S)
    (hST : S.SameShape T) : action.Fits program T := by
  cases action with
  | tick => trivial
  | add h x => exact Handle.Declared.of_sameShape haction hST
  | merge h v => exact Handle.Declared.of_sameShape haction hST
  | addNext h x => exact Handle.Declared.of_sameShape haction hST
  | mergeNext h v => exact Handle.Declared.of_sameShape haction hST

namespace Program

variable {p q : Program}

/-- Whatever waits for the next tick is made for a slot of its own type. -/
def AllFit (p : Program) : Prop := ∀ d ∈ p.pending, d.Fits p.id p.store

theorem AllFit.of_depositNow {id : RelationId} {w : Write} {grew : Bool} (hp : p.AllFit)
    (h : p.depositNow id w = .ok (q, grew)) : q.AllFit := by
  obtain ⟨_, _, h⟩ := bind_eq_ok.1 h
  obtain ⟨⟨store, _⟩, hdeposit, heq⟩ := bind_eq_ok.1 h
  cases heq
  exact fun d hd => (hp d hd).of_sameShape (Store.deposit_least hdeposit).1.sameShape

theorem AllFit.of_depositNext {w : Write} {h : Handle w.type} (hp : p.AllFit)
    (hh : h.Declared p.id p.store) (hq : p.depositNext h.id w = .ok q) : q.AllFit := by
  obtain ⟨_, _, heq⟩ := bind_eq_ok.1 hq
  cases heq
  intro d hd
  rcases List.mem_append.1 hd with hd | hd
  · exact hp d hd
  · obtain rfl := List.mem_singleton.1 hd
    exact ⟨h, hh, rfl⟩

/-- An action that fits is a tick, or else all that waits after it fits as well. -/
theorem AllFit.of_perform {action : Action} {outcome : Outcome} {patience : Nat} (hp : p.AllFit)
    (haction : action.Fits p.id p.store) (h : p.perform patience action = .ok (q, outcome)) :
    (∃ result, p.tick patience = .ok (q, result)) ∨ q.AllFit := by
  cases action with
  | tick =>
      obtain ⟨⟨_, result⟩, htick, heq⟩ := bind_eq_ok.1 h
      cases heq
      exact .inl ⟨result, htick⟩
  | add handle x =>
      obtain ⟨⟨_, grew⟩, hdeposit, heq⟩ := bind_eq_ok.1 h
      cases heq
      exact .inr (hp.of_depositNow hdeposit)
  | merge handle v =>
      obtain ⟨⟨_, grew⟩, hdeposit, heq⟩ := bind_eq_ok.1 h
      cases heq
      exact .inr (hp.of_depositNow hdeposit)
  | addNext handle x =>
      obtain ⟨_, hdeposit, heq⟩ := bind_eq_ok.1 h
      cases heq
      exact .inr (hp.of_depositNext (w := .add _ x) haction hdeposit)
  | mergeNext handle v =>
      obtain ⟨_, hdeposit, heq⟩ := bind_eq_ok.1 h
      cases heq
      exact .inr (hp.of_depositNext (w := .merge _ v) haction hdeposit)

end Program

end Ratchet

import Ratchet.Proofs.Lattice.Conflict

/-!
# Joins of many values

The join of a list of values, which is absent just for the empty list and may fail otherwise.  It
is the least upper bound of the list, so the order of the values and repetitions do not matter to
whoever only compares bounds.

For values of which any two can be joined it never fails (`Dynamic.exists_joinAll`): what was
joined already is as compatible with a further value as its parts were.
-/

namespace Ratchet

namespace Lattice

variable {α : Type} [Lattice α] {as : List α} {a b : α} {x y : Option α}

/-- The join of all values of a list, if it is not empty. -/
def joinAll : List α → Except Mismatch (Option α)
  | [] => .ok none
  | a :: as => do joinOption join (some a) (← joinAll as)

/-- A value stands there, and it is above `a`. -/
def Bounds (x : Option α) (a : α) : Prop := ∃ b, x = some b ∧ Below a b

theorem joinAll_cons : joinAll (a :: as) = .ok x ↔
    ∃ y, joinAll as = .ok y ∧ joinOption join (some a) y = .ok x := bind_eq_ok

section Lawful

variable [LawfulLattice α]

theorem Bounds.trans (hb : Bounds x b) (hab : Below a b) : Bounds x a := by
  obtain ⟨c, rfl, hbc⟩ := hb
  exact ⟨c, rfl, hab.trans hbc⟩

theorem bounds_joinOption (h : joinOption join (some a) y = .ok x) :
    Bounds x a ∧ ∀ b, y = some b → Bounds x b := by
  cases y with
  | none =>
      obtain rfl := Except.ok.inj h
      exact ⟨⟨a, rfl, below_refl a⟩, nofun⟩
  | some b =>
      obtain ⟨c, hc, rfl⟩ := joinOption_some_eq_ok.1 h
      refine ⟨⟨c, rfl, below_left hc⟩, ?_⟩
      rintro _ ⟨⟩
      exact ⟨c, rfl, below_right hc⟩

/-- A join is above everything that was joined. -/
theorem bounds_of_joinAll (h : joinAll as = .ok x) : ∀ a ∈ as, Bounds x a := by
  induction as generalizing x with
  | nil => nofun
  | cons a as ih =>
      obtain ⟨y, hy, hx⟩ := joinAll_cons.1 h
      obtain ⟨ha, hrest⟩ := bounds_joinOption hx
      refine List.forall_mem_cons.2 ⟨ha, fun b hb => ?_⟩
      obtain ⟨c, hc, hbc⟩ := ih hy b hb
      exact (hrest c hc).trans hbc

/-- A join is below everything that is above all that was joined. -/
theorem joinAll_least (h : joinAll as = .ok (some b)) (hx : ∀ a ∈ as, Bounds x a) :
    Bounds x b := by
  induction as generalizing b with
  | nil => cases h
  | cons a as ih =>
      obtain ⟨y, hy, hb⟩ := joinAll_cons.1 h
      obtain ⟨ha, has⟩ := List.forall_mem_cons.1 hx
      cases y with
      | none =>
          cases hb
          exact ha
      | some c =>
          obtain ⟨d, hd, heq⟩ := joinOption_some_eq_ok.1 hb
          cases heq
          obtain ⟨top, rfl, hatop⟩ := ha
          obtain ⟨_, heq, hctop⟩ := ih hy has
          cases heq
          exact ⟨top, rfl, below_of_join hd hatop hctop⟩

end Lawful

end Lattice

namespace Dynamic

open Ratchet.Lattice

variable {as : List Dynamic} {b c : Dynamic}

/-- A value that can be joined with all values of a list can be joined with their join. -/
theorem exists_join_of_joinAll (h : joinAll as = .ok (some b))
    (hc : ∀ a ∈ as, ∃ d, a.join c = .ok d) : ∃ d, b.join c = .ok d := by
  induction as generalizing b with
  | nil => cases h
  | cons a as ih =>
      obtain ⟨y, hy, hb⟩ := joinAll_cons.1 h
      obtain ⟨hac, has⟩ := List.forall_mem_cons.1 hc
      cases y with
      | none =>
          cases hb
          exact hac
      | some rest =>
          obtain ⟨d, hd, heq⟩ := joinOption_some_eq_ok.1 hb
          cases heq
          exact exists_join_join hd hac (ih hy has)

/-- Values that can be joined pairwise have a join. -/
theorem exists_joinAll (h : ∀ a ∈ as, ∀ b ∈ as, a.conflict? b = none) :
    ∃ x, joinAll as = .ok x := by
  induction as with
  | nil => exact ⟨none, rfl⟩
  | cons a as ih =>
      obtain ⟨y, hy⟩ := ih fun b hb c hc =>
        h b (List.mem_cons_of_mem _ hb) c (List.mem_cons_of_mem _ hc)
      cases y with
      | none => exact ⟨some a, joinAll_cons.2 ⟨none, hy, rfl⟩⟩
      | some b =>
          obtain ⟨d, hd⟩ := exists_join_of_joinAll (c := a) hy fun c hc =>
            conflict?_eq_none_iff.1 (h c (List.mem_cons_of_mem _ hc) a List.mem_cons_self)
          have hab : Lattice.join a b = .ok d := LawfulLattice.join_comm hd
          exact ⟨some d, joinAll_cons.2 ⟨some b, hy, joinOption_some_eq_ok.2 ⟨d, hab, rfl⟩⟩⟩

end Dynamic

end Ratchet

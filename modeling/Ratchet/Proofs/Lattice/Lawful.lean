import Ratchet.Lattice.Basic
import Ratchet.Proofs.Except

/-!
# The laws of lattices

What a join has to satisfy so that growing a value means moving up in an order.  Joining may fail,
so every law speaks about joins that are there: idempotence, commutativity, and associativity,
where one of the two bracketings being there makes the other one be there.

From these laws the joinable pairs get what a semilattice has.  `Lattice.Below` is the order that
joining induces.  A join is the least upper bound of its arguments (`below_left`, `below_right`,
`below_of_join`), and two values below a common one always have a join (`exists_join`): a conflict
never goes away when the values grow.

The growth signal of `Lattice.merge` is required to be exact.  That is what the end of a tick is
decided by.
-/

namespace Ratchet

namespace Lattice

/-- The second value is above the first or equal to it: joining the two gives the second. -/
def Below {α : Type} [Lattice α] (a b : α) : Prop := join a b = .ok b

end Lattice

/-- Merging `b` into any value gives the join of the two, and says that the value grew just if the
join is not the value itself. -/
structure ExactMerge {α : Type} (join : α → α → Except Mismatch α)
    (merge : α → α → Except Mismatch (α × Bool)) (b : α) : Prop where
  /-- What merging gives is the join, with an exact signal. -/
  eq_join : ∀ {a c grew}, merge a b = .ok (c, grew) → join a b = .ok c ∧ (grew = true ↔ c ≠ a)
  exists_merge : ∀ {a c}, join a b = .ok c → ∃ grew, merge a b = .ok (c, grew)

/-- A lattice whose join is a partial semilattice join and whose growth signal is exact. -/
class LawfulLattice (α : Type) [Lattice α] : Prop where
  join_self : ∀ a : α, Lattice.join a a = .ok a
  join_comm : ∀ {a b c : α}, Lattice.join a b = .ok c → Lattice.join b a = .ok c
  join_assoc : ∀ {a b c ab abc : α}, Lattice.join a b = .ok ab → Lattice.join ab c = .ok abc →
    ∃ bc, Lattice.join b c = .ok bc ∧ Lattice.join a bc = .ok abc
  exactMerge : ∀ b : α, ExactMerge Lattice.join Lattice.merge b

/-- A lawful lattice in which adding a fact is merging the value that the fact describes. -/
class LawfulRelation (R : Type) {T : outParam Type} [Relation R T] : Prop
    extends LawfulLattice R where
  add_eq_merge : ∀ t : T, ∃ b : R, ∀ a : R, Relation.add a t = Lattice.merge a b

namespace Lattice

variable {α : Type} [Lattice α] [LawfulLattice α] {a b c d : α}

theorem below_refl (a : α) : Below a a := LawfulLattice.join_self a

theorem Below.trans (hab : Below a b) (hbc : Below b c) : Below a c := by
  obtain ⟨c', hc', hac⟩ := LawfulLattice.join_assoc hab hbc
  obtain rfl : c = c' := Except.ok.inj (hbc.symm.trans hc')
  exact hac

theorem Below.antisymm (hab : Below a b) (hba : Below b a) : a = b :=
  Except.ok.inj (hba.symm.trans (LawfulLattice.join_comm hab))

/-- A join is above its left argument. -/
theorem below_left (h : join a b = .ok c) : Below a c := by
  obtain ⟨c', hc', hac⟩ := LawfulLattice.join_assoc (LawfulLattice.join_self a) h
  obtain rfl : c = c' := Except.ok.inj (h.symm.trans hc')
  exact hac

/-- A join is above its right argument. -/
theorem below_right (h : join a b = .ok c) : Below b c := below_left (LawfulLattice.join_comm h)

/-- Values below a common one have a join, which is below it as well. -/
theorem exists_join (had : Below a d) (hbd : Below b d) : ∃ c, join a b = .ok c ∧ Below c d := by
  obtain ⟨c, hc, hcd⟩ := LawfulLattice.join_assoc (LawfulLattice.join_comm hbd)
    (LawfulLattice.join_comm had)
  exact ⟨c, LawfulLattice.join_comm hc, LawfulLattice.join_comm hcd⟩

/-- A join is below everything that is above both arguments. -/
theorem below_of_join (h : join a b = .ok c) (had : Below a d) (hbd : Below b d) : Below c d := by
  obtain ⟨c', hc', hcd⟩ := exists_join had hbd
  obtain rfl : c = c' := Except.ok.inj (h.symm.trans hc')
  exact hcd

theorem merge_eq_ok {grew : Bool} :
    merge a b = .ok (c, grew) ↔ join a b = .ok c ∧ (grew = true ↔ c ≠ a) := by
  have hexact := LawfulLattice.exactMerge b
  refine ⟨hexact.eq_join, ?_⟩
  rintro ⟨hjoin, hgrew⟩
  obtain ⟨grew', hmerge⟩ := hexact.exists_merge hjoin
  have hsame : grew = grew' := Bool.eq_iff_iff.2 (hgrew.trans (hexact.eq_join hmerge).2.symm)
  rw [hmerge, hsame]

/-- A value into which merging another one changes nothing is above that one. -/
theorem merge_eq_self_iff : merge a b = .ok (a, false) ↔ Below b a := by
  rw [merge_eq_ok]
  constructor
  · rintro ⟨hjoin, _⟩
    exact LawfulLattice.join_comm hjoin
  · intro h
    exact ⟨LawfulLattice.join_comm h, by simp⟩

/-- Three values can be joined in either grouping or in none, with the same result. -/
theorem join_assoc_iff :
    (join a b >>= fun ab => join ab c) = .ok d ↔ (join b c >>= fun bc => join a bc) = .ok d := by
  constructor
  · intro h
    obtain ⟨ab, hab, habc⟩ := bind_eq_ok.1 h
    exact bind_eq_ok.2 (LawfulLattice.join_assoc hab habc)
  · intro h
    obtain ⟨bc, hbc, habc⟩ := bind_eq_ok.1 h
    -- the same law, read from the right
    obtain ⟨ba, hba, hcba⟩ := LawfulLattice.join_assoc (LawfulLattice.join_comm hbc)
      (LawfulLattice.join_comm habc)
    exact bind_eq_ok.2 ⟨ba, LawfulLattice.join_comm hba, LawfulLattice.join_comm hcba⟩

omit [LawfulLattice α] in
/-- The order is what `leq` decides. -/
theorem below_iff_leq [DecidableEq α] : Below a b ↔ leq a b = .ok true := by
  unfold Below leq order
  cases hjoin : join a b with
  | error conflict => simp [bind, Except.bind]
  | ok c =>
      by_cases hb : c = b
      · subst hb
        by_cases ha : c = a <;> simp [bind, Except.bind, pure, Except.pure, ha]
      · by_cases ha : c = a
        · subst ha
          simp [bind, Except.bind, pure, Except.pure, hb]
        · simp [bind, Except.bind, pure, Except.pure, ha, hb]

end Lattice

/-! ## Adding many facts -/

namespace Relation

variable {R T : Type} [Relation R T] {a b : R} {t : T} {ts : List T}

/-- Facts added to a relation one after the other. -/
def addAll (a : R) (ts : List T) : Except Mismatch R :=
  ts.foldlM (fun a t => do return (← add a t).1) a

theorem addAll_nil : addAll a ([] : List T) = .ok b ↔ b = a := by
  constructor
  · intro h
    cases h
    rfl
  · rintro rfl
    rfl

theorem addAll_cons :
    addAll a (t :: ts) = .ok b ↔ ∃ r, add a t = .ok r ∧ addAll r.1 ts = .ok b := by
  unfold addAll
  rw [List.foldlM_cons, bind_eq_ok]
  constructor
  · rintro ⟨c, hc, hrest⟩
    obtain ⟨r, hr, heq⟩ := bind_eq_ok.1 hc
    cases heq
    exact ⟨r, hr, hrest⟩
  · rintro ⟨r, hr, hrest⟩
    exact ⟨r.1, bind_eq_ok.2 ⟨r, hr, rfl⟩, hrest⟩

theorem exists_join_of_add [LawfulRelation R] {r : R × Bool} (h : add a t = .ok r) :
    ∃ b, Lattice.join a b = .ok r.1 ∧ ∀ c, add c t = Lattice.merge c b := by
  obtain ⟨b, hb⟩ := LawfulRelation.add_eq_merge (R := R) t
  rw [hb] at h
  exact ⟨b, ((LawfulLattice.exactMerge b).eq_join h).1, hb⟩

theorem below_of_addAll [LawfulRelation R] (h : addAll a ts = .ok b) : Lattice.Below a b := by
  induction ts generalizing a with
  | nil =>
      obtain rfl := addAll_nil.1 h
      exact Lattice.below_refl b
  | cons t ts ih =>
      obtain ⟨r, hr, hrest⟩ := addAll_cons.1 h
      obtain ⟨c, hjoin, _⟩ := exists_join_of_add hr
      exact (Lattice.below_left hjoin).trans (ih hrest)

/-- A fact that was added describes a value below the result. -/
theorem exists_below_of_addAll [LawfulRelation R] (h : addAll a ts = .ok b) (ht : t ∈ ts) :
    ∃ d, Lattice.Below d b ∧ ∀ e : R, add e t = Lattice.merge e d := by
  induction ts generalizing a with
  | nil => cases ht
  | cons s ts ih =>
      obtain ⟨r, hadd, hrest⟩ := addAll_cons.1 h
      rcases List.mem_cons.1 ht with rfl | ht
      · obtain ⟨d, hjoin, hd⟩ := exists_join_of_add hadd
        exact ⟨d, (Lattice.below_right hjoin).trans (below_of_addAll hrest), hd⟩
      · exact ih hrest ht

/-- Facts that were added before change nothing any more. -/
theorem addAll_of_subset [LawfulRelation R] {c : R} {us : List T} (h : addAll a ts = .ok b)
    (hbc : Lattice.Below b c) (hus : ∀ u ∈ us, u ∈ ts) : addAll c us = .ok c := by
  induction us with
  | nil => rfl
  | cons u us ih =>
      obtain ⟨hu, hus⟩ := List.forall_mem_cons.1 hus
      obtain ⟨d, hdb, hd⟩ := exists_below_of_addAll h hu
      have hkept := Lattice.merge_eq_self_iff.2 (hdb.trans hbc)
      exact addAll_cons.2 ⟨(c, false), (hd c).trans hkept, ih hus⟩

end Relation

end Ratchet

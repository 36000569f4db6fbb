import Ratchet.Proofs.Lattice.Conflict

/-!
# The order that joining induces

No lattice says itself how its values are ordered.  `Lattice.order` joins two values and looks at
which of them came out, and `Lattice.leq` looks at what that gave.  `Lattice.Ordered` says that a
partial order comes of this, with the join of two values as their least upper bound.  The joins may
be partial: what is said about two or three values is said if any two of them can be joined, and
then `leq`, `order` and the join all have an outcome.

All of it comes down to joins (`Ordered.of_below`).  `leq a b` is true just if joining gives `b`;
`order a b` also asks whether joining gives `a`, which has to be the same as whether `b` is below
`a`, although there the two are joined the other way round (`Ordered.join_eq_left_iff`).

A lawful lattice is ordered as soon as pairwise joins make joins of three.  For maps no more than
the order of the values is used.  A map is below another one if its values are, key by key, and a
least upper bound is one at every key; a key that a side does not have leaves the other side's
value as the bound.

## Main result

* `Lattice.order_lawful`: the kinds of lattices, and the maps over any lattice that is ordered,
  with the order of sets, of maps and of dynamically typed sets and maps spelled out.
-/

namespace Ratchet

namespace Lattice

section Order

variable {α : Type} [Lattice α] {a b c : α}

/-- The two values have a join. -/
def Joinable (a b : α) : Prop := ∃ c, join a b = .ok c

variable [DecidableEq α]

/-- How two values stand, from whether the first is below the second and the second below the
first. -/
def standing : Bool → Bool → Option Ordering
  | true, true => some .eq
  | true, false => some .lt
  | false, true => some .gt
  | false, false => none

theorem standing_injective {x y x' y' : Bool} (h : standing x y = standing x' y') :
    x = x' ∧ y = y' := by
  revert x y x' y'
  decide

theorem standing_decide (p q : Prop) [Decidable p] [Decidable q] :
    standing (decide p) (decide q) = if q ∧ p then some .eq else if p then some .lt
      else if q then some .gt else none := by
  by_cases hp : p <;> by_cases hq : q <;> simp [hp, hq, standing]

theorem order_eq_ok {o : Option Ordering} : order a b = .ok o ↔
    ∃ c, join a b = .ok c ∧ o = standing (decide (c = b)) (decide (c = a)) := by
  refine bind_eq_ok.trans (exists_congr fun c => and_congr_right fun _ => ?_)
  rw [standing_decide, eq_comm (a := o)]
  exact iff_of_eq (Except.ok.injEq ..)

theorem leq_eq_ok {x : Bool} :
    leq a b = .ok x ↔ ∃ c, join a b = .ok c ∧ x = decide (c = b) := by
  constructor
  · intro h
    obtain ⟨o, ho, hx⟩ := bind_eq_ok.1 h
    obtain ⟨c, hc, rfl⟩ := order_eq_ok.1 ho
    refine ⟨c, hc, ?_⟩
    revert hx
    cases decide (c = b) <;> cases decide (c = a) <;> exact fun hx => (Except.ok.inj hx).symm
  · rintro ⟨c, hc, rfl⟩
    refine bind_eq_ok.2 ⟨_, order_eq_ok.2 ⟨c, hc, rfl⟩, ?_⟩
    cases decide (c = b) <;> cases decide (c = a) <;> rfl

theorem joinable_of_leq {x : Bool} (h : leq a b = .ok x) : Joinable a b := by
  obtain ⟨c, hc, _⟩ := leq_eq_ok.1 h
  exact ⟨c, hc⟩

variable (α) in
/-- Joining induces a partial order, in which a join is the least value above its two sides. -/
structure Ordered : Prop where
  leq_refl : ∀ a : α, leq a a = .ok true
  leq_trans : ∀ {a b c : α}, leq a b = .ok true → leq b c = .ok true → leq a c = .ok true
  leq_antisymm : ∀ {a b : α}, leq a b = .ok true → leq b a = .ok true → a = b
  /-- Comparing two values says what `leq` says in the two directions. -/
  order_eq : ∀ {a b : α}, Joinable a b →
    ∃ x y, leq a b = .ok x ∧ leq b a = .ok y ∧ order a b = .ok (standing x y)
  /-- A join is below a value just if its two sides are. -/
  join_leq : ∀ {a b c : α}, Joinable a b → Joinable a c → Joinable b c →
    ∃ ab x y, join a b = .ok ab ∧ leq a c = .ok x ∧ leq b c = .ok y ∧ leq ab c = .ok (x && y)

namespace Ordered

/-- The laws of the order, as laws of the join. -/
theorem of_below (refl : ∀ a : α, Below a a)
    (trans : ∀ {a b c : α}, Below a b → Below b c → Below a c)
    (antisymm : ∀ {a b : α}, Below a b → Below b a → a = b)
    (flip : ∀ {a b : α}, Joinable a b → Joinable b a ∧ (join a b = .ok a ↔ Below b a))
    (bound : ∀ {a b c ab : α}, join a b = .ok ab → Joinable a c → Joinable b c →
      Joinable ab c ∧ (Below ab c ↔ Below a c ∧ Below b c)) : Ordered α where
  leq_refl a := below_iff_leq.1 (refl a)
  leq_trans hab hbc := below_iff_leq.1 (trans (below_iff_leq.2 hab) (below_iff_leq.2 hbc))
  leq_antisymm hab hba := antisymm (below_iff_leq.2 hab) (below_iff_leq.2 hba)
  order_eq {a b} h := by
    obtain ⟨⟨c', hc'⟩, hflip⟩ := flip h
    obtain ⟨c, hc⟩ := h
    have hsame : c = a ↔ c' = a := by
      simpa [Below, hc, hc'] using hflip
    refine ⟨_, _, leq_eq_ok.2 ⟨c, hc, rfl⟩, leq_eq_ok.2 ⟨c', hc', rfl⟩, ?_⟩
    rw [← decide_eq_decide.2 hsame]
    exact order_eq_ok.2 ⟨c, hc, rfl⟩
  join_leq {a b c} hab hac hbc := by
    obtain ⟨ab, hab⟩ := hab
    obtain ⟨⟨abc, habc⟩, hbound⟩ := bound hab hac hbc
    obtain ⟨ac, hac⟩ := hac
    obtain ⟨bc, hbc⟩ := hbc
    have hmeet : abc = c ↔ ac = c ∧ bc = c := by
      simpa [Below, hac, hbc, habc] using hbound
    refine ⟨ab, _, _, hab, leq_eq_ok.2 ⟨ac, hac, rfl⟩, leq_eq_ok.2 ⟨bc, hbc, rfl⟩, ?_⟩
    rw [← Bool.decide_and, ← decide_eq_decide.2 hmeet]
    exact leq_eq_ok.2 ⟨abc, habc, rfl⟩

/-- A lawful lattice is ordered if values that can be joined pairwise can be joined all three. -/
theorem of_lawful [LawfulLattice α]
    (exists_join_join : ∀ {a b c ab : α}, join a b = .ok ab → Joinable a c → Joinable b c →
      Joinable ab c) : Ordered α := by
  refine .of_below below_refl Below.trans Below.antisymm ?_ ?_
  · rintro a b ⟨c, hc⟩
    exact ⟨⟨c, LawfulLattice.join_comm hc⟩, LawfulLattice.join_comm, LawfulLattice.join_comm⟩
  · intro a b c ab hab hac hbc
    refine ⟨exists_join_join hab hac hbc, ?_, fun h => below_of_join hab h.1 h.2⟩
    intro h
    exact ⟨(below_left hab).trans h, (below_right hab).trans h⟩

variable (hα : Ordered α)

include hα

theorem joinable_symm (h : Joinable a b) : Joinable b a := by
  obtain ⟨_, _, _, hleq, _⟩ := hα.order_eq h
  exact joinable_of_leq hleq

/-- Joining gives the left value just if the right one is below it. -/
theorem join_eq_left_iff (h : Joinable a b) : join a b = .ok a ↔ join b a = .ok a := by
  obtain ⟨x, y, _, hba, horder⟩ := hα.order_eq h
  obtain ⟨c, hc, hstanding⟩ := order_eq_ok.1 horder
  obtain ⟨c', hc', rfl⟩ := leq_eq_ok.1 hba
  obtain ⟨_, hsame⟩ := standing_injective hstanding
  rw [hc, hc', Except.ok.injEq, Except.ok.injEq]
  exact decide_eq_decide.1 hsame.symm

theorem joinable_join {ab : α} (hab : join a b = .ok ab) (hac : Joinable a c)
    (hbc : Joinable b c) : Joinable ab c := by
  obtain ⟨ab', _, _, hab', _, _, hleq⟩ := hα.join_leq ⟨ab, hab⟩ hac hbc
  obtain rfl := Except.ok.inj (hab.symm.trans hab')
  exact joinable_of_leq hleq

theorem join_below_iff {ab : α} (hab : join a b = .ok ab) (hac : Joinable a c)
    (hbc : Joinable b c) : Below ab c ↔ Below a c ∧ Below b c := by
  obtain ⟨ab', x, y, hab', hx, hy, hleq⟩ := hα.join_leq ⟨ab, hab⟩ hac hbc
  obtain rfl := Except.ok.inj (hab.symm.trans hab')
  rw [below_iff_leq, below_iff_leq, below_iff_leq, hx, hy, hleq]
  simp

end Ordered

end Order

end Lattice

open Ratchet.Lattice

/-! ## Maps -/

namespace StringMap

variable {V : Type} [Lattice V] {m n l mn : StringMap V}

theorem joinable_iff : Joinable m n ↔
    ∀ k a b, m.get? k = some a → n.get? k = some b → Joinable a b :=
  exists_join_iff

theorem leq_iff [DecidableEq V] : leq m n = .ok true ↔
    ∀ k a, m.get? k = some a → ∃ b, n.get? k = some b ∧ leq a b = .ok true := by
  simp only [← below_iff_leq]
  exact below_iff

variable [DecidableEq V] (hV : Ordered V)

include hV

theorem join_eq_left_iff_of_ordered (h : Joinable m n) : m.join n = .ok m ↔ n.join m = .ok m := by
  rw [join_eq_ok, join_eq_ok]
  refine forall_congr' fun k => ?_
  cases ha : m.get? k with
  | none => rw [joinOption_none_right]; rfl
  | some a =>
      cases hb : n.get? k with
      | none => exact iff_of_true joinOption_none_right rfl
      | some b =>
          have hswap := hV.join_eq_left_iff (joinable_iff.1 h k a b ha hb)
          simpa [joinOption_some_eq_ok] using hswap

/-- A join of maps is below a map just if the two sides are. -/
theorem join_below_iff_of_ordered (hmn : m.join n = .ok mn) (hml : Joinable m l)
    (hnl : Joinable n l) : Below mn l ↔ Below m l ∧ Below n l := by
  change mn.join l = .ok l ↔ m.join l = .ok l ∧ n.join l = .ok l
  rw [join_eq_ok, join_eq_ok, join_eq_ok, ← forall_and]
  refine forall_congr' fun k => ?_
  have hk := join_eq_ok.1 hmn k
  cases ha : m.get? k with
  | none =>
      -- the join has at this key what the right side has
      rw [ha] at hk
      rw [← Except.ok.inj hk]
      exact (and_iff_right rfl).symm
  | some a =>
      rw [ha] at hk
      cases hb : n.get? k with
      | none =>
          rw [hb] at hk
          rw [← Except.ok.inj hk]
          exact (and_iff_left rfl).symm
      | some b =>
          rw [hb] at hk
          obtain ⟨ab, hab, heq⟩ := joinOption_some_eq_ok.1 hk
          rw [heq]
          cases hc : l.get? k with
          | none => simp
          | some c =>
              have hbound := hV.join_below_iff hab (joinable_iff.1 hml k a c ha hc)
                (joinable_iff.1 hnl k b c hb hc)
              simpa [joinOption_some_eq_ok, Below] using hbound

/-- Maps are ordered if their values are. -/
theorem ordered_of_ordered : Ordered (StringMap V) := by
  refine .of_below ?_ ?_ ?_ ?_ ?_
  · intro m
    refine below_iff.2 fun k a ha => ⟨a, ha, below_iff_leq.2 (hV.leq_refl a)⟩
  · intro m n l hmn hnl
    refine below_iff.2 fun k a ha => ?_
    obtain ⟨b, hb, hab⟩ := below_iff.1 hmn k a ha
    obtain ⟨c, hc, hbc⟩ := below_iff.1 hnl k b hb
    exact ⟨c, hc, below_iff_leq.2 (hV.leq_trans (below_iff_leq.1 hab) (below_iff_leq.1 hbc))⟩
  · intro m n hmn hnm
    refine ext_get? fun k => ?_
    cases ha : m.get? k with
    | none =>
        cases hb : n.get? k with
        | none => rfl
        | some b =>
            obtain ⟨a, ha', _⟩ := below_iff.1 hnm k b hb
            cases ha.symm.trans ha'
    | some a =>
        obtain ⟨b, hb, hab⟩ := below_iff.1 hmn k a ha
        obtain ⟨a', ha', hba⟩ := below_iff.1 hnm k b hb
        obtain rfl := Option.some.inj (ha.symm.trans ha')
        rw [hb, hV.leq_antisymm (below_iff_leq.1 hab) (below_iff_leq.1 hba)]
  · intro m n h
    have hflip : Joinable n m :=
      joinable_iff.2 fun k b a hb ha => hV.joinable_symm (joinable_iff.1 h k a b ha hb)
    exact ⟨hflip, join_eq_left_iff_of_ordered hV h⟩
  · intro m n l mn hmn hml hnl
    refine ⟨?_, join_below_iff_of_ordered hV hmn hml hnl⟩
    exact exists_join_join_of (fun k a _ b c ab hab hac hbc => hV.joinable_join hab hac hbc)
      hmn hml hnl

end StringMap

/-! ## The kinds of lattices -/

theorem GrowSet.leq_iff {T : Type} [Element T] {s t : GrowSet T} :
    leq s t = .ok true ↔ ∀ x ∈ s, x ∈ t :=
  below_iff_leq.symm.trans below_iff

/-- The values of one kind are ordered as in the lattice that they stand for. -/
theorem Dynamic.Embeds.leq_iff {L : Type} [Lattice L] [DecidableEq L] {embed : L → Dynamic}
    (he : Embeds embed) {x y : L} : leq (embed x) (embed y) = .ok true ↔ leq x y = .ok true := by
  rw [← below_iff_leq, ← below_iff_leq]
  refine he.join_eq_ok.trans ⟨?_, fun h => ⟨y, y, rfl, h, rfl⟩⟩
  rintro ⟨y', z, hy, hjoin, hz⟩
  obtain rfl := he.injective _ _ hy
  obtain rfl := he.injective _ _ hz
  exact hjoin

/-- The order of a lattice is a partial order with the joins as least upper bounds: in sets, in
registers, in flags, in maps over whatever lattice this is true of, and in values of any kind.
Sets, registers and flags can always be joined, maps just if the values at the keys that they share
can be, and values of any kind just if they do not conflict.

A set is below another one if it is a subset, and a map if all its keys are there with a greater or
equal value; the same is true of values that are sets and maps. -/
theorem Lattice.order_lawful :
    (∀ (T : Type) [Element T], Ordered (GrowSet T) ∧ (∀ s t : GrowSet T, Joinable s t) ∧
      ∀ s t : GrowSet T, leq s t = .ok true ↔ ∀ x ∈ s, x ∈ t) ∧
    (Ordered MaxInt ∧ ∀ a b : MaxInt, Joinable a b) ∧
    (Ordered MaxText ∧ ∀ a b : MaxText, Joinable a b) ∧
    (Ordered Flag ∧ ∀ a b : Flag, Joinable a b) ∧
    (∀ (V : Type) [DecidableEq V] [Lattice V], Ordered V → Ordered (StringMap V) ∧
      (∀ m n : StringMap V, Joinable m n ↔
        ∀ key a b, m.get? key = some a → n.get? key = some b → Joinable a b) ∧
      ∀ m n : StringMap V, leq m n = .ok true ↔
        ∀ key a, m.get? key = some a → ∃ b, n.get? key = some b ∧ leq a b = .ok true) ∧
    (Ordered Dynamic ∧ (∀ a b : Dynamic, Joinable a b ↔ a.conflict? b = none) ∧
      (∀ s t, leq (Dynamic.ofSet s) (Dynamic.ofSet t) = .ok true ↔ ∀ x ∈ s, x ∈ t) ∧
      ∀ m n, leq (Dynamic.ofMap m) (Dynamic.ofMap n) = .ok true ↔
        ∀ key a, m.get? key = some a → ∃ b, n.get? key = some b ∧ leq a b = .ok true) := by
  refine ⟨?_, ⟨.of_lawful fun _ _ _ => ⟨_, rfl⟩, fun a b => ⟨_, rfl⟩⟩,
    ⟨.of_lawful fun _ _ _ => ⟨_, rfl⟩, fun a b => ⟨_, rfl⟩⟩,
    ⟨.of_lawful fun _ _ _ => ⟨_, rfl⟩, fun a b => ⟨_, rfl⟩⟩, ?_, ?_⟩
  · intro T _
    exact ⟨.of_lawful fun _ _ _ => ⟨_, rfl⟩, fun s t => ⟨_, rfl⟩, fun s t => GrowSet.leq_iff⟩
  · intro V _ _ hV
    exact ⟨StringMap.ordered_of_ordered hV, fun m n => StringMap.joinable_iff,
      fun m n => StringMap.leq_iff⟩
  · exact ⟨.of_lawful Dynamic.exists_join_join, fun a b => Dynamic.conflict?_eq_none_iff.symm,
      fun s t => Dynamic.embeds_ofSet.leq_iff.trans GrowSet.leq_iff,
      fun m n => Dynamic.embeds_ofMap.leq_iff.trans StringMap.leq_iff⟩

/-- Two maps of maps that differ in a key of their own are not comparable; their join is below a
map that has both keys, and not below one that has a smaller integer at one of them. -/
theorem Lattice.order_lawful_nested :
    let m : StringMap (StringMap MaxInt) := .singleton "left" (.singleton "low" ⟨3⟩)
    let n : StringMap (StringMap MaxInt) := .singleton "right" (.singleton "low" ⟨5⟩)
    let above := m.put "right" (.singleton "low" ⟨9⟩)
    let beside := m.put "right" (.singleton "low" ⟨4⟩)
    Ordered (StringMap MaxInt) ∧ order m n = .ok none ∧ order m above = .ok (some .lt) ∧
      (∃ mn, join m n = .ok mn ∧ leq mn above = .ok true) ∧
      ∃ mn, join m n = .ok mn ∧ leq mn beside = .ok false := by
  intro m n above beside
  obtain ⟨_, ⟨hint, _⟩, _, _, hmap, _⟩ := order_lawful
  have hinner : Ordered (StringMap MaxInt) := (hmap MaxInt hint).1
  obtain ⟨houter, hjoinable, _⟩ := hmap (StringMap MaxInt) hinner
  have hleq : leq m n = .ok false := by decide +kernel
  have hgeq : leq n m = .ok false := by decide +kernel
  have hmabove : leq m above = .ok true := by decide +kernel
  have hnabove : leq n above = .ok true := by decide +kernel
  have hmbeside : leq m beside = .ok true := by decide +kernel
  have hnbeside : leq n beside = .ok false := by decide +kernel
  have hmn : Joinable m n := joinable_of_leq hleq
  refine ⟨hinner, ?_, by decide +kernel, ?_, ?_⟩
  · obtain ⟨x, y, hx, hy, horder⟩ := houter.order_eq hmn
    obtain rfl := Except.ok.inj (hleq.symm.trans hx)
    obtain rfl := Except.ok.inj (hgeq.symm.trans hy)
    exact horder
  · obtain ⟨mn, x, y, hjoin, hx, hy, hbound⟩ :=
      houter.join_leq hmn (joinable_of_leq hmabove) (joinable_of_leq hnabove)
    obtain rfl := Except.ok.inj (hmabove.symm.trans hx)
    obtain rfl := Except.ok.inj (hnabove.symm.trans hy)
    exact ⟨mn, hjoin, hbound⟩
  · obtain ⟨mn, x, y, hjoin, hx, hy, hbound⟩ :=
      houter.join_leq hmn (joinable_of_leq hmbeside) (joinable_of_leq hnbeside)
    obtain rfl := Except.ok.inj (hmbeside.symm.trans hx)
    obtain rfl := Except.ok.inj (hnbeside.symm.trans hy)
    exact ⟨mn, hjoin, hbound⟩

end Ratchet

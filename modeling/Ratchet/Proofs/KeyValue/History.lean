import Ratchet.Proofs.KeyValue.Fold
import Ratchet.Proofs.Lattice.JoinAll

/-!
# Maps that gather puts

A map gathers a list of puts if every key has the join of the values that were put under it.  It
is the least map that holds all of them, so it only depends on which puts there are
(`Gathers.unique`).

Folding drops a write that conflicts, which would lose a value.  Where a map above the stored one
holds all the writes, none of them conflicts: the fold stays below that map and holds every write
itself (`fold_spec`).  Nothing is said there about the order of the writes, nor about where they
come from, so a write may be a single put or the value of a key in somebody's snapshot.
-/

namespace Ratchet.KeyValue

open Ratchet.Lattice

variable {stored upper M N : StringMap Dynamic} {key : String} {value : Dynamic}
  {puts others : List Put} {put : Put}

/-! ## What a map holds -/

/-- The value is below the one that the map has for the key. -/
def Holds (M : StringMap Dynamic) (key : String) (value : Dynamic) : Prop :=
  Bounds (M.get? key) value

/-- The map holds all the puts. -/
def HoldsAll (M : StringMap Dynamic) (puts : List Put) : Prop :=
  ∀ put ∈ puts, Holds M put.key put.value

theorem Holds.of_below (h : Holds stored key value) (hbelow : Below stored upper) :
    Holds upper key value := by
  obtain ⟨held, hheld, hvalue⟩ := h
  obtain ⟨last, hlast, hle⟩ := StringMap.below_iff.1 hbelow key held hheld
  exact ⟨last, hlast, hvalue.trans hle⟩

/-- A map that a write leaves as it is, but would not refuse, holds the value already. -/
theorem holds_of_accepts (hsame : write M key value = M) (h : accepts M key value = true) :
    Holds M key value := by
  rcases write_cases M key value with ⟨_, hholds⟩ | ⟨hrefused, _⟩
  · rwa [hsame] at hholds
  · cases h.symm.trans hrefused

/-- A map holds its own values. -/
theorem holds_self (h : M.get? key = some value) : Holds M key value :=
  ⟨value, h, below_refl value⟩

/-! ## Folding below a map -/

/-- A write that a map above holds is accepted, and the result is below that map as well. -/
theorem write_spec (hstored : Below stored upper) (hwrite : Holds upper key value) :
    Below (write stored key value) upper ∧ Holds (write stored key value) key value := by
  obtain ⟨top, htop, hvalue⟩ := hwrite
  constructor
  · apply StringMap.below_iff.2
    intro k a ha
    by_cases hk : k = key
    · subst hk
      refine ⟨top, htop, ?_⟩
      unfold write at ha
      cases hold : stored.get? k with
      | none =>
          rw [hold, StringMap.get?_put_self] at ha
          cases ha
          exact hvalue
      | some old =>
          obtain ⟨_, heq, hle⟩ := StringMap.below_iff.1 hstored k old hold
          cases htop.symm.trans heq
          rw [hold] at ha
          cases hjoin : old.join value with
          | ok joined =>
              simp only [hjoin, StringMap.get?_put_self] at ha
              cases ha
              exact below_of_join hjoin hle hvalue
          | error conflict =>
              simp only [hjoin, hold] at ha
              cases ha
              exact hle
    · rw [get?_write_of_ne hk] at ha
      exact StringMap.below_iff.1 hstored k a ha
  · rcases write_cases stored key value with ⟨_, hnew⟩ | ⟨_, _, old, hold, hconflict⟩
    · exact hnew
    · -- what is stored and the value are both below that of the map above
      obtain ⟨_, heq, hle⟩ := StringMap.below_iff.1 hstored key old hold
      cases htop.symm.trans heq
      obtain ⟨joined, hjoin, _⟩ := exists_join hle hvalue
      exact absurd ⟨joined, hjoin⟩ hconflict

/-- Writes that a map above holds are all held after folding them, and the result is below that
map. -/
theorem fold_spec {writes : List (String × Dynamic)} (hstored : Below stored upper)
    (hwrites : ∀ w ∈ writes, Holds upper w.1 w.2) :
    Below (fold stored writes) upper ∧ ∀ w ∈ writes, Holds (fold stored writes) w.1 w.2 := by
  induction writes generalizing stored with
  | nil => exact ⟨hstored, nofun⟩
  | cons w writes ih =>
      obtain ⟨hw, hrest⟩ := List.forall_mem_cons.1 hwrites
      obtain ⟨hbelow, hheld⟩ := write_spec hstored hw
      obtain ⟨hfold, hall⟩ := ih hbelow hrest
      exact ⟨hfold, List.forall_mem_cons.2 ⟨hheld.of_below below_fold, hall⟩⟩

/-! ## Gathering -/

/-- The values that are put under a key. -/
def valuesAt (key : String) (puts : List Put) : List Dynamic :=
  (puts.filter fun put => put.key = key).map Put.value

/-- Every key has the join of the values that are put under it, and no value if there is none. -/
def Gathers (M : StringMap Dynamic) (puts : List Put) : Prop :=
  ∀ key, joinAll (valuesAt key puts) = .ok (M.get? key)

/-- Puts under one key can be merged with each other. -/
def Mergeable (puts : List Put) : Prop :=
  ∀ a ∈ puts, ∀ b ∈ puts, a.key = b.key → a.value.conflict? b.value = none

instance : Decidable (Mergeable puts) :=
  inferInstanceAs (Decidable (∀ a ∈ puts, ∀ b ∈ puts,
    a.key = b.key → a.value.conflict? b.value = none))

theorem mem_valuesAt :
    value ∈ valuesAt key puts ↔ ∃ put ∈ puts, put.key = key ∧ put.value = value := by
  simp [valuesAt, and_assoc]

theorem Gathers.holdsAll (h : Gathers M puts) : HoldsAll M puts := by
  intro put hput
  exact bounds_of_joinAll (h put.key) put.value (mem_valuesAt.2 ⟨put, hput, rfl, rfl⟩)

/-- What gathers puts is below every map that holds them. -/
theorem Gathers.below (h : Gathers M puts) (hN : HoldsAll N puts) : Below M N := by
  apply StringMap.below_iff.2
  intro key a ha
  refine joinAll_least ((h key).trans (congrArg _ ha)) ?_
  intro value hvalue
  obtain ⟨put, hput, rfl, rfl⟩ := mem_valuesAt.1 hvalue
  exact hN put hput

/-- Only which puts are gathered matters, not in which order and how often. -/
theorem Gathers.unique (hM : Gathers M puts) (hN : Gathers N others)
    (hmem : ∀ put, put ∈ puts ↔ put ∈ others) : M = N :=
  (hM.below fun put hput => hN.holdsAll put ((hmem put).1 hput)).antisymm
    (hN.below fun put hput => hM.holdsAll put ((hmem put).2 hput))

/-- One put more is joined at its key, and nowhere else. -/
theorem joinAll_valuesAt_cons : joinAll (valuesAt key (put :: puts)) =
    joinAll (valuesAt key puts) >>=
      joinOption join ((StringMap.singleton put.key put.value).get? key) := by
  unfold valuesAt
  rw [StringMap.get?_singleton]
  by_cases hkey : put.key = key
  · simp only [List.filter_cons, hkey, decide_true, if_true]
    rfl
  · simp only [List.filter_cons, hkey, decide_false, Bool.false_eq_true, if_false, Ne.symm hkey]
    cases joinAll ((puts.filter fun put => put.key = key).map Put.value) <;> rfl

/-- Mergeable puts can be gathered. -/
theorem exists_gathers (h : Mergeable puts) : ∃ M, Gathers M puts := by
  have hjoins : ∀ key, ∃ x, joinAll (valuesAt key puts) = .ok x := by
    intro key
    apply Dynamic.exists_joinAll
    intro a ha b hb
    obtain ⟨put, hput, rfl, rfl⟩ := mem_valuesAt.1 ha
    obtain ⟨other, hother, hkey, rfl⟩ := mem_valuesAt.1 hb
    exact h put hput other hother hkey.symm
  clear h
  -- there is a join for every key, and what is left is to find the keys
  induction puts with
  | nil => exact ⟨.empty, fun _ => rfl⟩
  | cons put puts ih =>
      have hrest : ∀ key, ∃ x, joinAll (valuesAt key puts) = .ok x := by
        intro key
        obtain ⟨_, hx⟩ := hjoins key
        obtain ⟨y, hy, _⟩ := bind_eq_ok.1 (joinAll_valuesAt_cons.symm.trans hx)
        exact ⟨y, hy⟩
      obtain ⟨M, hM⟩ := ih hrest
      have hjoin : ∀ key, joinAll (valuesAt key (put :: puts)) =
          joinOption join ((StringMap.singleton put.key put.value).get? key) (M.get? key) := by
        intro key
        rw [joinAll_valuesAt_cons, hM key]
        rfl
      obtain ⟨N, hN⟩ := StringMap.exists_join_of fun key => by
        rw [← hjoin key]
        exact hjoins key
      exact ⟨N, fun key => (hjoin key).trans (StringMap.join_eq_ok.1 hN key)⟩

end Ratchet.KeyValue

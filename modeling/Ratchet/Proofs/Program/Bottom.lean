import Ratchet.Proofs.Lattice.Ordered
import Ratchet.Proofs.Program.Requests

/-!
# Bottom

Every relation starts from bottom, and a scratch relation goes back there.  What is merged into it
then should be what it holds, so bottom should be neutral: joined with a value from either side it
gives that value, and it is below it (`Neutral`).

In a lawful lattice it is enough that bottom is below the value (`Neutral.of_below`).  Maps are
neutral over any values at all, lawful or not, because in the empty map no key is found and so no
two values are ever joined (`merge_empty`).

Integer registers are the exception.  They start from zero but can be built below it, and from there
the joins with bottom go up to zero.  `RelationType.StartsBelow` keeps these values apart, and
`JustStarted.exists_merge` says that no others are changed on their way into a relation at bottom.

## Main result

* `Relation.bottom_neutral`: sets, maps, texts, flags and integers from zero on; and what merging
  into a declared or reset relation leaves.
-/

namespace Ratchet

open Ratchet.Lattice

namespace Relation

variable {R T : Type} [Relation R T] [DecidableEq R] {a : R}

/-- Bottom takes nothing away from a value and adds nothing to it. -/
structure Neutral (a : R) : Prop where
  join_bottom : join a bottom = .ok a
  bottom_join : join bottom a = .ok a
  bottom_leq : leq bottom a = .ok true
  /-- Merged into a relation that has just started, the value is what the relation holds. -/
  merge_bottom : ∃ grew, merge bottom a = .ok (a, grew) ∧ (grew = true ↔ a ≠ bottom)

theorem Neutral.of_below [LawfulRelation R] (h : Below bottom a) : Neutral a where
  join_bottom := LawfulLattice.join_comm h
  bottom_join := h
  bottom_leq := below_iff_leq.1 h
  merge_bottom := ⟨decide (a ≠ bottom), merge_eq_ok.2 ⟨h, decide_eq_true_iff⟩, decide_eq_true_iff⟩

end Relation

open Ratchet.Relation

/-! ## Maps -/

namespace StringMap

variable {V : Type}

/-- Entries above all others go to the end, one after the other. -/
theorem mergeEntries_of_gt {merge : V → V → Except Mismatch (V × Bool)}
    {es fs : List (String × V)} (h : AscendingKeys (es ++ fs)) :
    mergeEntries merge es fs = .ok (es ++ fs, !fs.isEmpty) := by
  induction fs generalizing es with
  | nil => simp [mergeEntries]
  | cons f fs ih =>
      obtain ⟨key, value⟩ := f
      have hbelow : ∀ e ∈ es, compare e.1 key = .lt := fun e he =>
        (List.pairwise_append.1 h).2.2 e he _ List.mem_cons_self
      have hgrow : growEntry key value (fun old => merge old value) es =
          .ok (es ++ [(key, value)], true) := by
        unfold growEntry
        rw [lookup_eq_none_of_gt hbelow, putEntry_of_gt hbelow]
      have hrest : mergeEntries merge (es ++ [(key, value)]) fs =
          .ok (es ++ (key, value) :: fs, !fs.isEmpty) := by
        have happend : es ++ (key, value) :: fs = es ++ [(key, value)] ++ fs := List.append_cons ..
        rw [happend] at h ⊢
        exact ih h
      rw [mergeEntries, hgrow]
      change mergeEntries merge (es ++ [(key, value)]) fs >>= _ = _
      rw [hrest]
      rfl

variable [Lattice V] {m : StringMap V}

theorem merge_empty : empty.merge m = .ok (m, !m.isEmpty) := by
  refine eq_of_map_eq (f := Prod.map entries id) ?_ ?_
  · rintro ⟨m, _⟩ ⟨n, _⟩ h
    obtain ⟨hentries, hgrew⟩ := Prod.mk.inj h
    exact Prod.ext (entries_injective hentries) hgrew
  · rw [map_entries_merge]
    exact mergeEntries_of_gt m.ascending

/-- The empty map is neutral, whatever the values of a map are. -/
theorem neutral [DecidableEq V] (m : StringMap V) : Neutral m where
  join_bottom := join_eq_ok.2 fun _ => joinOption_none_right
  bottom_join := join_eq_ok.2 fun _ => rfl
  bottom_leq := below_iff_leq.1 (below_iff.2 nofun)
  merge_bottom := by
    refine ⟨!m.isEmpty, merge_empty, ?_⟩
    have hempty : m.isEmpty = true ↔ m = empty :=
      List.isEmpty_iff.trans ⟨fun h => entries_injective h, fun h => h ▸ rfl⟩
    rw [Bool.not_eq_true', ← Bool.not_eq_true, hempty]
    rfl

end StringMap

/-! ## Sets, flags and registers -/

theorem GrowSet.bottom_below {α : Type} [Element α] (s : GrowSet α) : Below bottom s :=
  below_iff.2 nofun

theorem Flag.bottom_below (b : Flag) : Below bottom b := rfl

theorem MaxText.bottom_below (a : MaxText) : Below bottom a := by
  obtain ⟨text⟩ := a
  by_cases hlt : "" < text
  · exact congrArg Except.ok (if_pos hlt)
  · have hempty : text = "" := by
      by_contra hne
      refine hlt ?_
      change [] < text.toList
      cases hchars : text.toList with
      | nil => exact absurd (String.toList_eq_nil_iff.1 hchars) hne
      | cons c cs => exact List.nil_lt_cons c cs
    rw [hempty]
    exact below_refl _

theorem MaxInt.bottom_below {a : MaxInt} (h : 0 ≤ a.value) : Below bottom a := by
  obtain ⟨n⟩ := a
  by_cases hlt : 0 < n
  · exact congrArg Except.ok (if_pos hlt)
  · obtain rfl := Int64.le_antisymm h (Int64.not_lt.1 hlt)
    exact below_refl _

/-- Below zero the joins with bottom give bottom. -/
theorem MaxInt.joins_of_neg {a : MaxInt} (h : a.value < 0) :
    Lattice.join a bottom = .ok bottom ∧ Lattice.join bottom a = .ok bottom ∧
      leq bottom a = .ok false ∧ merge bottom a = .ok (bottom, false) := by
  have hnot : ¬ (0 : Int64) < a.value := fun hlt => Int64.lt_irrefl (Int64.lt_trans h hlt)
  have hjoin : Lattice.join bottom a = .ok bottom := congrArg Except.ok (if_neg hnot)
  have hne : (bottom : MaxInt) ≠ a := by
    rintro rfl
    exact Int64.lt_irrefl h
  refine ⟨congrArg Except.ok (if_pos h), hjoin, ?_, congrArg Except.ok (if_neg hnot)⟩
  exact leq_eq_ok.2 ⟨bottom, hjoin, (decide_eq_false hne).symm⟩

theorem MaxInt.neutral_iff {a : MaxInt} : Neutral a ↔ 0 ≤ a.value := by
  refine ⟨fun h => Int64.not_lt.1 fun hneg => ?_, fun h => .of_below (bottom_below h)⟩
  obtain ⟨_, hjoin, _⟩ := joins_of_neg hneg
  obtain rfl : bottom = a := Except.ok.inj (hjoin.symm.trans h.bottom_join)
  exact Int64.lt_irrefl hneg

/-! ## Relations of a program -/

section Programs

variable {t : RelationType} {v : t.Value} {p q : Program} {h : Handle t} {name : String}

/-- The value is below the one that relations of the type start from: a negative integer. -/
def RelationType.StartsBelow : (t : RelationType) → t.Value → Prop
  | max, a => a.value < 0
  | _, _ => False

theorem RelationType.exists_merge_bottom (hv : ¬ t.StartsBelow v) :
    ∃ grew, merge t.bottom v = .ok (v, grew) ∧ (grew = true ↔ v ≠ t.bottom) :=
  match t with
  | max => (Neutral.of_below (MaxInt.bottom_below (Int64.not_lt.1 hv))).merge_bottom
  | maxText => (Neutral.of_below (MaxText.bottom_below v)).merge_bottom
  | flag => (Neutral.of_below (Flag.bottom_below v)).merge_bottom
  | set _ => (Neutral.of_below (GrowSet.bottom_below v)).merge_bottom
  | map _ => (StringMap.neutral v).merge_bottom
  | dynamicMap => (StringMap.neutral v).merge_bottom

theorem RelationType.merge_of_startsBelow (hv : t.StartsBelow v) :
    merge t.bottom v = .ok (t.bottom, false) :=
  match t with
  | max => (MaxInt.joins_of_neg hv).2.2.2
  | maxText | flag | set _ | map _ | dynamicMap => hv.elim

/-- The relation of a handle is where it starts: it has just been declared, or it is a scratch
relation that has just been reset. -/
inductive Program.JustStarted (h : Handle t) : Program → Prop
  | declared {p q : Program} {name : String} (hdeclare : p.declare t name = .ok (q, h)) :
      JustStarted h q
  | reset {p : Program} {s : Slot} (hh : h.Declared p.id p.store)
      (hs : p.store[h.id.slot]? = some s) (hscratch : s.scratch = true) :
      JustStarted h { p with store := p.store.resetScratch }

theorem Program.get_of_declare (hdeclare : p.declare t name = .ok (q, h)) :
    q.facts.get h = .ok t.bottom := by
  obtain ⟨_, rfl, rfl⟩ := declare_eq_ok.1 hdeclare
  refine Facts.get_eq_ok.2 ⟨rfl, .fresh name t, ?_, Slot.valueAs_eq_ok.2 ⟨rfl, rfl⟩⟩
  exact List.getElem?_concat_length

theorem Program.JustStarted.get (hstart : JustStarted h p) : p.facts.get h = .ok t.bottom := by
  cases hstart with
  | declared hdeclare => exact get_of_declare hdeclare
  | reset hh hs hscratch =>
      obtain ⟨v, hv⟩ := Handle.declared_iff.1 hh
      have hget := get_resetScratch hs hv
      rwa [if_pos hscratch] at hget

/-- What a relation holds after a merge is what the merge of the values gives. -/
theorem Program.exists_get_of_merge {w u : t.Value} {grew : Bool} (hw : p.facts.get h = .ok w)
    (hmerge : Lattice.merge w v = .ok (u, grew)) :
    ∃ q, p.merge h v = .ok (q, grew) ∧ q.facts.get h = .ok u := by
  obtain ⟨s, hs⟩ := (Handle.declared_iff.2 ⟨_, hw⟩).exists_slot
  have hdeposit : p.store.deposit p.id ⟨h.id.slot, .merge t v⟩ =
      .ok (p.store.assign h u, grew) := by
    refine (deposit_eq (x := .merge t v) hw).trans ?_
    change (liftConflict (Lattice.merge w v)).map _ = _
    rw [hmerge]
    rfl
  have hslot : (p.facts.slot h.id).mapError Fault.misuse = .ok s := by
    rw [Program.facts, hs]
    rfl
  refine ⟨{ p with store := p.store.assign h u }, ?_, get_assign_self hw⟩
  exact bind_eq_ok.2 ⟨s, hslot, bind_eq_ok.2 ⟨_, hdeposit, rfl⟩⟩

/-- Merging into a relation that is where it starts leaves the value that is merged, unless it is
below bottom; then nothing changes. -/
theorem Program.JustStarted.exists_merge (hstart : JustStarted h p) (v : t.Value) :
    ∃ q grew, p.merge h v = .ok (q, grew) ∧
      (¬ t.StartsBelow v → q.facts.get h = .ok v ∧ (grew = true ↔ v ≠ t.bottom)) ∧
      (t.StartsBelow v → q.facts.get h = .ok t.bottom ∧ grew = false) := by
  by_cases hv : t.StartsBelow v
  · obtain ⟨q, hq, hget⟩ := exists_get_of_merge hstart.get (RelationType.merge_of_startsBelow hv)
    exact ⟨q, false, hq, fun hnot => absurd hv hnot, fun _ => ⟨hget, rfl⟩⟩
  · obtain ⟨grew, hmerge, hgrew⟩ := RelationType.exists_merge_bottom hv
    obtain ⟨q, hq, hget⟩ := exists_get_of_merge hstart.get hmerge
    exact ⟨q, grew, hq, fun _ => ⟨hget, hgrew⟩, fun hbelow => absurd hbelow hv⟩

end Programs

/-! ## Main result -/

/-- Bottom is neutral for sets, maps, texts and flags.  For an integer register it is exactly from
zero on; below zero every join with bottom gives bottom.  In the same way a relation that was just
declared or reset holds what is merged into it, unless that is below where the relation starts. -/
theorem Relation.bottom_neutral (T V : Type) [Element T] [DecidableEq V] [Lattice V] :
    (∀ s : GrowSet T, Neutral s) ∧ (∀ m : StringMap V, Neutral m) ∧
    (∀ a : MaxText, Neutral a) ∧ (∀ a : Flag, Neutral a) ∧
    (∀ a : MaxInt, Neutral a ↔ 0 ≤ a.value) ∧
    (∀ a : MaxInt, a.value < 0 → Lattice.join a bottom = .ok bottom ∧
      Lattice.join bottom a = .ok bottom ∧ leq bottom a = .ok false ∧
      merge bottom a = .ok (bottom, false)) ∧
    ∀ (t : RelationType) (h : Handle t) (p : Program) (v : t.Value), p.JustStarted h →
      ∃ q grew, p.merge h v = .ok (q, grew) ∧
        (¬ t.StartsBelow v → q.facts.get h = .ok v ∧ (grew = true ↔ v ≠ t.bottom)) ∧
        (t.StartsBelow v → q.facts.get h = .ok t.bottom ∧ grew = false) :=
  ⟨fun s => .of_below s.bottom_below, fun m => m.neutral, fun a => .of_below a.bottom_below,
    fun a => .of_below (Flag.bottom_below a), fun _ => MaxInt.neutral_iff,
    fun _ => MaxInt.joins_of_neg, fun _ _ _ v hstart => hstart.exists_merge v⟩

/-- Into a register that a program has just declared, `3` goes as it is. -/
theorem Relation.bottom_neutral_declared :
    Neutral (⟨3⟩ : MaxInt) ∧ ∃ p h, (Program.create 0 "n" none).declare .max "need" = .ok (p, h) ∧
      ∃ q, p.merge h ⟨3⟩ = .ok (q, true) ∧ q.facts.get h = .ok ⟨3⟩ := by
  obtain ⟨_, _, _, _, hmax, _, hprogram⟩ := Relation.bottom_neutral String MaxInt
  obtain ⟨p, h, hdeclare⟩ :
      ∃ p h, (Program.create 0 "n" none).declare .max "need" = .ok (p, h) := ⟨_, _, rfl⟩
  refine ⟨(hmax ⟨3⟩).2 (by decide), p, h, hdeclare, ?_⟩
  obtain ⟨q, grew, hmerge, hkept, _⟩ := hprogram .max h p ⟨3⟩ (.declared hdeclare)
  obtain ⟨hget, hgrew⟩ := hkept (show ¬ (3 : Int64) < 0 by decide)
  rw [hgrew.2 (show (⟨3⟩ : MaxInt) ≠ ⟨0⟩ by decide)] at hmerge
  exact ⟨q, hmerge, hget⟩

/-- A register built at `-5` is neither what its joins with bottom give nor above bottom, and a
relation that was just declared stays at zero when it is merged. -/
theorem MaxInt.bottom_not_neutral :
    collect [-5] = .ok (⟨-5⟩ : MaxInt) ∧
    Lattice.join (⟨-5⟩ : MaxInt) bottom ≠ .ok ⟨-5⟩ ∧
    Lattice.join bottom (⟨-5⟩ : MaxInt) ≠ .ok ⟨-5⟩ ∧
    leq bottom (⟨-5⟩ : MaxInt) = .ok false ∧
    ∃ p h, (Program.create 0 "n" none).declare .max "need" = .ok (p, h) ∧
      ∃ q, p.merge h ⟨-5⟩ = .ok (q, false) ∧ q.facts.get h = .ok ⟨0⟩ :=
  ⟨rfl, by decide, by decide, by decide, _, _, rfl, _, rfl, rfl⟩

end Ratchet

import Ratchet.Proofs.Lattice.Clash
import Ratchet.Program.Fault

/-!
# Merging in place

A value that others hold on to is merged in place: entry by entry, each entry of a map being changed
before the next one is looked at.  A merge may be refused, and then the value must be what it was.
The merges of the entries are not allowed to be refused; a refusal there is a broken invariant,
which would leave a value behind that is merged by half.

`Tree.mergeInPlace` is a merge in place with all of its endings.  It starts by checking the whole
of the two values, each nested merge checks what it has been given once more, and these checks
never disagree: a merge that `Tree.merge` completes is completed in place with the same value and
the same signal (`Tree.mergeInPlace_of_merge`), and any other one is refused before the first
change (`Tree.mergeInPlace_of_conflict?`).

## Main result

* `Dynamic.merge_atomic`: compatible values are joined leaf by leaf, all others are left alone, and
  the refusal names the first clash.
-/

namespace Ratchet

/-- How a merge in place ends. -/
inductive Ending where
  /-- The value has been merged. -/
  | merged (grew : Bool)
  | refused (conflict : Mismatch)
  /-- A merge that must not be refused was refused after all. -/
  | broken (conflict : Mismatch)

namespace Ending

/-- The end of a merge that must not be refused. -/
def insist : Ending → Ending
  | refused conflict => broken conflict
  | ending => ending

/-- The end of a merge that was preceded by other ones. -/
def after (grew : Bool) : Ending → Ending
  | merged more => merged (grew || more)
  | ending => ending

end Ending

namespace Tree

/-! ## The merge -/

/-- Grows the value at a key in place, or gives a new key the value `fresh`.  The growth of a value
that is there must not be refused. -/
def growInPlace (key : String) (fresh : Tree) (grow : Tree → Tree × Ending)
    (es : List (String × Tree)) : List (String × Tree) × Ending :=
  match es.lookup key with
  | none => (StringMap.putEntry key fresh es, .merged true)
  | some value => (StringMap.putEntry key (grow value).1 es, (grow value).2.insist)

mutual

/-- Merges the second tree into the first in place: what is left there, and how it ended. -/
def mergeInPlace : Tree → Tree → Tree × Ending
  | set s, set t => (set (s.merge t).1, .merged (s.merge t).2)
  | map es, map fs =>
    match conflictEntries? es fs with
    | some conflict => (map es, .refused conflict)
    | none => (map (mergeEntriesInPlace es fs).1, (mergeEntriesInPlace es fs).2)
  | maxInt m, maxInt n => (maxInt (m.add n.value).1, .merged (m.add n.value).2)
  | maxText m, maxText n => (maxText (m.add n.value).1, .merged (m.add n.value).2)
  | flag b, flag c => (flag (b.add c.value).1, .merged (b.add c.value).2)
  | t, u => (t, .refused ⟨t.kind, u.kind⟩)

/-- Merges a list of entries in place, up to the first one that breaks. -/
def mergeEntriesInPlace : List (String × Tree) → List (String × Tree) →
    List (String × Tree) × Ending
  | es, [] => (es, .merged false)
  | es, (key, value) :: fs =>
    match growInPlace key value (fun old => mergeInPlace old value) es with
    | (grown, .merged grew) =>
      ((mergeEntriesInPlace grown fs).1, (mergeEntriesInPlace grown fs).2.after grew)
    | broken => broken

end

variable {t u v : Tree} {es fs gs : List (String × Tree)} {key : String} {value : Tree}
  {grew : Bool} {conflict : Mismatch}

theorem growInPlace_of_growEntry {grow : Tree → Except Mismatch (Tree × Bool)}
    {growing : Tree → Tree × Ending}
    (hgrow : ∀ {old new more}, grow old = .ok (new, more) → growing old = (new, .merged more))
    (h : StringMap.growEntry key value grow es = .ok (gs, grew)) :
    growInPlace key value growing es = (gs, .merged grew) := by
  unfold growInPlace
  rcases StringMap.growEntry_eq_ok h with ⟨hnone, heq⟩ | ⟨old, ⟨new, more⟩, hold, hnew, heq⟩
  · obtain ⟨rfl, rfl⟩ := Prod.mk.inj heq
    simp only [hnone]
  · obtain ⟨rfl, rfl⟩ := Prod.mk.inj heq
    simp only [hold, hgrow hnew, Ending.insist]

theorem mergeInPlace_map (h : conflictEntries? es fs = none) :
    (map es).mergeInPlace (map fs) =
      (map (mergeEntriesInPlace es fs).1, (mergeEntriesInPlace es fs).2) := by
  simp only [mergeInPlace, h]

mutual

/-- A merge that can be completed is completed in place, without a nested merge being refused. -/
theorem mergeInPlace_of_merge : ∀ {t u v : Tree} {grew : Bool}, t.merge u = .ok (v, grew) →
    t.mergeInPlace u = (v, .merged grew)
  | map es, map fs, v, grew => fun h => by
      simp only [merge] at h
      split at h
      · cases h
      · next hnone =>
          obtain ⟨⟨merged, more⟩, hmerge, heq⟩ := bind_eq_ok.1 h
          cases heq
          rw [mergeInPlace_map hnone, mergeEntriesInPlace_of_mergeEntries hmerge]
  | set _, u, v, grew => fun h => by
      cases u <;> cases h
      rfl
  | maxInt _, u, v, grew => fun h => by
      cases u <;> cases h
      rfl
  | maxText _, u, v, grew => fun h => by
      cases u <;> cases h
      rfl
  | flag _, u, v, grew => fun h => by
      cases u <;> cases h
      rfl
  | map _, set _, v, grew | map _, maxInt _, v, grew | map _, maxText _, v, grew
  | map _, flag _, v, grew => fun h => by cases h

theorem mergeEntriesInPlace_of_mergeEntries : ∀ {es fs gs : List (String × Tree)} {grew : Bool},
    mergeEntries es fs = .ok (gs, grew) → mergeEntriesInPlace es fs = (gs, .merged grew)
  | es, [], gs, grew => fun h => by
      cases h
      rfl
  | es, (key, value) :: fs, gs, grew => fun h => by
      rw [mergeEntries_eq] at h
      obtain ⟨⟨mid, grown⟩, ⟨rest, more⟩, hgrow, hrest, heq⟩ := StringMap.mergeEntries_cons h
      rw [← mergeEntries_eq] at hrest
      cases heq
      have hfirst : growInPlace key value (fun old => mergeInPlace old value) es =
          (mid, .merged grown) :=
        growInPlace_of_growEntry (fun hnew => mergeInPlace_of_merge hnew) hgrow
      have htail : mergeEntriesInPlace mid fs = (rest, .merged more) :=
        mergeEntriesInPlace_of_mergeEntries hrest
      simp only [mergeEntriesInPlace, hfirst, htail, Ending.after]

end

/-- A merge that meets a conflict is refused before anything has been changed. -/
theorem mergeInPlace_of_conflict? (h : t.conflict? u = some conflict) :
    t.mergeInPlace u = (t, .refused conflict) := by
  cases t <;> cases u
  case map.map es fs =>
    rw [conflict?] at h
    simp only [mergeInPlace, h]
  all_goals cases h <;> rfl

end Tree

namespace Dynamic

variable {a b c : Dynamic}

theorem exists_merge_of_compatible (h : a.Compatible b) :
    ∃ c, a.join b = .ok c ∧ a.merge b = .ok (c, decide (c ≠ a)) := by
  obtain ⟨c, hjoin⟩ := conflict?_eq_none_iff.1 (conflict?_eq_none_iff_compatible.2 h)
  have hexact := LawfulLattice.exactMerge b
  obtain ⟨grew, hmerge⟩ := hexact.exists_merge hjoin
  have hgrew : grew = decide (c ≠ a) :=
    Bool.eq_iff_iff.2 (((hexact.eq_join hmerge).2).trans decide_eq_true_iff.symm)
  exact ⟨c, hjoin, hgrew ▸ hmerge⟩

theorem mergeInPlace_of_merge {grew : Bool} (h : a.merge b = .ok (c, grew)) :
    a.tree.mergeInPlace b.tree = (c.tree, .merged grew) := by
  refine Tree.mergeInPlace_of_merge ?_
  rw [← map_tree_merge, h]
  rfl

/-- Values merge just if they are compatible.  Then no nested merge is refused, what is left is the
join of the two leaf by leaf, and the signal tells whether that is another value than before.
Otherwise the value is left as it was, and the refusal names the kinds at the first clash.  The
check, the join, and the merge and the join that must not fail come to the same end. -/
theorem merge_atomic (a b : Dynamic) :
    (a.Compatible b → ∃ c, JoinsLeaves a b c ∧
      a.tree.mergeInPlace b.tree = (c.tree, .merged (decide (c ≠ a))) ∧
      a.conflict? b = none ∧ a.merge b = .ok (c, decide (c ≠ a)) ∧ a.join b = .ok c ∧
      liftConflict (Lattice.merge a b) = .ok (c, decide (c ≠ a)) ∧
      liftConflict (Lattice.join a b) = .ok c) ∧
    (¬ a.Compatible b → ∃ conflict, FirstClash a b conflict ∧
      a.tree.mergeInPlace b.tree = (a.tree, .refused conflict) ∧
      a.conflict? b = some conflict ∧ a.merge b = .error conflict ∧ a.join b = .error conflict ∧
      liftConflict (Lattice.merge a b) = .error (.conflict conflict) ∧
      liftConflict (Lattice.join a b) = .error (.conflict conflict)) := by
  constructor
  · intro h
    obtain ⟨c, hjoin, hmerge⟩ := exists_merge_of_compatible h
    refine ⟨c, joinsLeaves_of_join hjoin, mergeInPlace_of_merge hmerge,
      conflict?_eq_none_iff_compatible.2 h, hmerge, hjoin, ?_, ?_⟩
    · exact congrArg liftConflict hmerge
    · exact congrArg liftConflict hjoin
  · intro h
    cases hcheck : a.conflict? b with
    | none => exact absurd (conflict?_eq_none_iff_compatible.1 hcheck) h
    | some conflict =>
        have hmerge : a.merge b = .error conflict := merge_of_conflict? hcheck
        have hjoin : a.join b = .error conflict := conflict?_eq_some_iff.1 hcheck
        refine ⟨conflict, firstClash_of_conflict? hcheck, Tree.mergeInPlace_of_conflict? hcheck,
          rfl, hmerge, hjoin, ?_, ?_⟩
        · exact congrArg liftConflict hmerge
        · exact congrArg liftConflict hjoin

/-- A map with a count and a map inside it takes on a greater count.  Another greater count comes
together with a set where the inner map has a flag: it is refused, and the count stays although its
key comes first. -/
theorem merge_atomic_nested :
    let a := ofMap ((StringMap.singleton "count" (ofMaxInt ⟨5⟩)).put "inner"
      (ofMap (.singleton "key" (ofFlag ⟨true⟩))))
    let b := ofMap (.singleton "count" (ofMaxInt ⟨9⟩))
    let c := ofMap ((StringMap.singleton "count" (ofMaxInt ⟨9⟩)).put "inner"
      (ofMap (.singleton "key" (ofSet .empty))))
    (a.Compatible b ∧ ∃ merged, a.tree.mergeInPlace b.tree = (merged, .merged true)) ∧
      ¬ a.Compatible c ∧ a.tree.mergeInPlace c.tree = (a.tree, .refused ⟨.flag, .set⟩) := by
  intro a b c
  have hab : a.Compatible b := conflict?_eq_none_iff_compatible.1 (by decide +kernel)
  have hgrew : (a.merge b).map Prod.snd = .ok true := by decide +kernel
  have hac : a.conflict? c = some ⟨.flag, .set⟩ := by decide +kernel
  have hnot : ¬ a.Compatible c := by
    rw [← conflict?_eq_none_iff_compatible, hac]
    exact nofun
  obtain ⟨merged, _, hplace, _, hmerge, _⟩ := (merge_atomic a b).1 hab
  obtain ⟨conflict, _, hrefused, hcheck, _⟩ := (merge_atomic a c).2 hnot
  obtain rfl := Option.some.inj (hac.symm.trans hcheck)
  rw [hmerge] at hgrew
  have hgrew : decide (merged ≠ a) = true := Except.ok.inj hgrew
  exact ⟨⟨hab, merged.tree, hgrew ▸ hplace⟩, hnot, hrefused⟩

end Dynamic

end Ratchet

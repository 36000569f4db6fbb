import Ratchet.Proofs.Lattice.Conflict

/-!
# Values inside values

A path is a list of keys that leads into a map, into a map inside that map, and so on.  Growing
keeps every path and the kind of the value that it leads to (`Dynamic.exists_kind_eq_of_below`), and
it never resolves a conflict (`Dynamic.conflict?_of_below`).
-/

namespace Ratchet.Dynamic

open Ratchet.Lattice

variable {a b c : Dynamic} {m : StringMap Dynamic} {key : String} {path : List String}

theorem view_eq_map : a.view = .map m ↔ a = ofMap m := by
  -- a value that is seen as a map is that map
  have hview : ∀ {b n}, view b = .map n → b = ofMap n := by
    rintro ⟨t, ht⟩ n h
    cases t with
    | map es =>
        obtain rfl := View.map.inj h
        refine tree_injective ?_
        rw [tree_ofMap, mapValues_ofEntries]
    | _ => cases h
  refine ⟨hview, ?_⟩
  rintro rfl
  have hmap : ∃ n, (ofMap m).view = .map n := ⟨_, rfl⟩
  obtain ⟨n, hn⟩ := hmap
  rw [hn, ofMap_injective (hview hn)]

/-- The value that a path leads to. -/
def at? (a : Dynamic) : List String → Option Dynamic
  | [] => some a
  | key :: path =>
    match a.view with
    | .map m =>
      match m.get? key with
      | some inner => inner.at? path
      | none => none
    | _ => none

theorem at?_cons : a.at? (key :: path) = some c ↔
    ∃ m inner, a = ofMap m ∧ m.get? key = some inner ∧ inner.at? path = some c := by
  constructor
  · intro h
    unfold at? at h
    split at h
    · next m hm =>
        split at h
        · next inner hinner => exact ⟨m, inner, view_eq_map.1 hm, hinner, h⟩
        · cases h
    · cases h
  · rintro ⟨m, inner, rfl, hinner, hpath⟩
    unfold at?
    rw [view_eq_map.2 rfl]
    simp only [hinner]
    exact hpath

theorem kind_of_below (h : Below a b) : b.kind = a.kind := (kind_of_join h).2

/-- What grows keeps its paths, and the values at their ends grow as well. -/
theorem exists_at?_of_below (hab : Below a b) (h : a.at? path = some c) :
    ∃ d, b.at? path = some d ∧ Below c d := by
  induction path generalizing a b with
  | nil =>
      obtain rfl := Option.some.inj h
      exact ⟨b, rfl, hab⟩
  | cons key path ih =>
      obtain ⟨m, inner, rfl, hinner, hpath⟩ := at?_cons.1 h
      obtain ⟨n, joined, rfl, hjoin, heq⟩ := embeds_ofMap.join_eq_ok.1 hab
      obtain rfl := ofMap_injective heq
      obtain ⟨grown, hgrown, hbelow⟩ := StringMap.below_iff.1 hjoin key inner hinner
      obtain ⟨d, hd, hcd⟩ := ih hbelow hpath
      exact ⟨d, at?_cons.2 ⟨n, grown, rfl, hgrown, hd⟩, hcd⟩

/-- Maps that grow have values of the same kinds, at every depth. -/
theorem exists_kind_eq_of_below {n : StringMap Dynamic} (h : Below m n)
    (ha : (ofMap m).at? path = some a) :
    ∃ b, (ofMap n).at? path = some b ∧ b.kind = a.kind := by
  have hvalues : Below (ofMap m) (ofMap n) := embeds_ofMap.join_eq_ok.2 ⟨n, n, rfl, h, rfl⟩
  obtain ⟨b, hb, hab⟩ := exists_at?_of_below hvalues ha
  exact ⟨b, hb, kind_of_below hab⟩

/-- A value that conflicts goes on conflicting with what grows. -/
theorem conflict?_of_below (hab : Below a b) (h : a.conflict? c ≠ none) : b.conflict? c ≠ none := by
  intro hnone
  obtain ⟨d, hd⟩ := conflict?_eq_none_iff.1 hnone
  obtain ⟨e, he, _⟩ := exists_join (hab.trans (below_left hd)) (below_right hd)
  exact h (conflict?_eq_none_iff.2 ⟨e, he⟩)

end Ratchet.Dynamic

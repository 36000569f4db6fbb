import Ratchet.Proofs.Lattice.Dynamic

/-!
# Which values conflict

Joining may fail.  This file says when, and with which conflict.

Two maps are joined by one walk over their keys and checked for conflicts by another one, and
either stops at the first key where the two values clash.  `FirstConflict` is that place.  There
is at most one (`FirstConflict.unique`), so whatever stops there reports the same conflict: the
check and the join agree (`conflict?_eq_some_iff`), and joining the other way round reports the
conflict with its two kinds exchanged (`join_swap`).

For a single value, conflicts come from kinds that differ, and a join keeps the kind
(`kind_of_join`).  Therefore values that can be joined pairwise can be joined all three
(`exists_join_join`), which is what makes a conflict a relation between two values, whatever they
have grown from.

## Main result

* `Dynamic.join_partialSemilattice`: the laws of joining, conflicts included.
-/

namespace Ratchet

/-- The conflict that is met the other way round. -/
def Mismatch.swap (conflict : Mismatch) : Mismatch := ⟨conflict.found, conflict.expected⟩

/-! ## The first conflict of two maps -/

section FirstConflict

variable {V : Type} {Clash : V → V → Mismatch → Prop} {es fs gs : List (String × V)}
  {key : String} {value found : V} {conflict conflict' : Mismatch}

/-- At some key that both lists have, their values clash, and at no key before that one they
do. -/
def FirstConflict (Clash : V → V → Mismatch → Prop) (es fs : List (String × V))
    (conflict : Mismatch) : Prop :=
  ∃ k a b, es.lookup k = some a ∧ fs.lookup k = some b ∧ Clash a b conflict ∧
    ∀ j a b, compare j k = .lt → es.lookup j = some a → fs.lookup j = some b →
      ∀ other, ¬ Clash a b other

namespace FirstConflict

theorem unique (hClash : ∀ {a b c d}, Clash a b c → Clash a b d → c = d)
    (h : FirstConflict Clash es fs conflict) (h' : FirstConflict Clash es fs conflict') :
    conflict = conflict' := by
  obtain ⟨k, a, b, ha, hb, hab, hbefore⟩ := h
  obtain ⟨k', a', b', ha', hb', hab', hbefore'⟩ := h'
  cases hk : compare k k' with
  | lt => exact absurd hab (hbefore' k a b hk ha hb conflict)
  | gt => exact absurd hab' (hbefore k' a' b' (Element.gt_iff_lt.1 hk) ha' hb' conflict')
  | eq =>
      obtain rfl := Element.eq_iff.1 hk
      obtain rfl := Option.some.inj (ha.symm.trans ha')
      obtain rfl := Option.some.inj (hb.symm.trans hb')
      exact hClash hab hab'

/-- The two lists change places. -/
theorem flip (h : FirstConflict (fun b a c => Clash a b c) fs es conflict) :
    FirstConflict Clash es fs conflict := by
  obtain ⟨k, b, a, hb, ha, hab, hbefore⟩ := h
  exact ⟨k, a, b, ha, hb, hab, fun j a b hj ha hb => hbefore j b a hj hb ha⟩

/-- Of the right list only what it has at the keys of the left one matters. -/
theorem congr_right (h : FirstConflict Clash es fs conflict)
    (hfs : ∀ k a, es.lookup k = some a → fs.lookup k = gs.lookup k) :
    FirstConflict Clash es gs conflict := by
  obtain ⟨k, a, b, ha, hb, hab, hbefore⟩ := h
  refine ⟨k, a, b, ha, hfs k a ha ▸ hb, hab, ?_⟩
  intro j a b hj ha hb
  exact hbefore j a b hj ha ((hfs j a ha).trans hb)

/-- A conflict at the first key of the left list is the first one. -/
theorem head (hes : AscendingKeys ((key, value) :: es)) (hfound : fs.lookup key = some found)
    (h : Clash value found conflict) :
    FirstConflict Clash ((key, value) :: es) fs conflict := by
  refine ⟨key, value, found, List.lookup_cons_self, hfound, h, ?_⟩
  intro j a b hj ha
  rw [hes.lookup_of_lt_head hj] at ha
  cases ha

/-- Without a conflict at the first key of the left list, the first one lies above. -/
theorem tail (hes : AscendingKeys ((key, value) :: es))
    (hkey : ∀ found, fs.lookup key = some found → ∀ other, ¬ Clash value found other)
    (h : FirstConflict Clash es fs conflict) :
    FirstConflict Clash ((key, value) :: es) fs conflict := by
  obtain ⟨k, a, b, ha, hb, hab, hbefore⟩ := h
  have hk : compare k key = .gt := hes.gt_of_lookup_tail ha
  refine ⟨k, a, b, ?_, hb, hab, ?_⟩
  · rwa [lookup_cons_of_ne (by simp [hk])]
  · intro j c d hj hc hd
    cases hjkey : compare j key with
    | lt =>
        rw [hes.lookup_of_lt_head hjkey] at hc
        cases hc
    | eq =>
        obtain rfl := Element.eq_iff.1 hjkey
        rw [List.lookup_cons_self] at hc
        obtain rfl := Option.some.inj hc
        exact hkey d hd
    | gt =>
        rw [lookup_cons_of_ne (by simp [hjkey])] at hc
        exact hbefore j c d hj hc hd

end FirstConflict

end FirstConflict

namespace StringMap

/-- A join of two ascending lists fails at their first conflict. -/
theorem firstConflict_of_joinEntries {V : Type} {join : V → V → Except Mismatch V}
    {es fs : List (String × V)} {conflict : Mismatch} (hes : AscendingKeys es)
    (hfs : AscendingKeys fs) (h : joinEntries join es fs = .error conflict) :
    FirstConflict (fun a b c => join a b = .error c) es fs conflict := by
  induction es generalizing fs with
  | nil => cases h
  | cons e es ih =>
      obtain ⟨key, value⟩ := e
      rw [joinEntries] at h
      rcases bind_eq_error.1 h with hjoined | ⟨joined, hjoined, h⟩
      · cases hfound : fs.lookup key with
        | none =>
            rw [hfound] at hjoined
            cases hjoined
        | some found =>
            rw [hfound] at hjoined
            exact .head hes hfound hjoined
      · rcases bind_eq_error.1 h with hrest | ⟨_, _, h⟩
        · have hdrop : AscendingKeys (fs.dropWhile fun f => compare f.1 key != .gt) :=
            hfs.sublist (List.dropWhile_sublist _)
          refine .tail hes ?_ ((ih (List.Pairwise.of_cons hes) hdrop hrest).congr_right ?_)
          · intro found hfound other hother
            rw [hfound] at hjoined
            cases hother.symm.trans hjoined
          · intro k a ha
            exact lookup_dropWhile_of_gt hfs (hes.gt_of_lookup_tail ha)
        · cases h

variable {V : Type} [Lattice V] {m n mn r : StringMap V} {conflict : Mismatch}

/-- Joining two maps fails at their first conflict. -/
theorem join_eq_error : m.join n = .error conflict ↔
    FirstConflict (fun a b c => Lattice.join a b = .error c) m.entries n.entries conflict := by
  have first : ∀ {c}, m.join n = .error c →
      FirstConflict (fun a b c => Lattice.join a b = .error c) m.entries n.entries c := by
    intro c h
    refine firstConflict_of_joinEntries m.ascending n.ascending ?_
    rw [← map_entries_join, h]
    rfl
  refine ⟨first, fun h => ?_⟩
  cases hjoin : m.join n with
  | error c => rw [(first hjoin).unique (fun h h' => Except.error.inj (h.symm.trans h')) h]
  | ok r =>
      obtain ⟨k, a, b, ha, hb, hab, _⟩ := h
      have hk : joinOption Lattice.join (m.entries.lookup k) (n.entries.lookup k) = _ :=
        join_eq_ok.1 hjoin k
      rw [ha, hb] at hk
      obtain ⟨c, hc, _⟩ := joinOption_some_eq_ok.1 hk
      cases hab.symm.trans hc

/-- Maps that can be joined pairwise can be joined all three, if the values that they hold can. -/
theorem exists_join_join_of
    (law : ∀ k a, m.get? k = some a → ∀ b c ab : V, Lattice.join a b = .ok ab →
      (∃ ac, Lattice.join a c = .ok ac) → (∃ bc, Lattice.join b c = .ok bc) →
        ∃ abc, Lattice.join ab c = .ok abc)
    (hmn : m.join n = .ok mn) (hmr : ∃ mr, m.join r = .ok mr) (hnr : ∃ nr, n.join r = .ok nr) :
    ∃ mnr, mn.join r = .ok mnr := by
  obtain ⟨mr, hmr⟩ := hmr
  obtain ⟨nr, hnr⟩ := hnr
  apply exists_join_of
  intro k
  have hmn := join_eq_ok.1 hmn k
  have hmr := join_eq_ok.1 hmr k
  have hnr := join_eq_ok.1 hnr k
  cases hm : m.get? k with
  | none =>
      rw [hm] at hmn
      obtain hn := Except.ok.inj hmn
      exact ⟨_, hn ▸ hnr⟩
  | some a =>
      rw [hm] at hmn hmr
      cases hn : n.get? k with
      | none =>
          rw [hn] at hmn
          obtain hn := Except.ok.inj hmn
          exact ⟨_, hn ▸ hmr⟩
      | some b =>
          rw [hn] at hmn hnr
          obtain ⟨ab, hab, heq⟩ := joinOption_some_eq_ok.1 hmn
          rw [heq]
          cases hr : r.get? k with
          | none => exact ⟨_, joinOption_none_right⟩
          | some c =>
              rw [hr] at hmr hnr
              obtain ⟨ac, hac, _⟩ := joinOption_some_eq_ok.1 hmr
              obtain ⟨bc, hbc, _⟩ := joinOption_some_eq_ok.1 hnr
              obtain ⟨abc, habc⟩ := law k a hm b c ab hab ⟨ac, hac⟩ ⟨bc, hbc⟩
              exact ⟨some abc, joinOption_some_eq_ok.2 ⟨abc, habc, rfl⟩⟩

end StringMap

namespace Dynamic

variable {a b c ab : Dynamic} {m n : StringMap Dynamic} {conflict : Mismatch}

/-! ## Conflicts between kinds -/

theorem join_of_kind_ne (h : a.kind ≠ b.kind) : a.join b = .error ⟨a.kind, b.kind⟩ := by
  obtain ⟨t, ht⟩ := a
  obtain ⟨u, hu⟩ := b
  cases t <;> cases u <;> first | rfl | exact absurd rfl h

theorem conflict?_of_kind_ne (h : a.kind ≠ b.kind) : a.conflict? b = some ⟨a.kind, b.kind⟩ := by
  obtain ⟨t, ht⟩ := a
  obtain ⟨u, hu⟩ := b
  cases t <;> cases u <;> first | rfl | exact absurd rfl h

/-- Values of one kind have a join, unless they are maps. -/
theorem exists_join_of_kind_eq (h : a.kind = b.kind) (hmap : a.kind ≠ .map) :
    ∃ c, a.join b = .ok c := by
  obtain ⟨t, ht⟩ := a
  obtain ⟨u, hu⟩ := b
  cases t <;> cases u <;> first | exact ⟨_, rfl⟩ | exact absurd rfl hmap | cases h

/-- A join is of the kind of its two sides. -/
theorem kind_of_join (h : a.join b = .ok c) : b.kind = a.kind ∧ c.kind = a.kind := by
  have hb : b.kind = a.kind := by
    by_contra hne
    rw [join_of_kind_ne (Ne.symm hne)] at h
    cases h
  have hc : c.kind = a.kind := by
    by_contra hne
    -- a join is above its left side, so the two have a join themselves
    have hac : Lattice.Below a c := Lattice.below_left h
    cases (join_of_kind_ne (Ne.symm hne)).symm.trans hac
  exact ⟨hb, hc⟩

theorem exists_eq_ofMap_of_kind (h : a.kind = .map) : ∃ m, a = ofMap m := by
  obtain ⟨t, ht⟩ := a
  cases t with
  | map es =>
      obtain ⟨m, hm, _⟩ := exists_eq_ofMap ht
      exact ⟨m, hm⟩
  | _ => cases h

/-- To prove something of every value, prove it of a map from the values that the map holds, and
of the other values at once. -/
theorem map_induction {P : Dynamic → Prop} (leaf : ∀ a, a.kind ≠ .map → P a)
    (map : ∀ m, (∀ k a, m.get? k = some a → P a) → P (ofMap m)) (a : Dynamic) : P a := by
  induction a using Dynamic.induction with
  | set s => exact leaf (ofSet s) nofun
  | maxInt n => exact leaf (ofMaxInt n) nofun
  | maxText s => exact leaf (ofMaxText s) nofun
  | flag b => exact leaf (ofFlag b) nofun
  | map m ih => exact map m ih

/-! ## The reported conflict -/

theorem join_ofMap_eq_error : (ofMap m).join (ofMap n) = .error conflict ↔
    FirstConflict (fun a b c => a.join b = .error c) m.entries n.entries conflict := by
  rw [join_ofMap]
  refine Iff.trans ?_ StringMap.join_eq_error
  cases m.join n with
  | error c =>
      exact ⟨fun h => congrArg _ (Except.error.inj h), fun h => congrArg _ (Except.error.inj h)⟩
  | ok r => exact ⟨nofun, nofun⟩

theorem firstConflict_of_conflictEntries? {es fs : List (String × Tree)} (hfs : AscendingKeys fs)
    (h : Tree.conflictEntries? es fs = some conflict) :
    FirstConflict (fun t u c => t.conflict? u = some c) es fs conflict := by
  -- the check goes through the right list
  apply FirstConflict.flip
  induction fs with
  | nil => cases h
  | cons f fs ih =>
      obtain ⟨key, found⟩ := f
      rw [Tree.conflictEntries?] at h
      cases hfound : (es.lookup key).bind fun value => value.conflict? found with
      | some c =>
          rw [hfound] at h
          obtain rfl := Option.some.inj h
          obtain ⟨value, hvalue, hclash⟩ := Option.bind_eq_some_iff.1 hfound
          exact .head hfs hvalue hclash
      | none =>
          rw [hfound] at h
          rw [Option.bind_eq_none_iff] at hfound
          refine .tail hfs ?_ (ih (List.Pairwise.of_cons hfs) h)
          intro value hvalue other hother
          cases (hfound value hvalue).symm.trans hother

/-- Checking two maps reports their first conflict. -/
theorem firstConflict_of_conflict? (h : (ofMap m).conflict? (ofMap n) = some conflict) :
    FirstConflict (fun a b c => a.conflict? b = some c) m.entries n.entries conflict := by
  unfold conflict? at h
  rw [tree_ofMap, tree_ofMap, Tree.conflict?] at h
  have hn : AscendingKeys (mapValues tree n.entries) := List.pairwise_map.2 n.ascending
  obtain ⟨k, t, u, ht, hu, hclash, hbefore⟩ := firstConflict_of_conflictEntries? hn h
  rw [lookup_mapValues] at ht hu
  obtain ⟨a, ha, rfl⟩ := Option.map_eq_some_iff.1 ht
  obtain ⟨b, hb, rfl⟩ := Option.map_eq_some_iff.1 hu
  refine ⟨k, a, b, ha, hb, hclash, ?_⟩
  intro j a b hj ha hb
  refine hbefore j a.tree b.tree hj ?_ ?_
  · rw [lookup_mapValues]
    exact congrArg (Option.map tree) ha
  · rw [lookup_mapValues]
    exact congrArg (Option.map tree) hb

/-- The check reports the conflict that joining would fail with. -/
theorem conflict?_eq_some_iff : a.conflict? b = some conflict ↔ a.join b = .error conflict := by
  -- both fail on the same values, so one direction is enough
  suffices h : ∀ c, a.conflict? b = some c → a.join b = .error c by
    refine ⟨h conflict, fun herror => ?_⟩
    cases hcheck : a.conflict? b with
    | none =>
        obtain ⟨c, hc⟩ := conflict?_eq_none_iff.1 hcheck
        cases herror.symm.trans hc
    | some c => rw [Except.error.inj ((h c hcheck).symm.trans herror)]
  induction a using map_induction generalizing b with
  | leaf a hleaf =>
      intro c h
      by_cases hkind : a.kind = b.kind
      · obtain ⟨d, hd⟩ := exists_join_of_kind_eq hkind hleaf
        rw [conflict?_eq_none_iff.2 ⟨d, hd⟩] at h
        cases h
      · rw [conflict?_of_kind_ne hkind] at h
        rw [join_of_kind_ne hkind, Option.some.inj h]
  | map m ih =>
      intro c h
      by_cases hkind : (ofMap m).kind = b.kind
      · obtain ⟨n, rfl⟩ := exists_eq_ofMap_of_kind hkind.symm
        obtain ⟨k, a, b, ha, hb, hab, hbefore⟩ := firstConflict_of_conflict? h
        refine join_ofMap_eq_error.2 ⟨k, a, b, ha, hb, ih k a ha c hab, ?_⟩
        intro j a b hj ha hb other herror
        cases hcheck : a.conflict? b with
        | some d => exact hbefore j a b hj ha hb d hcheck
        | none =>
            obtain ⟨d, hd⟩ := conflict?_eq_none_iff.1 hcheck
            cases herror.symm.trans hd
      · rw [conflict?_of_kind_ne hkind] at h
        rw [join_of_kind_ne hkind, Option.some.inj h]

/-- Merging fails with the conflict that the check reports. -/
theorem merge_of_conflict? (h : a.conflict? b = some conflict) : a.merge b = .error conflict := by
  have htree : a.tree.merge b.tree = .error conflict := by
    obtain ⟨t, ht⟩ := a
    obtain ⟨u, hu⟩ := b
    unfold conflict? at h
    cases t <;> cases u
    case map.map es fs =>
      rw [Tree.conflict?] at h
      simp only [Tree.merge, h]
    all_goals first
      | exact congrArg Except.error (Option.some.inj h)
      | cases h
  rw [← map_tree_merge] at htree
  cases hmerge : a.merge b with
  | error other => rw [hmerge] at htree; exact congrArg Except.error (Except.error.inj htree)
  | ok result => rw [hmerge] at htree; cases htree

/-- Merging, which checks first and then goes through the entries, is joining. -/
theorem map_fst_merge (a b : Dynamic) : (a.merge b).map Prod.fst = a.join b := by
  cases hcheck : a.conflict? b with
  | none =>
      obtain ⟨c, hc⟩ := conflict?_eq_none_iff.1 hcheck
      obtain ⟨grew, hmerge⟩ := (LawfulLattice.exactMerge b).exists_merge hc
      have hmerge : a.merge b = .ok (c, grew) := hmerge
      rw [hmerge, hc]
      rfl
  | some conflict =>
      rw [conflict?_eq_some_iff.1 hcheck, merge_of_conflict? hcheck]
      rfl

/-- Joining the other way round fails with the conflict the other way round. -/
theorem join_swap (h : a.join b = .error conflict) : b.join a = .error conflict.swap := by
  induction a using map_induction generalizing b conflict with
  | leaf a hleaf =>
      by_cases hkind : a.kind = b.kind
      · obtain ⟨d, hd⟩ := exists_join_of_kind_eq hkind hleaf
        cases h.symm.trans hd
      · rw [join_of_kind_ne hkind] at h
        rw [join_of_kind_ne (Ne.symm hkind), ← Except.error.inj h]
        rfl
  | map m ih =>
      by_cases hkind : (ofMap m).kind = b.kind
      · obtain ⟨n, rfl⟩ := exists_eq_ofMap_of_kind hkind.symm
        obtain ⟨k, a, b, ha, hb, hab, hbefore⟩ := join_ofMap_eq_error.1 h
        refine join_ofMap_eq_error.2 ⟨k, b, a, hb, ha, ih k a ha hab, ?_⟩
        intro j b a hj hb ha other herror
        cases hjoin : a.join b with
        | error c => exact hbefore j a b hj ha hb c hjoin
        | ok c =>
            have hc : Lattice.join b a = .ok c := LawfulLattice.join_comm hjoin
            cases herror.symm.trans hc
      · rw [join_of_kind_ne hkind] at h
        rw [join_of_kind_ne (Ne.symm hkind), ← Except.error.inj h]
        rfl

/-! ## Three values -/

/-- Values that can be joined pairwise can be joined all three. -/
theorem exists_join_join (hab : a.join b = .ok ab) (hac : ∃ ac, a.join c = .ok ac)
    (hbc : ∃ bc, b.join c = .ok bc) : ∃ abc, ab.join c = .ok abc := by
  induction a using map_induction generalizing b c ab with
  | leaf a hleaf =>
      obtain ⟨ac, hac⟩ := hac
      have hkind := (kind_of_join hab).2
      exact exists_join_of_kind_eq (hkind.trans (kind_of_join hac).1.symm) (hkind ▸ hleaf)
  | map m ih =>
      obtain ⟨n, mn, rfl, hmn, rfl⟩ := embeds_ofMap.join_eq_ok.1 hab
      obtain ⟨ac, hac⟩ := hac
      obtain ⟨r, mr, rfl, hmr, rfl⟩ := embeds_ofMap.join_eq_ok.1 hac
      obtain ⟨bc, hbc⟩ := hbc
      obtain ⟨_, nr, heq, hnr, rfl⟩ := embeds_ofMap.join_eq_ok.1 hbc
      obtain rfl := ofMap_injective heq
      obtain ⟨mnr, hmnr⟩ := StringMap.exists_join_join_of
        (fun k a ha _ _ _ hab hac hbc => ih k a ha hab hac hbc) hmn ⟨mr, hmr⟩ ⟨nr, hnr⟩
      exact ⟨ofMap mnr, embeds_ofMap.join_eq_ok.2 ⟨r, mnr, rfl, hmnr, rfl⟩⟩

/-- A value can be merged into a join exactly when it can be merged into both sides. -/
theorem conflict?_join (hab : a.join b = .ok ab) :
    ab.conflict? c = none ↔ a.conflict? c = none ∧ b.conflict? c = none := by
  rw [conflict?_eq_none_iff, conflict?_eq_none_iff, conflict?_eq_none_iff]
  refine ⟨?_, fun h => exists_join_join hab h.1 h.2⟩
  rintro ⟨abc, habc⟩
  have hc : Lattice.Below c abc := Lattice.below_right habc
  have ha : Lattice.Below a abc := (Lattice.below_left hab).trans (Lattice.below_left habc)
  have hb : Lattice.Below b abc := (Lattice.below_right hab).trans (Lattice.below_left habc)
  exact ⟨(Lattice.exists_join ha hc).imp fun _ h => h.1,
    (Lattice.exists_join hb hc).imp fun _ h => h.1⟩

/-- Values form a partial join semilattice.  A value joined with itself is itself.  Joining the
other way round gives the same, and where it fails, it fails with the conflict the other way
round.  A value can be merged into a join exactly when it can be merged into both sides.  Three
values can be joined in either grouping or in none, with the same result.  The check, the join and
the merge agree about all of this. -/
theorem join_partialSemilattice (a b c : Dynamic) :
    a.join a = .ok a ∧
      b.join a = (a.join b).mapError Mismatch.swap ∧
      (∀ ab, a.join b = .ok ab →
        (ab.conflict? c = none ↔ a.conflict? c = none ∧ b.conflict? c = none)) ∧
      (∀ abc, (a.join b >>= fun ab => ab.join c) = .ok abc ↔
        (b.join c >>= fun bc => a.join bc) = .ok abc) ∧
      (∀ conflict, a.conflict? b = some conflict ↔ a.join b = .error conflict) ∧
      (a.merge b).map Prod.fst = a.join b := by
  refine ⟨LawfulLattice.join_self a, ?_, fun ab => conflict?_join, fun abc => ?_,
    fun _ => conflict?_eq_some_iff, map_fst_merge a b⟩
  · cases hjoin : a.join b with
    | ok ab =>
        have hcomm : Lattice.join b a = .ok ab := LawfulLattice.join_comm hjoin
        exact hcomm
    | error conflict => exact join_swap hjoin
  · exact Lattice.join_assoc_iff

/-- A map that holds the value two levels down. -/
def nested (a : Dynamic) : Dynamic :=
  ofMap (.singleton "outer" (ofMap (.singleton "inner" a)))

/-- Two maps with integers two levels down have a join, a flag at their place is merged into none
of them nor into the join, and the conflict depends on the side that the flag is on. -/
theorem join_partialSemilattice_nested :
    (∃ ab, (nested (ofMaxInt ⟨1⟩)).join (nested (ofMaxInt ⟨5⟩)) = .ok ab ∧
      ab.conflict? (nested (ofFlag ⟨true⟩)) ≠ none) ∧
      (nested (ofMaxInt ⟨1⟩)).join (nested (ofFlag ⟨true⟩)) = .error ⟨.maxInt, .flag⟩ ∧
      (nested (ofFlag ⟨true⟩)).join (nested (ofMaxInt ⟨1⟩)) = .error ⟨.flag, .maxInt⟩ := by
  have hflag : (nested (ofMaxInt ⟨1⟩)).conflict? (nested (ofFlag ⟨true⟩)) =
      some ⟨.maxInt, .flag⟩ := by
    decide +kernel
  obtain ⟨_, _, hthree, _⟩ := join_partialSemilattice (nested (ofMaxInt ⟨1⟩))
    (nested (ofMaxInt ⟨5⟩)) (nested (ofFlag ⟨true⟩))
  obtain ⟨_, hswap, _, _, hcheck, _⟩ := join_partialSemilattice (nested (ofMaxInt ⟨1⟩))
    (nested (ofFlag ⟨true⟩)) (nested (ofFlag ⟨true⟩))
  have herror := (hcheck _).1 hflag
  obtain ⟨ab, hab⟩ := conflict?_eq_none_iff.1 (by decide +kernel :
    (nested (ofMaxInt ⟨1⟩)).conflict? (nested (ofMaxInt ⟨5⟩)) = none)
  refine ⟨⟨ab, hab, ?_⟩, herror, ?_⟩
  · intro hnone
    cases hflag.symm.trans ((hthree ab hab).1 hnone).1
  · rw [hswap, herror]
    rfl

end Dynamic

end Ratchet

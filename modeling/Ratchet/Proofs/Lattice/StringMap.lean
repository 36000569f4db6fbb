import Ratchet.Proofs.Lattice.Ascending
import Ratchet.Proofs.Lattice.Lawful

/-!
# The laws of maps

A map is what it holds at each key (`StringMap.ext_get?`), and its join is taken key by key:
`join_eq_ok` says so, with `joinOption` for the two values at one key, either of which may be
missing.  Merging goes through the entries of the right map one after the other; since no key
comes up twice, it ends at the same map (`exactMerge_of`).

The laws then follow from the laws of the values at each key.  They are stated with the laws of
just the values that occur, because a dynamically typed value has to get them from the values inside
it.
-/

namespace Ratchet

/-- Joins two values at a key, either of which may be missing. -/
def joinOption {V : Type} (join : V → V → Except Mismatch V) :
    Option V → Option V → Except Mismatch (Option V)
  | none, y => .ok y
  | some a, none => .ok (some a)
  | some a, some b => (join a b).map some

section Option

variable {V : Type} {join : V → V → Except Mismatch V} {x y z xy xyz : Option V}

theorem joinOption_some_eq_ok {a b : V} :
    joinOption join (some a) (some b) = .ok z ↔ ∃ c, join a b = .ok c ∧ z = some c := by
  cases h : join a b <;> simp [joinOption, h, Except.map, eq_comm]

@[simp] theorem joinOption_none_right : joinOption join x none = .ok x := by
  cases x <;> rfl

theorem joinOption_self (h : ∀ a, x = some a → join a a = .ok a) :
    joinOption join x x = .ok x := by
  cases x with
  | none => rfl
  | some a => exact joinOption_some_eq_ok.2 ⟨a, h a rfl, rfl⟩

theorem joinOption_comm
    (law : ∀ a b c, x = some a → y = some b → join a b = .ok c → join b a = .ok c)
    (h : joinOption join x y = .ok z) : joinOption join y x = .ok z := by
  cases x with
  | none => rwa [joinOption_none_right]
  | some a =>
      cases y with
      | none => exact h
      | some b =>
          obtain ⟨c, hc, rfl⟩ := joinOption_some_eq_ok.1 h
          exact joinOption_some_eq_ok.2 ⟨c, law a b c rfl rfl hc, rfl⟩

theorem joinOption_assoc
    (law : ∀ a b c ab abc, x = some a → join a b = .ok ab → join ab c = .ok abc →
      ∃ bc, join b c = .ok bc ∧ join a bc = .ok abc)
    (hxy : joinOption join x y = .ok xy) (hxyz : joinOption join xy z = .ok xyz) :
    ∃ yz, joinOption join y z = .ok yz ∧ joinOption join x yz = .ok xyz := by
  cases x with
  | none =>
      obtain rfl := Except.ok.inj hxy
      exact ⟨xyz, hxyz, rfl⟩
  | some a =>
      cases y with
      | none =>
          obtain rfl := Except.ok.inj hxy
          exact ⟨z, rfl, hxyz⟩
      | some b =>
          obtain ⟨ab, hab, rfl⟩ := joinOption_some_eq_ok.1 hxy
          cases z with
          | none =>
              obtain rfl := Except.ok.inj hxyz
              exact ⟨some b, rfl, hxy⟩
          | some c =>
              obtain ⟨abc, habc, rfl⟩ := joinOption_some_eq_ok.1 hxyz
              obtain ⟨bc, hbc, habc⟩ := law a b c ab abc rfl hab habc
              exact ⟨some bc, joinOption_some_eq_ok.2 ⟨bc, hbc, rfl⟩,
                joinOption_some_eq_ok.2 ⟨abc, habc, rfl⟩⟩

end Option

namespace StringMap

/-! ## Joining and merging entries -/

section Entries

variable {V : Type} {join : V → V → Except Mismatch V} {es fs gs : List (String × V)}

/-- The join of two ascending lists is taken key by key. -/
theorem lookup_joinEntries (hes : AscendingKeys es) (hfs : AscendingKeys fs)
    (h : joinEntries join es fs = .ok gs) (k : String) :
    joinOption join (es.lookup k) (fs.lookup k) = .ok (gs.lookup k) := by
  induction es generalizing fs gs with
  | nil =>
      obtain rfl := Except.ok.inj h
      rfl
  | cons e es ih =>
      obtain ⟨key, value⟩ := e
      have ⟨hhead, htail⟩ := List.pairwise_cons.1 hes
      obtain ⟨joined, rest, hjoined, hrest, rfl⟩ := joinEntries_cons h
      have hdrop : AscendingKeys (fs.dropWhile fun f => compare f.1 key != .gt) :=
        hfs.sublist (List.dropWhile_sublist _)
      rw [List.lookup_append]
      cases hk : compare k key with
      | lt =>
          -- only the right list reaches below the first key of the left one
          have hne : compare k key ≠ .eq := by simp [hk]
          have hnone : es.lookup k = none :=
            lookup_eq_none_of_lt fun e he => Element.lt_trans hk (hhead e he)
          have hrestNone : rest.lookup k = none := by
            refine lookup_eq_none_of_lt fun e he => Element.lt_trans hk ?_
            rcases key_of_mem_joinEntries hrest he with ⟨f, hf, hkey⟩ | ⟨f, hf, hkey⟩
            · exact hkey ▸ hhead f hf
            · exact hkey ▸ lt_of_mem_dropWhile hfs hf
          rw [lookup_cons_of_ne hne, lookup_cons_of_ne hne, hnone, hrestNone,
            lookup_takeWhile_of_lt hfs hk]
          cases fs.lookup k <;> rfl
      | eq =>
          -- the head of the left list meets what is found for it in the right one
          obtain rfl := Element.eq_iff.1 hk
          have hnot : compare k k ≠ .lt := Element.lt_irrefl k
          rw [lookup_takeWhile_of_not_lt hnot, List.lookup_cons_self, List.lookup_cons_self]
          cases hfound : fs.lookup k with
          | none =>
              rw [hfound] at hjoined
              obtain rfl := Except.ok.inj hjoined
              rfl
          | some found =>
              rw [hfound] at hjoined
              exact joinOption_some_eq_ok.2 ⟨joined, hjoined, rfl⟩
      | gt =>
          -- neither list has lost anything above the head
          have hne : compare k key ≠ .eq := by simp [hk]
          have hnot : compare k key ≠ .lt := by simp [hk]
          rw [lookup_takeWhile_of_not_lt hnot, lookup_cons_of_ne hne, lookup_cons_of_ne hne,
            ← lookup_dropWhile_of_gt hfs hk]
          exact ih htail hdrop hrest

/-- Two ascending lists have a join if their values at every key have one. -/
theorem exists_joinEntries (hes : AscendingKeys es) (hfs : AscendingKeys fs)
    (h : ∀ k, ∃ z, joinOption join (es.lookup k) (fs.lookup k) = .ok z) :
    ∃ gs, joinEntries join es fs = .ok gs := by
  induction es generalizing fs with
  | nil => exact ⟨fs, rfl⟩
  | cons e es ih =>
      obtain ⟨key, value⟩ := e
      have ⟨hhead, htail⟩ := List.pairwise_cons.1 hes
      have hdrop : AscendingKeys (fs.dropWhile fun f => compare f.1 key != .gt) :=
        hfs.sublist (List.dropWhile_sublist _)
      obtain ⟨joined, hjoined⟩ :
          ∃ joined, joinFound (fun found => join value found) value (fs.lookup key) =
            .ok joined := by
        obtain ⟨z, hz⟩ := h key
        rw [List.lookup_cons_self] at hz
        cases hfound : fs.lookup key with
        | none => exact ⟨value, rfl⟩
        | some found =>
            rw [hfound] at hz
            obtain ⟨c, hc, _⟩ := joinOption_some_eq_ok.1 hz
            exact ⟨c, hc⟩
      have htails : ∀ k, ∃ z, joinOption join (es.lookup k)
          ((fs.dropWhile fun f => compare f.1 key != .gt).lookup k) = .ok z := by
        intro k
        cases hk : compare k key with
        | gt =>
            have hz := h k
            rwa [lookup_cons_of_ne (by simp [hk]), ← lookup_dropWhile_of_gt hfs hk] at hz
        | lt =>
            rw [lookup_eq_none_of_lt fun e he => Element.lt_trans hk (hhead e he)]
            exact ⟨_, rfl⟩
        | eq =>
            obtain rfl := Element.eq_iff.1 hk
            rw [lookup_eq_none_of_lt hhead]
            exact ⟨_, rfl⟩
      obtain ⟨rest, hrest⟩ := ih htail hdrop htails
      exact ⟨_, bind_eq_ok.2 ⟨joined, hjoined, bind_eq_ok.2 ⟨rest, hrest, rfl⟩⟩⟩

variable {merge : V → V → Except Mismatch (V × Bool)} {key : String} {value : V} {grew : Bool}

/-- Growing one entry joins the value into what is found at its key. -/
theorem growEntry_spec (law : ExactMerge join merge value)
    (h : growEntry key value (fun old => merge old value) es = .ok (gs, grew)) :
    ∃ c, joinOption join (es.lookup key) (some value) = .ok (some c) ∧
      gs = putEntry key c es ∧ (grew = true ↔ es.lookup key ≠ some c) := by
  rcases growEntry_eq_ok h with ⟨hold, heq⟩ | ⟨old, ⟨c, grown⟩, hold, hmerge, heq⟩
  · cases heq
    exact ⟨value, by rw [hold]; rfl, rfl, by simp [hold]⟩
  · cases heq
    obtain ⟨hjoin, hgrew⟩ := law.eq_join hmerge
    refine ⟨c, by rw [hold]; exact joinOption_some_eq_ok.2 ⟨c, hjoin, rfl⟩, rfl, ?_⟩
    rw [hgrew, hold, ne_eq, ne_eq, Option.some.injEq, eq_comm]

theorem exists_growEntry (law : ExactMerge join merge value) {z : Option V}
    (h : joinOption join (es.lookup key) (some value) = .ok z) :
    ∃ result, growEntry key value (fun old => merge old value) es = .ok result := by
  unfold growEntry
  cases hold : es.lookup key with
  | none => exact ⟨_, rfl⟩
  | some old =>
      rw [hold] at h
      obtain ⟨c, hc, _⟩ := joinOption_some_eq_ok.1 h
      obtain ⟨grown, hmerge⟩ := law.exists_merge hc
      exact ⟨_, bind_eq_ok.2 ⟨_, hmerge, rfl⟩⟩

/-- Merging a list of entries of distinct keys takes the join at every key, and reports growth if
what is found at some key is new. -/
theorem lookup_mergeEntries (hfs : AscendingKeys fs)
    (law : ∀ f ∈ fs, ExactMerge join merge f.2)
    (h : mergeEntries merge es fs = .ok (gs, grew)) :
    (∀ k, joinOption join (es.lookup k) (fs.lookup k) = .ok (gs.lookup k)) ∧
      (grew = true ↔ ∃ k, gs.lookup k ≠ es.lookup k) := by
  induction fs generalizing es gs grew with
  | nil =>
      cases h
      simp
  | cons f fs ih =>
      obtain ⟨key, value⟩ := f
      have ⟨hhead, htail⟩ := List.pairwise_cons.1 hfs
      obtain ⟨⟨mid, grown⟩, ⟨rest, more⟩, hgrow, hrest, heq⟩ := mergeEntries_cons h
      obtain ⟨rfl, rfl⟩ := Prod.mk.injEq .. ▸ heq
      obtain ⟨c, hc, rfl, hgrown⟩ := growEntry_spec (law _ List.mem_cons_self) hgrow
      obtain ⟨hlookup, hmore⟩ := ih htail (fun f hf => law f (List.mem_cons_of_mem _ hf)) hrest
      -- no later entry has the key of the first one
      have hkey : gs.lookup key = some c := by
        have hat := hlookup key
        rw [lookup_putEntry, if_pos rfl, lookup_eq_none_of_lt hhead, joinOption_none_right] at hat
        exact (Except.ok.inj hat).symm
      have hother : ∀ k, k ≠ key → (putEntry key c es).lookup k = es.lookup k := by
        intro k hk
        rw [lookup_putEntry, if_neg hk]
      constructor
      · intro k
        by_cases hk : k = key
        · subst hk
          rw [List.lookup_cons_self, hc, hkey]
        · rw [lookup_cons_of_ne (mt Element.eq_iff.1 hk), ← hother k hk]
          exact hlookup k
      · rw [Bool.or_eq_true, hgrown, hmore]
        constructor
        · rintro (hnew | ⟨k, hk⟩)
          · exact ⟨key, by rw [hkey]; exact hnew.symm⟩
          · by_cases heq : k = key
            · rw [heq, hkey, lookup_putEntry, if_pos rfl] at hk
              exact absurd rfl hk
            · exact ⟨k, hother k heq ▸ hk⟩
        · rintro ⟨k, hk⟩
          by_cases heq : k = key
          · rw [heq, hkey] at hk
            exact .inl hk.symm
          · exact .inr ⟨k, (hother k heq).symm ▸ hk⟩

/-- Entries of distinct keys can be merged if their values can be joined at every key. -/
theorem exists_mergeEntries (hfs : AscendingKeys fs)
    (law : ∀ f ∈ fs, ExactMerge join merge f.2)
    (h : ∀ k, ∃ z, joinOption join (es.lookup k) (fs.lookup k) = .ok z) :
    ∃ result, mergeEntries merge es fs = .ok result := by
  induction fs generalizing es with
  | nil => exact ⟨_, rfl⟩
  | cons f fs ih =>
      obtain ⟨key, value⟩ := f
      have ⟨hhead, htail⟩ := List.pairwise_cons.1 hfs
      have hvalue := law (key, value) List.mem_cons_self
      obtain ⟨⟨mid, grown⟩, hgrow⟩ :
          ∃ result, growEntry key value (fun old => merge old value) es = .ok result := by
        obtain ⟨z, hz⟩ := h key
        rw [List.lookup_cons_self] at hz
        exact exists_growEntry hvalue hz
      obtain ⟨c, hc, rfl, _⟩ := growEntry_spec hvalue hgrow
      have hrest : ∀ k, ∃ z, joinOption join ((putEntry key c es).lookup k) (fs.lookup k) =
          .ok z := by
        intro k
        by_cases hk : k = key
        · subst hk
          rw [lookup_eq_none_of_lt hhead, joinOption_none_right]
          exact ⟨_, rfl⟩
        · have hz := h k
          rw [lookup_cons_of_ne (mt Element.eq_iff.1 hk)] at hz
          rwa [lookup_putEntry, if_neg hk]
      obtain ⟨result, hresult⟩ := ih htail (fun f hf => law f (List.mem_cons_of_mem _ hf)) hrest
      exact ⟨_, bind_eq_ok.2 ⟨_, hgrow, bind_eq_ok.2 ⟨result, hresult, rfl⟩⟩⟩

end Entries

/-! ## Maps -/

section Map

variable {V : Type} {m n : StringMap V} {k key : String} {value : V}

theorem entries_injective (h : m.entries = n.entries) : m = n := by
  cases m
  cases n
  subst h
  rfl

theorem ext_get? (h : ∀ k, m.get? k = n.get? k) : m = n :=
  entries_injective (m.ascending.ext n.ascending h)

@[simp] theorem get?_empty : (empty : StringMap V).get? k = none := rfl

theorem get?_put : (m.put key value).get? k = if k = key then some value else m.get? k :=
  lookup_putEntry k

@[simp] theorem get?_put_self : (m.put k value).get? k = some value := by
  rw [get?_put, if_pos rfl]

theorem get?_put_of_ne (h : k ≠ key) : (m.put key value).get? k = m.get? k := by
  rw [get?_put, if_neg h]

/-- Entries above all others are put at the end, one after the other. -/
theorem entries_foldl_put {es : List (String × V)}
    (h : AscendingKeys (m.entries ++ es)) :
    (es.foldl (fun m e => m.put e.1 e.2) m).entries = m.entries ++ es := by
  induction es generalizing m with
  | nil => exact (List.append_nil _).symm
  | cons e es ih =>
      have hput : (m.put e.1 e.2).entries = m.entries ++ [e] := putEntry_of_gt fun f hf =>
        (List.pairwise_append.1 h).2.2 f hf e List.mem_cons_self
      rw [List.append_cons, ← hput] at h ⊢
      exact ih h

/-- The entries of a map make the map again. -/
theorem ofList_entries (m : StringMap V) : ofList m.entries = m :=
  entries_injective (entries_foldl_put (m := empty) m.ascending)

theorem get?_singleton : (singleton key value).get? k = if k = key then some value else none :=
  get?_put

theorem mem_entries : (key, value) ∈ m.entries ↔ m.get? key = some value :=
  m.ascending.mem_iff_lookup

end Map

/-! ## The laws -/

section Lattice

variable {V : Type} [Lattice V] {m n r : StringMap V}

theorem map_entries_join :
    (m.join n).map entries = joinEntries Lattice.join m.entries n.entries := by
  unfold join
  split
  · next es hes => exact hes.symm
  · next conflict herror => exact herror.symm

theorem map_entries_merge :
    (m.merge n).map (Prod.map entries id) = mergeEntries Lattice.merge m.entries n.entries := by
  unfold merge
  split
  · next result hresult => exact hresult.symm
  · next conflict herror => exact herror.symm

/-- The join of two maps is taken key by key. -/
theorem join_eq_ok :
    m.join n = .ok r ↔ ∀ k, joinOption Lattice.join (m.get? k) (n.get? k) = .ok (r.get? k) := by
  constructor
  · intro h
    refine lookup_joinEntries m.ascending n.ascending ?_
    rw [← map_entries_join, h]
    rfl
  · intro h
    obtain ⟨es, hes⟩ := exists_joinEntries m.ascending n.ascending fun k => ⟨_, h k⟩
    have hlookup := lookup_joinEntries m.ascending n.ascending hes
    have heq : es = r.entries :=
      (ascending_joinEntries m.ascending n.ascending hes).ext r.ascending fun k =>
        Except.ok.inj ((hlookup k).symm.trans (h k))
    refine eq_of_map_eq (fun _ _ => entries_injective) (f := entries) ?_
    rw [map_entries_join, hes, heq]
    rfl

theorem exists_join_of
    (h : ∀ k, ∃ z, joinOption Lattice.join (m.get? k) (n.get? k) = .ok z) :
    ∃ r, m.join n = .ok r := by
  obtain ⟨es, hes⟩ := exists_joinEntries m.ascending n.ascending h
  have hascending := ascending_joinEntries m.ascending n.ascending hes
  exact ⟨⟨es, hascending⟩, join_eq_ok.2 (lookup_joinEntries m.ascending n.ascending hes)⟩

/-- Two maps have a join if the values at the keys that both have do. -/
theorem exists_join_iff : (∃ r, m.join n = .ok r) ↔
    ∀ k a b, m.get? k = some a → n.get? k = some b → ∃ c, Lattice.join a b = .ok c := by
  constructor
  · rintro ⟨r, hjoin⟩ k a b ha hb
    have hk := join_eq_ok.1 hjoin k
    rw [ha, hb, joinOption_some_eq_ok] at hk
    obtain ⟨c, hc, _⟩ := hk
    exact ⟨c, hc⟩
  · intro h
    refine exists_join_of fun k => ?_
    cases ha : m.get? k with
    | none => exact ⟨_, rfl⟩
    | some a =>
        cases hb : n.get? k with
        | none => exact ⟨_, rfl⟩
        | some b =>
            obtain ⟨c, hc⟩ := h k a b ha hb
            exact ⟨some c, joinOption_some_eq_ok.2 ⟨c, hc, rfl⟩⟩

/-! The laws for single maps, from the laws of the values that they hold. -/

theorem join_self_of (law : ∀ k a, m.get? k = some a → Lattice.join a a = .ok a) :
    m.join m = .ok m :=
  join_eq_ok.2 fun k => joinOption_self fun a ha => law k a ha

theorem join_comm_of
    (law : ∀ k a, m.get? k = some a → ∀ b c : V, Lattice.join a b = .ok c →
      Lattice.join b a = .ok c)
    (h : m.join n = .ok r) : n.join m = .ok r :=
  join_eq_ok.2 fun k =>
    joinOption_comm (fun a b c ha _ hc => law k a ha b c hc) (join_eq_ok.1 h k)

theorem join_assoc_of {l mn mnl : StringMap V}
    (law : ∀ k a, m.get? k = some a → ∀ b c ab abc : V, Lattice.join a b = .ok ab →
      Lattice.join ab c = .ok abc → ∃ bc, Lattice.join b c = .ok bc ∧ Lattice.join a bc = .ok abc)
    (hmn : m.join n = .ok mn) (hmnl : mn.join l = .ok mnl) :
    ∃ nl, n.join l = .ok nl ∧ m.join nl = .ok mnl := by
  have hassoc : ∀ k, ∃ z, joinOption Lattice.join (n.get? k) (l.get? k) = .ok z ∧
      joinOption Lattice.join (m.get? k) z = .ok (mnl.get? k) := fun k =>
    joinOption_assoc (fun a b c ab abc ha => law k a ha b c ab abc) (join_eq_ok.1 hmn k)
      (join_eq_ok.1 hmnl k)
  obtain ⟨nl, hnl⟩ := exists_join_of fun k => (hassoc k).imp fun z hz => hz.1
  refine ⟨nl, hnl, join_eq_ok.2 ?_⟩
  intro k
  obtain ⟨z, hz, hmz⟩ := hassoc k
  obtain rfl := Except.ok.inj (hz.symm.trans (join_eq_ok.1 hnl k))
  exact hmz

theorem add_eq_merge (m : StringMap V) (key : String) (value : V) :
    m.add key value = m.merge (singleton key value) := by
  refine eq_of_map_eq (f := Prod.map entries id) ?_ ?_
  · rintro ⟨m, _⟩ ⟨n, _⟩ h
    obtain ⟨hentries, hgrew⟩ := Prod.mk.inj h
    exact Prod.ext (entries_injective hentries) hgrew
  · rw [map_entries_merge]
    have hadd : (m.add key value).map (Prod.map entries id) =
        growEntry key value (fun old => Lattice.merge old value) m.entries := by
      unfold add
      split
      · next result hresult => exact hresult.symm
      · next conflict herror => exact herror.symm
    change _ = growEntry key value (fun old => Lattice.merge old value) m.entries >>=
      fun grown => Except.ok (grown.1, grown.2 || false)
    rw [hadd]
    simp only [Bool.or_false]
    cases growEntry key value (fun old => Lattice.merge old value) m.entries <;> rfl

/-- Merging a map joins it if merging each of its values does. -/
theorem exactMerge_of
    (law : ∀ k b, n.get? k = some b → ExactMerge Lattice.join Lattice.merge b) :
    ExactMerge join merge n := by
  have hlaw : ∀ f ∈ n.entries, ExactMerge Lattice.join Lattice.merge f.2 :=
    fun f hf => law f.1 f.2 (mem_entries.1 hf)
  have hspec : ∀ {m r : StringMap V} {grew : Bool}, m.merge n = .ok (r, grew) →
      m.join n = .ok r ∧ (grew = true ↔ r ≠ m) := by
    intro m r grew h
    have hmerge : mergeEntries Lattice.merge m.entries n.entries = .ok (r.entries, grew) := by
      rw [← map_entries_merge, h]
      rfl
    obtain ⟨hlookup, hgrew⟩ := lookup_mergeEntries n.ascending hlaw hmerge
    refine ⟨join_eq_ok.2 hlookup, hgrew.trans ⟨?_, ?_⟩⟩
    · rintro ⟨k, hk⟩ rfl
      exact hk rfl
    · intro hne
      refine Classical.byContradiction fun hall => hne (ext_get? ?_)
      intro k
      exact Classical.byContradiction fun hk => hall ⟨k, hk⟩
  refine ⟨hspec, fun {m r} hjoin => ?_⟩
  obtain ⟨result, hmerge⟩ := exists_mergeEntries n.ascending hlaw
    fun k => ⟨_, join_eq_ok.1 hjoin k⟩
  cases hresult : m.merge n with
  | error conflict =>
      rw [← map_entries_merge, hresult] at hmerge
      cases hmerge
  | ok result =>
      obtain ⟨hjoin', _⟩ := hspec hresult
      obtain rfl := Except.ok.inj (hjoin.symm.trans hjoin')
      exact ⟨result.2, rfl⟩

instance [LawfulLattice V] : LawfulRelation (StringMap V) where
  join_self _ := join_self_of fun _ a _ => LawfulLattice.join_self a
  join_comm h := join_comm_of (fun _ _ _ _ _ hc => LawfulLattice.join_comm hc) h
  join_assoc h := join_assoc_of
    (fun _ _ _ _ _ _ _ hab habc => LawfulLattice.join_assoc hab habc) h
  exactMerge _ := exactMerge_of fun _ b _ => LawfulLattice.exactMerge b
  add_eq_merge e := ⟨singleton e.key e.value, fun m => add_eq_merge m e.key e.value⟩

theorem mem_tuples {e : MapEntry V} : e ∈ Relation.tuples m ↔ m.get? e.key = some e.value := by
  rw [← mem_entries]
  change e ∈ m.entries.map _ ↔ _
  rw [List.mem_map]
  constructor
  · rintro ⟨f, hf, rfl⟩
    exact hf
  · intro he
    exact ⟨_, he, rfl⟩

section Add

variable [LawfulLattice V] {es : List (MapEntry V)}

/-- Adding an entry joins its value with the one at its key. -/
theorem get?_of_add {grew : Bool} (h : m.add key value = .ok (r, grew)) (k : String) :
    joinOption Lattice.join (m.get? k) (if k = key then some value else none) =
      .ok (r.get? k) := by
  rw [add_eq_merge] at h
  have hjoin := ((LawfulLattice.exactMerge (singleton key value)).eq_join h).1
  rw [← get?_singleton]
  exact join_eq_ok.1 hjoin k

/-- Adding entries leaves the other keys alone. -/
theorem get?_of_addAll (h : Relation.addAll m es = .ok r) (hk : ∀ e ∈ es, e.key ≠ k) :
    r.get? k = m.get? k := by
  induction es generalizing m with
  | nil => rw [Relation.addAll_nil.1 h]
  | cons e es ih =>
      obtain ⟨⟨mid, grew⟩, hadd, hrest⟩ := Relation.addAll_cons.1 h
      obtain ⟨he, hes⟩ := List.forall_mem_cons.1 hk
      have hmid := get?_of_add hadd k
      rw [if_neg (Ne.symm he), joinOption_none_right] at hmid
      rw [ih hrest hes, Except.ok.inj hmid]

/-- What holds of a value after adding entries, and holds of a join only if it holds of one of its
sides, comes from the value before or from one of the entries. -/
theorem mem_of_addAll {P : V → Prop}
    (hP : ∀ a b c, Lattice.join a b = .ok c → P c → P a ∨ P b)
    (h : Relation.addAll m es = .ok r) {c : V} (hc : r.get? k = some c) (hPc : P c) :
    (∃ a, m.get? k = some a ∧ P a) ∨ ∃ e ∈ es, e.key = k ∧ P e.value := by
  induction es generalizing m with
  | nil =>
      obtain rfl := Relation.addAll_nil.1 h
      exact .inl ⟨c, hc, hPc⟩
  | cons e es ih =>
      obtain ⟨⟨mid, grew⟩, hadd, hrest⟩ := Relation.addAll_cons.1 h
      rcases ih hrest with ⟨b, hb, hPb⟩ | ⟨f, hf, hkey, hPf⟩
      · have hmid := get?_of_add hadd k
        rw [hb] at hmid
        by_cases hk : k = e.key
        · rw [if_pos hk] at hmid
          cases ha : m.get? k with
          | none =>
              rw [ha] at hmid
              obtain rfl := Option.some.inj (Except.ok.inj hmid)
              exact .inr ⟨e, List.mem_cons_self, hk.symm, hPb⟩
          | some a =>
              rw [ha, joinOption_some_eq_ok] at hmid
              obtain ⟨b', hjoin, heq⟩ := hmid
              obtain rfl := Option.some.inj heq
              rcases hP _ _ _ hjoin hPb with hPa | hPe
              · exact .inl ⟨a, rfl, hPa⟩
              · exact .inr ⟨e, List.mem_cons_self, hk.symm, hPe⟩
        · rw [if_neg hk, joinOption_none_right] at hmid
          exact .inl ⟨b, Except.ok.inj hmid, hPb⟩
      · exact .inr ⟨f, List.mem_cons_of_mem _ hf, hkey, hPf⟩

/-- What was added is below what is there. -/
theorem exists_below_of_addAll {e : MapEntry V} (h : Relation.addAll m es = .ok r) (he : e ∈ es) :
    ∃ a, r.get? e.key = some a ∧ Lattice.Below e.value a := by
  have hsame : Relation.addAll r [e] = .ok r :=
    Relation.addAll_of_subset h (Lattice.below_refl r) (by simpa using he)
  obtain ⟨⟨r', grew⟩, hadd, hrest⟩ := Relation.addAll_cons.1 hsame
  obtain rfl : r = r' := Relation.addAll_nil.1 hrest
  have hjoin := get?_of_add hadd e.key
  rw [if_pos rfl] at hjoin
  cases hget : r.get? e.key with
  | none =>
      rw [hget] at hjoin
      cases hjoin
  | some a =>
      rw [hget, joinOption_some_eq_ok] at hjoin
      obtain ⟨b, hb, heq⟩ := hjoin
      obtain rfl := Option.some.inj heq
      exact ⟨a, rfl, LawfulLattice.join_comm hb⟩

/-- What was added is there. -/
theorem exists_get?_of_addAll {e : MapEntry V} (h : Relation.addAll m es = .ok r) (he : e ∈ es) :
    ∃ a, r.get? e.key = some a :=
  (exists_below_of_addAll h he).imp fun _ ha => ha.1

/-- The keys after adding entries are those from before and those of the entries. -/
theorem exists_get?_of_addAll_iff (h : Relation.addAll m es = .ok r) :
    (∃ c, r.get? k = some c) ↔ (∃ a, m.get? k = some a) ∨ ∃ e ∈ es, e.key = k := by
  constructor
  · rintro ⟨c, hc⟩
    have hkept : ∀ a b c : V, Lattice.join a b = .ok c → True → True ∨ True :=
      fun _ _ _ _ _ => .inl trivial
    rcases mem_of_addAll hkept h hc trivial with ⟨a, ha, _⟩ | ⟨e, he, hkey, _⟩
    · exact .inl ⟨a, ha⟩
    · exact .inr ⟨e, he, hkey⟩
  · rintro (⟨a, ha⟩ | ⟨e, he, rfl⟩)
    · have hjoin := join_eq_ok.1 (Relation.below_of_addAll h) k
      cases hc : r.get? k with
      | some c => exact ⟨c, rfl⟩
      | none =>
          rw [ha, hc] at hjoin
          cases hjoin
    · exact exists_get?_of_addAll h he

end Add

/-- A map is below another one if its entries are, key by key. -/
theorem below_iff : Lattice.Below m n ↔
    ∀ k a, m.get? k = some a → ∃ b, n.get? k = some b ∧ Lattice.Below a b := by
  refine join_eq_ok.trans ⟨?_, ?_⟩
  · intro h k a ha
    have hk := h k
    rw [ha] at hk
    cases hb : n.get? k with
    | none =>
        rw [hb] at hk
        cases hk
    | some b =>
        rw [hb, joinOption_some_eq_ok] at hk
        obtain ⟨c, hc, heq⟩ := hk
        obtain rfl := Option.some.inj heq
        exact ⟨b, rfl, hc⟩
  · intro h k
    cases ha : m.get? k with
    | none => rfl
    | some a =>
        obtain ⟨b, hb, hab⟩ := h k a ha
        rw [hb]
        exact joinOption_some_eq_ok.2 ⟨b, hab, rfl⟩

theorem get?_eq_none_of_below [LawfulLattice V] (h : Lattice.Below m n) (hk : n.get? k = none) :
    m.get? k = none := by
  cases ha : m.get? k with
  | none => rfl
  | some a =>
      obtain ⟨b, hb, _⟩ := below_iff.1 h k a ha
      cases hb.symm.trans hk

end Lattice

end StringMap

end Ratchet

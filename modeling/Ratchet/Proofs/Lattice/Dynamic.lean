import Ratchet.Lattice.Dynamic
import Ratchet.Proofs.Lattice.GrowSet
import Ratchet.Proofs.Lattice.Register
import Ratchet.Proofs.Lattice.StringMap

/-!
# The laws of dynamically typed values

A dynamically typed value is a tree.  `join_ofMap` and `merge_ofMap` say that joining two maps of
values is joining them as maps, so nothing needs to be said about trees again, and
`Dynamic.induction` is an induction over values in which the case of a map speaks about the values
it holds.

Each kind of value is then an embedding of a lattice (`Embeds`): a value of the kind joins with
values of its kind only, and there as in the lattice.  One proof for embeddings gives the laws for
all five kinds, the laws of the values inside a map being the hypothesis of the induction.

A conflict is found before anything is merged; `conflict?_eq_none_iff` says that it is found exactly
when there is no join.
-/

namespace Ratchet

/-! ## Entries under a change of values -/

section Map

variable {V W : Type} (f : V → W) {es fs : List (String × V)}

/-- Changes the values of entries. -/
def mapValues (es : List (String × V)) : List (String × W) := es.map fun e => (e.1, f e.2)

theorem mapValues_cons (key : String) (value : V) :
    mapValues f ((key, value) :: es) = (key, f value) :: mapValues f es := rfl

theorem lookup_mapValues (k : String) : (mapValues f es).lookup k = (es.lookup k).map f := by
  induction es with
  | nil => rfl
  | cons e es ih =>
      rw [mapValues_cons, List.lookup_cons, List.lookup_cons, ih]
      cases k == e.1 <;> rfl

theorem putEntry_mapValues (key : String) (value : V) :
    StringMap.putEntry key (f value) (mapValues f es) =
      mapValues f (StringMap.putEntry key value es) := by
  induction es with
  | nil => rfl
  | cons e es ih =>
      simp only [mapValues, List.map_cons, StringMap.putEntry] at ih ⊢
      cases compare key e.1 <;> simp [ih]

theorem joinEntries_mapValues (join : V → V → Except Mismatch V) {joinW : W → W → Except Mismatch W}
    (h : ∀ a b, joinW (f a) (f b) = (join a b).map f) :
    StringMap.joinEntries joinW (mapValues f es) (mapValues f fs) =
      (StringMap.joinEntries join es fs).map (mapValues f) := by
  induction es generalizing fs with
  | nil => rfl
  | cons e es ih =>
      obtain ⟨key, value⟩ := e
      have hfound : StringMap.joinFound (fun found => joinW (f value) found) (f value)
          ((mapValues f fs).lookup key) =
            (StringMap.joinFound (fun found => join value found) value (fs.lookup key)).map f := by
        rw [lookup_mapValues]
        cases fs.lookup key with
        | none => rfl
        | some found => exact h value found
      have hdrop : (mapValues f fs).dropWhile (fun e => compare e.1 key != .gt) =
          mapValues f (fs.dropWhile fun e => compare e.1 key != .gt) := by
        simp only [mapValues, List.dropWhile_map]
        rfl
      have htake : (mapValues f fs).takeWhile (fun e => compare e.1 key == .lt) =
          mapValues f (fs.takeWhile fun e => compare e.1 key == .lt) := by
        simp only [mapValues, List.takeWhile_map]
        rfl
      rw [mapValues_cons, StringMap.joinEntries, hfound, hdrop, htake, ih, StringMap.joinEntries]
      cases StringMap.joinFound (fun found => join value found) value (fs.lookup key) with
      | error conflict => rfl
      | ok joined =>
          cases StringMap.joinEntries join es (fs.dropWhile fun e => compare e.1 key != .gt) with
          | error conflict => rfl
          | ok rest => simp [bind, Except.bind, Except.map, pure, Except.pure, mapValues]

theorem mergeEntries_mapValues (merge : V → V → Except Mismatch (V × Bool))
    {mergeW : W → W → Except Mismatch (W × Bool)}
    (h : ∀ a b, mergeW (f a) (f b) = (merge a b).map (Prod.map f id)) :
    StringMap.mergeEntries mergeW (mapValues f es) (mapValues f fs) =
      (StringMap.mergeEntries merge es fs).map (Prod.map (mapValues f) id) := by
  induction fs generalizing es with
  | nil => rfl
  | cons e fs ih =>
      obtain ⟨key, value⟩ := e
      have hgrow : StringMap.growEntry key (f value) (fun old => mergeW old (f value))
          (mapValues f es) =
            (StringMap.growEntry key value (fun old => merge old value) es).map
              (Prod.map (mapValues f) id) := by
        unfold StringMap.growEntry
        rw [lookup_mapValues]
        cases es.lookup key with
        | none => exact congrArg (fun es => Except.ok (es, true)) (putEntry_mapValues f key value)
        | some old =>
            simp only [Option.map_some, h]
            cases merge old value with
            | error conflict => rfl
            | ok grown =>
                exact congrArg (fun es => Except.ok (es, grown.2))
                  (putEntry_mapValues f key grown.1)
      rw [mapValues_cons, StringMap.mergeEntries, hgrow, StringMap.mergeEntries]
      cases StringMap.growEntry key value (fun old => merge old value) es with
      | error conflict => rfl
      | ok grown =>
          simp only [Except.map, bind, Except.bind, Prod.map, ih]
          cases StringMap.mergeEntries merge grown.1 fs <;> rfl

end Map

namespace Dynamic

/-! ## Values and trees -/

theorem tree_injective {a b : Dynamic} (h : a.tree = b.tree) : a = b := by
  cases a
  cases b
  subst h
  rfl

theorem map_tree_join (a b : Dynamic) : (a.join b).map tree = a.tree.join b.tree := by
  unfold join
  split
  · next t ht => exact ht.symm
  · next conflict herror => exact herror.symm

theorem map_tree_merge (a b : Dynamic) :
    (a.merge b).map (Prod.map tree id) = a.tree.merge b.tree := by
  unfold merge
  split
  · next result hresult => exact hresult.symm
  · next conflict herror => exact herror.symm

theorem join_iff_tree {a b c : Dynamic} :
    a.join b = .ok c ↔ a.tree.join b.tree = .ok c.tree := by
  rw [← map_tree_join]
  exact ⟨fun h => h ▸ rfl, fun h => eq_of_map_eq (fun _ _ => tree_injective) h⟩

theorem tree_ofMap (m : StringMap Dynamic) : (ofMap m).tree = .map (mapValues tree m.entries) := rfl

theorem mapValues_ofEntries (es : List (String × Tree)) (h : Tree.CanonicalEntries es) :
    mapValues tree (ofEntries es h) = es := by
  induction es with
  | nil => rfl
  | cons e es ih => simp only [ofEntries, mapValues_cons, ih]

theorem exists_eq_ofMap {es : List (String × Tree)} (h : (Tree.map es).Canonical) :
    ∃ m, (⟨.map es, h⟩ : Dynamic) = ofMap m ∧
      ∀ k a, m.get? k = some a → ∃ e ∈ es, a.tree = e.2 := by
  have hes : AscendingKeys es ∧ Tree.CanonicalEntries es := by
    simpa only [Tree.Canonical] using h
  have hvalues := mapValues_ofEntries es hes.2
  have hascending : AscendingKeys (ofEntries es hes.2) := by
    have hkeys : ((ofEntries es hes.2).map Prod.fst).Pairwise fun k l => compare k l = .lt := by
      rw [map_key_ofEntries]
      exact List.pairwise_map.2 hes.1
    exact List.pairwise_map.1 hkeys
  refine ⟨⟨ofEntries es hes.2, hascending⟩, tree_injective ?_, ?_⟩
  · rw [tree_ofMap, hvalues]
  · intro k a ha
    refine ⟨(k, a.tree), ?_, rfl⟩
    rw [hes.1.mem_iff_lookup, ← hvalues, lookup_mapValues]
    exact congrArg (Option.map tree) ha

/-- To prove something of every value, prove it of a map from the values that the map holds. -/
theorem induction {P : Dynamic → Prop} (set : ∀ s, P (ofSet s)) (maxInt : ∀ n, P (ofMaxInt n))
    (maxText : ∀ s, P (ofMaxText s)) (flag : ∀ b, P (ofFlag b))
    (map : ∀ m, (∀ k a, m.get? k = some a → P a) → P (ofMap m)) : ∀ a, P a := by
  suffices h : ∀ (t : Tree) (ht : t.Canonical), P ⟨t, ht⟩ from fun a => h a.tree a.canonical
  intro t
  induction hsize : sizeOf t using Nat.strongRecOn generalizing t with
  | ind size ih =>
      intro ht
      cases t with
      | set s => exact set s
      | maxInt n => exact maxInt n
      | maxText s => exact maxText s
      | flag b => exact flag b
      | map es =>
          obtain ⟨m, heq, hvalues⟩ := exists_eq_ofMap ht
          rw [heq]
          refine map m ?_
          intro k a ha
          obtain ⟨e, he, htree⟩ := hvalues k a ha
          refine ih (sizeOf a.tree) ?_ a.tree rfl a.canonical
          have hlist := List.sizeOf_lt_of_mem he
          have hpair : sizeOf e.2 < sizeOf e := by
            cases e
            simp only [Prod.mk.sizeOf_spec]
            omega
          rw [← hsize, htree, Tree.map.sizeOf_spec]
          omega

/-! ## Maps of values -/

variable {m n : StringMap Dynamic}

/-- Joining two maps as values is joining them as maps. -/
theorem join_ofMap : (ofMap m).join (ofMap n) = (m.join n).map ofMap := by
  refine eq_of_map_eq (f := tree) (fun _ _ => tree_injective) ?_
  rw [map_tree_join, tree_ofMap, tree_ofMap, Tree.join, Tree.joinEntries_eq,
    joinEntries_mapValues tree join fun a b => (map_tree_join a b).symm]
  change ((StringMap.joinEntries Lattice.join m.entries n.entries).map (mapValues tree)).map
    Tree.map = _
  rw [← StringMap.map_entries_join]
  cases m.join n <;> rfl

theorem conflictEntries?_eq_none {es fs : List (String × Tree)} :
    Tree.conflictEntries? es fs = none ↔
      ∀ f ∈ fs, ∀ t, es.lookup f.1 = some t → t.conflict? f.2 = none := by
  induction fs with
  | nil => simp [Tree.conflictEntries?]
  | cons f fs ih =>
      obtain ⟨key, found⟩ := f
      rw [Tree.conflictEntries?, List.forall_mem_cons, ← ih]
      cases hfound : (es.lookup key).bind fun value => value.conflict? found with
      | none =>
          rw [Option.bind_eq_none_iff] at hfound
          exact ⟨fun h => ⟨hfound, h⟩, fun h => h.2⟩
      | some conflict =>
          obtain ⟨t, ht, hconflict⟩ := Option.bind_eq_some_iff.1 hfound
          refine ⟨nofun, ?_⟩
          intro h
          rw [h.1 t ht] at hconflict
          cases hconflict

/-- Two maps conflict if they do at a key that both hold. -/
theorem conflict?_ofMap : (ofMap m).conflict? (ofMap n) = none ↔
    ∀ k a b, m.get? k = some a → n.get? k = some b → a.conflict? b = none := by
  unfold conflict?
  rw [tree_ofMap, tree_ofMap, Tree.conflict?, conflictEntries?_eq_none]
  constructor
  · intro h k a b ha hb
    refine h (k, b.tree) ?_ a.tree ?_
    · exact List.mem_map.2 ⟨(k, b), StringMap.mem_entries.2 hb, rfl⟩
    · rw [lookup_mapValues]
      exact congrArg (Option.map tree) ha
  · intro h f hf t ht
    obtain ⟨⟨k, b⟩, hb, rfl⟩ := List.mem_map.1 hf
    rw [lookup_mapValues] at ht
    obtain ⟨a, ha, rfl⟩ := Option.map_eq_some_iff.1 ht
    exact h k a b ha (StringMap.mem_entries.1 hb)

/-- Merging two maps as values is merging them as maps, unless a conflict is found first. -/
theorem merge_ofMap (h : (ofMap m).conflict? (ofMap n) = none) :
    (ofMap m).merge (ofMap n) = (m.merge n).map (Prod.map ofMap id) := by
  refine eq_of_map_eq (f := Prod.map tree id) ?_ ?_
  · rintro ⟨a, _⟩ ⟨b, _⟩ heq
    obtain ⟨htree, hgrew⟩ := Prod.mk.inj heq
    exact Prod.ext (tree_injective htree) hgrew
  · have hnone : Tree.conflictEntries? (mapValues tree m.entries) (mapValues tree n.entries) =
        none := by
      rw [conflict?, tree_ofMap, tree_ofMap, Tree.conflict?] at h
      exact h
    rw [map_tree_merge, tree_ofMap, tree_ofMap, Tree.merge, hnone, Tree.mergeEntries_eq,
      mergeEntries_mapValues tree merge fun a b => (map_tree_merge a b).symm]
    change ((StringMap.mergeEntries Lattice.merge m.entries n.entries).map
      (Prod.map (mapValues tree) id) >>= fun merged => _) = _
    rw [← StringMap.map_entries_merge]
    cases m.merge n <;> rfl

/-! ## Kinds of values -/

/-- The values of one kind, as they stand for the elements of a lattice. -/
structure Embeds {L : Type} [Lattice L] (embed : L → Dynamic) : Prop where
  injective : ∀ x y, embed x = embed y → x = y
  /-- Only values of the kind have joins with values of the kind. -/
  join_eq_ok : ∀ {x b c}, (embed x).join b = .ok c ↔
    ∃ y z, b = embed y ∧ Lattice.join x y = .ok z ∧ c = embed z
  /-- A conflict is what keeps two values from having a join. -/
  conflict?_eq_none : ∀ {x b}, (embed x).conflict? b = none → ∃ y, b = embed y
  /-- Values of the kind that do not conflict merge as elements. -/
  merge_eq : ∀ {x y}, (embed x).conflict? (embed y) = none →
    (embed x).merge (embed y) = (Lattice.merge x y).map (Prod.map embed id)

/-- A kind of values whose joins are those of a lattice, and that conflicts with all others. -/
theorem Embeds.of_kind {L : Type} [Lattice L] {embed : L → Dynamic}
    (injective : ∀ x y, embed x = embed y → x = y)
    (join_eq : ∀ x y, (embed x).join (embed y) = (Lattice.join x y).map embed)
    (other : ∀ x b, (∃ y, b = embed y) ∨
      (∃ conflict, (embed x).tree.join b.tree = .error conflict) ∧ (embed x).conflict? b ≠ none)
    (merge_eq : ∀ x y, (embed x).conflict? (embed y) = none →
      (embed x).merge (embed y) = (Lattice.merge x y).map (Prod.map embed id)) :
    Embeds embed where
  injective := injective
  join_eq_ok {x b c} := by
    constructor
    · intro h
      rcases other x b with ⟨y, rfl⟩ | ⟨⟨conflict, herror⟩, _⟩
      · rw [join_eq] at h
        cases hz : Lattice.join x y with
        | error conflict => rw [hz] at h; cases h
        | ok z =>
            rw [hz] at h
            exact ⟨y, z, rfl, hz, (Except.ok.inj h).symm⟩
      · rw [join_iff_tree, herror] at h
        cases h
    · rintro ⟨y, z, rfl, hz, rfl⟩
      rw [join_eq, hz]
      rfl
  conflict?_eq_none {x b} h := (other x b).resolve_right fun hother => hother.2 h
  merge_eq {x y} h := merge_eq x y h

theorem embeds_ofSet : Embeds ofSet := by
  refine .of_kind (fun _ _ h => Tree.set.inj (congrArg tree h)) (fun _ _ => rfl) ?_ fun _ _ _ => rfl
  rintro x ⟨t, ht⟩
  cases t with
  | set y => exact .inl ⟨y, rfl⟩
  | _ => exact .inr ⟨⟨_, rfl⟩, nofun⟩

theorem embeds_ofMaxInt : Embeds ofMaxInt := by
  refine .of_kind (fun _ _ h => Tree.maxInt.inj (congrArg tree h)) (fun _ _ => rfl) ?_
    fun _ _ _ => rfl
  rintro x ⟨t, ht⟩
  cases t with
  | maxInt y => exact .inl ⟨y, rfl⟩
  | _ => exact .inr ⟨⟨_, rfl⟩, nofun⟩

theorem embeds_ofMaxText : Embeds ofMaxText := by
  refine .of_kind (fun _ _ h => Tree.maxText.inj (congrArg tree h)) (fun _ _ => rfl) ?_
    fun _ _ _ => rfl
  rintro x ⟨t, ht⟩
  cases t with
  | maxText y => exact .inl ⟨y, rfl⟩
  | _ => exact .inr ⟨⟨_, rfl⟩, nofun⟩

theorem embeds_ofFlag : Embeds ofFlag := by
  refine .of_kind (fun _ _ h => Tree.flag.inj (congrArg tree h)) (fun _ _ => rfl) ?_
    fun _ _ _ => rfl
  rintro x ⟨t, ht⟩
  cases t with
  | flag y => exact .inl ⟨y, rfl⟩
  | _ => exact .inr ⟨⟨_, rfl⟩, nofun⟩

theorem ofMap_injective (h : ofMap m = ofMap n) : m = n := by
  refine StringMap.ext_get? fun k => Option.map_injective (f := tree) ?_ ?_
  · exact fun _ _ => tree_injective
  · have hentries := Tree.map.inj (congrArg tree h)
    rw [StringMap.get?, StringMap.get?, ← lookup_mapValues, ← lookup_mapValues]
    exact congrArg (List.lookup k) hentries

theorem embeds_ofMap : Embeds ofMap := by
  refine .of_kind (fun _ _ => ofMap_injective) (fun _ _ => join_ofMap) ?_ fun _ _ => merge_ofMap
  rintro x ⟨t, ht⟩
  cases t with
  | map es =>
      obtain ⟨n, hn, _⟩ := exists_eq_ofMap ht
      exact .inl ⟨n, hn⟩
  | _ => exact .inr ⟨⟨_, rfl⟩, nofun⟩

/-! ## The laws -/

section Laws

variable {L : Type} [Lattice L] {embed : L → Dynamic} {x : L} {a b c : Dynamic}

theorem Embeds.conflict?_iff (he : Embeds embed)
    (law : ∀ y, (embed x).conflict? (embed y) = none ↔ ∃ z, Lattice.join x y = .ok z)
    (b : Dynamic) : (embed x).conflict? b = none ↔ ∃ c, (embed x).join b = .ok c := by
  constructor
  · intro h
    obtain ⟨y, rfl⟩ := he.conflict?_eq_none h
    obtain ⟨z, hz⟩ := (law y).1 h
    exact ⟨embed z, he.join_eq_ok.2 ⟨y, z, rfl, hz, rfl⟩⟩
  · rintro ⟨c, hc⟩
    obtain ⟨y, z, rfl, hz, _⟩ := he.join_eq_ok.1 hc
    exact (law y).2 ⟨z, hz⟩

/-- A conflict is found exactly between values that have no join. -/
theorem conflict?_eq_none_iff : a.conflict? b = none ↔ ∃ c, a.join b = .ok c := by
  induction a using Dynamic.induction generalizing b with
  | set s => exact embeds_ofSet.conflict?_iff (fun t => ⟨fun _ => ⟨_, rfl⟩, fun _ => rfl⟩) b
  | maxInt n => exact embeds_ofMaxInt.conflict?_iff (fun t => ⟨fun _ => ⟨_, rfl⟩, fun _ => rfl⟩) b
  | maxText s => exact embeds_ofMaxText.conflict?_iff (fun t => ⟨fun _ => ⟨_, rfl⟩, fun _ => rfl⟩) b
  | flag f => exact embeds_ofFlag.conflict?_iff (fun t => ⟨fun _ => ⟨_, rfl⟩, fun _ => rfl⟩) b
  | map m ih =>
      refine embeds_ofMap.conflict?_iff (fun n => ?_) b
      rw [conflict?_ofMap]
      refine Iff.trans ?_ StringMap.exists_join_iff.symm
      constructor
      · intro h k a b ha hb
        exact (ih k a ha).1 (h k a b ha hb)
      · intro h k a b ha hb
        exact (ih k a ha).2 (h k a b ha hb)

theorem Embeds.join_self (he : Embeds embed) (law : Lattice.join x x = .ok x) :
    (embed x).join (embed x) = .ok (embed x) :=
  he.join_eq_ok.2 ⟨x, x, rfl, law, rfl⟩

theorem Embeds.join_comm (he : Embeds embed)
    (law : ∀ y z, Lattice.join x y = .ok z → Lattice.join y x = .ok z)
    (h : (embed x).join b = .ok c) : b.join (embed x) = .ok c := by
  obtain ⟨y, z, rfl, hz, rfl⟩ := he.join_eq_ok.1 h
  exact he.join_eq_ok.2 ⟨x, z, rfl, law y z hz, rfl⟩

theorem Embeds.join_assoc (he : Embeds embed) {ab abc : Dynamic}
    (law : ∀ y z xy xyz, Lattice.join x y = .ok xy → Lattice.join xy z = .ok xyz →
      ∃ yz, Lattice.join y z = .ok yz ∧ Lattice.join x yz = .ok xyz)
    (hab : (embed x).join b = .ok ab) (habc : ab.join c = .ok abc) :
    ∃ bc, b.join c = .ok bc ∧ (embed x).join bc = .ok abc := by
  obtain ⟨y, xy, rfl, hxy, rfl⟩ := he.join_eq_ok.1 hab
  obtain ⟨z, xyz, rfl, hxyz, rfl⟩ := he.join_eq_ok.1 habc
  obtain ⟨yz, hyz, hxyz⟩ := law y z xy xyz hxy hxyz
  exact ⟨embed yz, he.join_eq_ok.2 ⟨z, yz, rfl, hyz, rfl⟩,
    he.join_eq_ok.2 ⟨yz, xyz, rfl, hxyz, rfl⟩⟩

/-- What can be merged does not conflict. -/
theorem conflict?_of_merge {result : Dynamic × Bool} (h : a.merge b = .ok result) :
    a.conflict? b = none := by
  have htree := map_tree_merge a b
  rw [h] at htree
  obtain ⟨t, ht⟩ := a
  obtain ⟨u, hu⟩ := b
  cases t <;> cases u
  case map.map es fs =>
    simp only [Tree.merge] at htree
    split at htree
    · cases htree
    · next hnone =>
        change (Tree.map es).conflict? (Tree.map fs) = none
        rwa [Tree.conflict?]
  all_goals first
    | rfl
    | cases htree

theorem Embeds.exactMerge (he : Embeds embed) {y : L}
    (comm : ∀ {a b c : Dynamic}, a.join b = .ok c → b.join a = .ok c)
    (law : ExactMerge Lattice.join Lattice.merge y) :
    ExactMerge join merge (embed y) := by
  constructor
  · intro a c grew h
    have hnone := conflict?_of_merge h
    obtain ⟨c', hc'⟩ := conflict?_eq_none_iff.1 hnone
    obtain ⟨x, z, rfl, _, _⟩ := he.join_eq_ok.1 (comm hc')
    rw [he.merge_eq hnone] at h
    cases hmerge : Lattice.merge x y with
    | error conflict => rw [hmerge] at h; cases h
    | ok result =>
        obtain ⟨z, grown⟩ := result
        rw [hmerge] at h
        obtain ⟨hjoin, hgrown⟩ := law.eq_join hmerge
        obtain ⟨rfl, rfl⟩ := Prod.mk.inj (Except.ok.inj h)
        refine ⟨he.join_eq_ok.2 ⟨y, z, rfl, hjoin, rfl⟩, hgrown.trans (not_congr ?_)⟩
        exact ⟨congrArg embed, he.injective z x⟩
  · intro a c hjoin
    obtain ⟨x, _, rfl, _, _⟩ := he.join_eq_ok.1 (comm hjoin)
    rw [he.merge_eq (conflict?_eq_none_iff.2 ⟨c, hjoin⟩)]
    obtain ⟨_, z, heq, hz, rfl⟩ := he.join_eq_ok.1 hjoin
    obtain rfl := he.injective _ _ heq
    obtain ⟨grown, hmerge⟩ := law.exists_merge hz
    rw [hmerge]
    exact ⟨grown, rfl⟩

end Laws

instance : LawfulLattice Dynamic := by
  have comm : ∀ {a b c : Dynamic}, a.join b = .ok c → b.join a = .ok c := by
    intro a
    induction a using Dynamic.induction with
    | set s => exact embeds_ofSet.join_comm fun _ _ => LawfulLattice.join_comm
    | maxInt n => exact embeds_ofMaxInt.join_comm fun _ _ => LawfulLattice.join_comm
    | maxText s => exact embeds_ofMaxText.join_comm fun _ _ => LawfulLattice.join_comm
    | flag f => exact embeds_ofFlag.join_comm fun _ _ => LawfulLattice.join_comm
    | map m ih =>
        exact embeds_ofMap.join_comm fun _ _ =>
          StringMap.join_comm_of fun k a ha _ _ hc => ih k a ha hc
  refine { join_self := ?_, join_comm := comm, join_assoc := ?_, exactMerge := ?_ }
  · intro a
    induction a using Dynamic.induction with
    | set s => exact embeds_ofSet.join_self (LawfulLattice.join_self s)
    | maxInt n => exact embeds_ofMaxInt.join_self (LawfulLattice.join_self n)
    | maxText s => exact embeds_ofMaxText.join_self (LawfulLattice.join_self s)
    | flag f => exact embeds_ofFlag.join_self (LawfulLattice.join_self f)
    | map m ih => exact embeds_ofMap.join_self (StringMap.join_self_of ih)
  · intro a
    induction a using Dynamic.induction with
    | set s => exact embeds_ofSet.join_assoc fun _ _ _ _ => LawfulLattice.join_assoc
    | maxInt n => exact embeds_ofMaxInt.join_assoc fun _ _ _ _ => LawfulLattice.join_assoc
    | maxText s => exact embeds_ofMaxText.join_assoc fun _ _ _ _ => LawfulLattice.join_assoc
    | flag f => exact embeds_ofFlag.join_assoc fun _ _ _ _ => LawfulLattice.join_assoc
    | map m ih =>
        exact embeds_ofMap.join_assoc fun _ _ _ _ =>
          StringMap.join_assoc_of fun k a ha _ _ _ _ hab habc => ih k a ha hab habc
  · intro b
    induction b using Dynamic.induction with
    | set s => exact embeds_ofSet.exactMerge comm (LawfulLattice.exactMerge s)
    | maxInt n => exact embeds_ofMaxInt.exactMerge comm (LawfulLattice.exactMerge n)
    | maxText s => exact embeds_ofMaxText.exactMerge comm (LawfulLattice.exactMerge s)
    | flag f => exact embeds_ofFlag.exactMerge comm (LawfulLattice.exactMerge f)
    | map n ih => exact embeds_ofMap.exactMerge comm (StringMap.exactMerge_of ih)

end Dynamic

end Ratchet

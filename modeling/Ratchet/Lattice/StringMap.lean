import Ratchet.Element
import Ratchet.Lattice.Basic

/-!
# Maps with text keys

A finite map from text to values, listed in ascending order of its keys.  Each map has exactly
one representation: two maps that hold equal values at equal keys are equal.

When the values form a lattice, so do the maps: a key that both sides hold carries the join of
its two values, and every other key keeps the value it has.  Merging goes through the entries of
the right map one by one, while the join interleaves the two ascending lists.

## Main definitions

* `StringMap`, with `get?`, `put`, `erase` and `mapValues`.
* `StringMap.add`, `StringMap.merge`, `StringMap.join`: the lattice of maps.
-/

namespace Ratchet

/-- Entries in strictly ascending order of their keys. -/
abbrev AscendingKeys {V : Type} (entries : List (String × V)) : Prop :=
  entries.Pairwise fun e f => compare e.1 f.1 = .lt

/-- A finite map from text, listed in strictly ascending order of its keys. -/
structure StringMap (V : Type) where
  /-- The keys and their values, in ascending order of the keys. -/
  entries : List (String × V)
  /-- No key is listed twice or out of order. -/
  ascending : AscendingKeys entries

/-- One key of a map with its value, the fact that a map is built from. -/
structure MapEntry (V : Type) where
  key : String
  value : V

namespace StringMap

variable {V : Type}

/-! ## Ascending lists of entries -/

/-- Sets the value at a key, at the key's place in an ascending list. -/
def putEntry (key : String) (value : V) : List (String × V) → List (String × V)
  | [] => [(key, value)]
  | e :: es =>
    match compare key e.1 with
    | .lt => (key, value) :: e :: es
    | .eq => (key, value) :: es
    | .gt => e :: putEntry key value es

/-- The entries after setting a value are the one that was set and entries from before. -/
theorem mem_putEntry {key : String} {value : V} {es : List (String × V)} {e : String × V}
    (h : e ∈ putEntry key value es) : e = (key, value) ∨ e ∈ es := by
  induction es with
  | nil => simp_all [putEntry]
  | cons f fs ih =>
      simp only [putEntry] at h
      split at h
      · exact List.mem_cons.1 h
      · exact (List.mem_cons.1 h).imp_right (List.mem_cons_of_mem _)
      · rcases List.mem_cons.1 h with rfl | h
        · exact .inr List.mem_cons_self
        · exact (ih h).imp_right (List.mem_cons_of_mem _)

/-- Setting a value keeps the keys ascending. -/
theorem ascending_putEntry {key : String} {value : V} {es : List (String × V)}
    (h : AscendingKeys es) : AscendingKeys (putEntry key value es) := by
  induction es with
  | nil => simp [putEntry]
  | cons f fs ih =>
      have ⟨hhead, htail⟩ := List.pairwise_cons.1 h
      simp only [putEntry]
      split
      · next hlt =>
          refine List.pairwise_cons.2 ⟨fun e he => ?_, h⟩
          rcases List.mem_cons.1 he with rfl | he
          · exact hlt
          · exact Element.lt_trans hlt (hhead e he)
      · next heq =>
          obtain rfl := Element.eq_iff.1 heq
          exact List.pairwise_cons.2 ⟨hhead, htail⟩
      · next hgt =>
          refine List.pairwise_cons.2 ⟨fun e he => ?_, ih htail⟩
          rcases mem_putEntry he with rfl | he
          · exact Element.gt_iff_lt.1 hgt
          · exact hhead e he

/-- Grows the value at a key by `grow`, or gives a new key the value `fresh`. -/
def growEntry (key : String) (fresh : V) (grow : V → Except Mismatch (V × Bool))
    (es : List (String × V)) : Except Mismatch (List (String × V) × Bool) :=
  match es.lookup key with
  | none => .ok (putEntry key fresh es, true)
  | some value => do
    let (grown, grew) ← grow value
    return (putEntry key grown es, grew)

/-- What growing one entry amounts to. -/
theorem growEntry_eq_ok {key : String} {fresh : V} {grow : V → Except Mismatch (V × Bool)}
    {es : List (String × V)} {result : List (String × V) × Bool}
    (h : growEntry key fresh grow es = .ok result) :
    (es.lookup key = none ∧ result = (putEntry key fresh es, true)) ∨
      ∃ value grown, es.lookup key = some value ∧ grow value = .ok grown ∧
        result = (putEntry key grown.1 es, grown.2) := by
  unfold growEntry at h
  split at h
  · next hnone => cases h; exact .inl ⟨hnone, rfl⟩
  · next value hsome =>
      cases hgrow : grow value with
      | error conflict => rw [hgrow] at h; cases h
      | ok grown => rw [hgrow] at h; cases h; exact .inr ⟨value, grown, hsome, hgrow, rfl⟩

/-- Growing one entry keeps the keys ascending. -/
theorem ascending_growEntry {key : String} {fresh : V}
    {grow : V → Except Mismatch (V × Bool)} {es : List (String × V)}
    {result : List (String × V) × Bool} (hes : AscendingKeys es)
    (h : growEntry key fresh grow es = .ok result) : AscendingKeys result.1 := by
  rcases growEntry_eq_ok h with ⟨_, rfl⟩ | ⟨_, _, _, _, rfl⟩ <;> exact ascending_putEntry hes

/-- Merges a list of entries into an ascending list, one after the other. -/
def mergeEntries (merge : V → V → Except Mismatch (V × Bool)) :
    List (String × V) → List (String × V) → Except Mismatch (List (String × V) × Bool)
  | es, [] => .ok (es, false)
  | es, (key, value) :: fs => do
    let (grown, grew) ← growEntry key value (fun old => merge old value) es
    let (result, more) ← mergeEntries merge grown fs
    return (result, grew || more)

/-- Merging a non-empty list grows its first entry and merges the others after that. -/
theorem mergeEntries_cons {merge : V → V → Except Mismatch (V × Bool)} {key : String} {value : V}
    {es fs : List (String × V)} {result : List (String × V) × Bool}
    (h : mergeEntries merge es ((key, value) :: fs) = .ok result) :
    ∃ grown rest, growEntry key value (fun old => merge old value) es = .ok grown ∧
      mergeEntries merge grown.1 fs = .ok rest ∧ result = (rest.1, grown.2 || rest.2) := by
  simp only [mergeEntries] at h
  cases hgrow : growEntry key value (fun old => merge old value) es with
  | error conflict => rw [hgrow] at h; cases h
  | ok grown =>
      cases hrest : mergeEntries merge grown.1 fs with
      | error conflict => simp [bind, Except.bind, hgrow, hrest] at h
      | ok rest =>
          simp only [bind, Except.bind, hgrow, hrest, pure, Except.pure, Except.ok.injEq] at h
          exact ⟨grown, rest, rfl, hrest, h.symm⟩

/-- Merging entries keeps the keys ascending. -/
theorem ascending_mergeEntries {merge : V → V → Except Mismatch (V × Bool)}
    {es fs : List (String × V)} {result : List (String × V) × Bool} (hes : AscendingKeys es)
    (h : mergeEntries merge es fs = .ok result) : AscendingKeys result.1 := by
  induction fs generalizing es result with
  | nil => cases h; exact hes
  | cons f fs ih =>
      obtain ⟨grown, rest, hgrow, hrest, rfl⟩ := mergeEntries_cons h
      exact (ih (ascending_growEntry hes hgrow) hrest : AscendingKeys rest.1)

/-- Joins a value with the one found at its key, if any. -/
def joinFound (join : V → Except Mismatch V) (value : V) : Option V → Except Mismatch V
  | none => .ok value
  | some found => join found

/-- Interleaves two ascending lists of entries, joining the values of shared keys. -/
def joinEntries (join : V → V → Except Mismatch V) :
    List (String × V) → List (String × V) → Except Mismatch (List (String × V))
  | [], fs => .ok fs
  | (key, value) :: es, fs => do
    let joined ← joinFound (fun found => join value found) value (fs.lookup key)
    let rest ← joinEntries join es (fs.dropWhile fun f => compare f.1 key != .gt)
    return fs.takeWhile (fun f => compare f.1 key == .lt) ++ (key, joined) :: rest

/-- A join of non-empty lists consists of a lower part of the right one, the first key of the
left one, and the join of what is left. -/
theorem joinEntries_cons {join : V → V → Except Mismatch V} {key : String} {value : V}
    {es fs result : List (String × V)}
    (h : joinEntries join ((key, value) :: es) fs = .ok result) :
    ∃ joined rest,
      joinFound (fun found => join value found) value (fs.lookup key) = .ok joined ∧
        joinEntries join es (fs.dropWhile fun f => compare f.1 key != .gt) = .ok rest ∧
        result = fs.takeWhile (fun f => compare f.1 key == .lt) ++ (key, joined) :: rest := by
  simp only [joinEntries] at h
  cases hjoined : joinFound (fun found => join value found) value (fs.lookup key) with
  | error conflict => simp [bind, Except.bind, hjoined] at h
  | ok joined =>
      cases hrest : joinEntries join es (fs.dropWhile fun f => compare f.1 key != .gt) with
      | error conflict => simp [bind, Except.bind, hjoined, hrest] at h
      | ok rest =>
          simp only [bind, Except.bind, hjoined, hrest, pure, Except.pure, Except.ok.injEq] at h
          exact ⟨joined, rest, rfl, rfl, h.symm⟩

/-- The keys of a join are the keys of the two sides. -/
theorem key_of_mem_joinEntries {join : V → V → Except Mismatch V}
    {es fs result : List (String × V)} (h : joinEntries join es fs = .ok result)
    {e : String × V} (he : e ∈ result) :
    (∃ f ∈ es, f.1 = e.1) ∨ ∃ f ∈ fs, f.1 = e.1 := by
  induction es generalizing fs result with
  | nil =>
      cases h
      exact .inr ⟨e, he, rfl⟩
  | cons f es ih =>
      obtain ⟨joined, rest, _, hrest, rfl⟩ := joinEntries_cons h
      rcases List.mem_append.1 he with he | he
      · exact .inr ⟨e, (List.takeWhile_sublist _).subset he, rfl⟩
      · rcases List.mem_cons.1 he with rfl | he
        · exact .inl ⟨f, List.mem_cons_self, rfl⟩
        · rcases ih hrest he with ⟨g, hg, hkey⟩ | ⟨g, hg, hkey⟩
          · exact .inl ⟨g, List.mem_cons_of_mem _ hg, hkey⟩
          · exact .inr ⟨g, (List.dropWhile_sublist _).subset hg, hkey⟩

/-- Once an ascending list has passed a key, all keys left in it are greater. -/
theorem lt_of_mem_dropWhile {key : String} {fs : List (String × V)} {f : String × V}
    (hfs : AscendingKeys fs) (hf : f ∈ fs.dropWhile fun f => compare f.1 key != .gt) :
    compare key f.1 = .lt := by
  induction fs with
  | nil => simp at hf
  | cons g gs ih =>
      have ⟨hhead, htail⟩ := List.pairwise_cons.1 hfs
      rw [List.dropWhile_cons] at hf
      split at hf
      · exact ih htail hf
      · next hgt =>
          have hkey : compare key g.1 = .lt := Element.gt_iff_lt.1 (by simpa using hgt)
          rcases List.mem_cons.1 hf with rfl | hf
          · exact hkey
          · exact Element.lt_trans hkey (hhead f hf)

/-- The join of two ascending lists has ascending keys. -/
theorem ascending_joinEntries {join : V → V → Except Mismatch V}
    {es fs result : List (String × V)} (hes : AscendingKeys es) (hfs : AscendingKeys fs)
    (h : joinEntries join es fs = .ok result) : AscendingKeys result := by
  induction es generalizing fs result with
  | nil => cases h; exact hfs
  | cons f es ih =>
      have ⟨hhead, htail⟩ := List.pairwise_cons.1 hes
      obtain ⟨joined, rest, _, hrest, rfl⟩ := joinEntries_cons h
      have hbelow : ∀ e ∈ fs.takeWhile (fun e => compare e.1 f.1 == .lt), compare e.1 f.1 = .lt :=
        fun e he => by simpa using List.all_eq_true.1 List.all_takeWhile e he
      have habove : ∀ e ∈ rest, compare f.1 e.1 = .lt := fun e he => by
        rcases key_of_mem_joinEntries hrest he with ⟨g, hg, hkey⟩ | ⟨g, hg, hkey⟩
        · exact hkey ▸ hhead g hg
        · exact hkey ▸ lt_of_mem_dropWhile hfs hg
      refine List.pairwise_append.2
        ⟨hfs.sublist (List.takeWhile_sublist _), List.pairwise_cons.2 ⟨habove, ih htail ?_ hrest⟩,
          ?_⟩
      · exact hfs.sublist (List.dropWhile_sublist _)
      · intro e he g hg
        rcases List.mem_cons.1 hg with rfl | hg
        · exact hbelow e he
        · exact Element.lt_trans (hbelow e he) (habove g hg)

/-! ## Maps -/

instance [DecidableEq V] : DecidableEq (StringMap V) := fun m n =>
  decidable_of_iff (m.entries = n.entries)
    ⟨fun h => by cases m; cases n; simp_all, fun h => h ▸ rfl⟩

/-- Maps compare like the ascending lists of their entries. -/
instance [Element V] : Element (StringMap V) :=
  Element.ofKey entries fun ⟨_, _⟩ ⟨_, _⟩ h => by subst h; rfl

/-- An entry compares like its key with its value. -/
instance [Element V] : Element (MapEntry V) :=
  Element.ofKey (fun e => (e.key, e.value)) fun ⟨_, _⟩ ⟨_, _⟩ h => by cases h; rfl

/-- The map without entries. -/
def empty : StringMap V := ⟨[], .nil⟩

/-- The value at a key. -/
def get? (m : StringMap V) (key : String) : Option V := m.entries.lookup key

/-- Whether a key has a value. -/
def contains (m : StringMap V) (key : String) : Bool := (m.get? key).isSome

/-- The keys in ascending order. -/
def keys (m : StringMap V) : List String := m.entries.map Prod.fst

/-- The values in the order of their keys. -/
def values (m : StringMap V) : List V := m.entries.map Prod.snd

/-- The number of entries. -/
def size (m : StringMap V) : Nat := m.entries.length

/-- Whether there are no entries. -/
def isEmpty (m : StringMap V) : Bool := m.entries.isEmpty

/-- The map with the value at `key` set, whatever it was before. -/
def put (m : StringMap V) (key : String) (value : V) : StringMap V :=
  ⟨putEntry key value m.entries, ascending_putEntry m.ascending⟩

/-- The map without a value at `key`. -/
def erase (m : StringMap V) (key : String) : StringMap V :=
  ⟨m.entries.filter fun e => e.1 != key, m.ascending.filter _⟩

/-- The map that a list of entries describes, the last entry of a key counting. -/
def ofList (es : List (String × V)) : StringMap V :=
  es.foldl (fun m e => m.put e.1 e.2) empty

/-! ## Maps of lattice values -/

section Lattice

variable [Lattice V]

/-- The map in which the value at `key` has grown by `value`, a new key starting there. -/
def add (m : StringMap V) (key : String) (value : V) :
    Except Mismatch (StringMap V × Bool) :=
  match h : growEntry key value (fun old => Lattice.merge old value) m.entries with
  | .ok result => .ok (⟨result.1, ascending_growEntry m.ascending h⟩, result.2)
  | .error conflict => .error conflict

/-- Merges the entries of `n` one by one; the map grew if an entry did. -/
def merge (m n : StringMap V) : Except Mismatch (StringMap V × Bool) :=
  match h : mergeEntries Lattice.merge m.entries n.entries with
  | .ok result => .ok (⟨result.1, ascending_mergeEntries m.ascending h⟩, result.2)
  | .error conflict => .error conflict

/-- The pointwise join of two maps. -/
def join (m n : StringMap V) : Except Mismatch (StringMap V) :=
  match h : joinEntries Lattice.join m.entries n.entries with
  | .ok es => .ok ⟨es, ascending_joinEntries m.ascending n.ascending h⟩
  | .error conflict => .error conflict

/-- The map that a list of entries describes, entries of one key merging. -/
def collect (es : List (MapEntry V)) : Except Mismatch (StringMap V) :=
  es.foldlM (fun m e => do return (← m.add e.key e.value).1) empty

/-- The map whose only entry is the given one. -/
def singleton (key : String) (value : V) : StringMap V := empty.put key value

instance : Relation (StringMap V) (MapEntry V) where
  join := join
  merge := merge
  kind := .map
  bottom := empty
  add m e := m.add e.key e.value
  tuples m := m.entries.map fun e => ⟨e.1, e.2⟩
  collect := collect

end Lattice

end StringMap

end Ratchet

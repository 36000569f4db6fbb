import Ratchet.Lattice.StringMap

/-!
# Ascending lists

Sets and maps are kept as ascending lists, and everything about them is decided by what the lists
hold: two ascending lists with the same members are equal, and two lists of entries that look up
alike at every key are equal.  The union of sets and the join of maps walk over an ascending list
with `takeWhile` and `dropWhile`; what they pick is the part below a key and the part above it.
-/

namespace Ratchet

/-! ## Lists with ascending keys -/

section Key

variable {α κ : Type} [Element κ] {key : α → κ}

/-- An ascending list holds nothing twice. -/
theorem nodup_of_ascending (key : α → κ) {as : List α}
    (has : as.Pairwise fun a b => compare (key a) (key b) = .lt) : as.Nodup := by
  refine List.Pairwise.imp ?_ has
  rintro a b hab rfl
  exact Element.lt_irrefl _ hab

/-- Ascending lists with the same members are equal. -/
theorem eq_of_mem_iff (key : α → κ) {as bs : List α}
    (has : as.Pairwise fun a b => compare (key a) (key b) = .lt)
    (hbs : bs.Pairwise fun a b => compare (key a) (key b) = .lt)
    (h : ∀ a, a ∈ as ↔ a ∈ bs) : as = bs := by
  have hperm : as.Perm bs :=
    (List.perm_ext_iff_of_nodup (nodup_of_ascending key has) (nodup_of_ascending key hbs)).2 h
  refine List.Perm.eq_of_pairwise ?_ has hbs hperm
  intro a b _ _ hab hba
  exact absurd (Element.lt_trans hab hba) (Element.lt_irrefl _)

/-- In an ascending list, what is below `k` stands before everything else. -/
theorem mem_takeWhile_of_lt {as : List α} {a : α} {k : κ}
    (has : as.Pairwise fun a b => compare (key a) (key b) = .lt)
    (ha : a ∈ as) (hlt : compare (key a) k = .lt) :
    a ∈ as.takeWhile fun a => compare (key a) k == .lt := by
  induction as with
  | nil => cases ha
  | cons b bs ih =>
      have ⟨hhead, htail⟩ := List.pairwise_cons.1 has
      have hb : compare (key b) k = .lt := by
        rcases List.mem_cons.1 ha with rfl | ha
        · exact hlt
        · exact Element.lt_trans (hhead a ha) hlt
      rw [List.takeWhile_cons_of_pos (by simpa using hb)]
      rcases List.mem_cons.1 ha with rfl | ha
      · exact List.mem_cons_self
      · exact List.mem_cons_of_mem _ (ih htail ha)

/-- What is dropped from the front of a list all has the property that it is dropped for. -/
theorem mem_dropWhile_of_not {p : α → Bool} {as : List α} {a : α} (ha : a ∈ as)
    (hp : p a = false) : a ∈ as.dropWhile p := by
  induction as with
  | nil => cases ha
  | cons b bs ih =>
      rw [List.dropWhile_cons]
      split
      · next hb =>
          rcases List.mem_cons.1 ha with rfl | ha
          · rw [hp] at hb
            cases hb
          · exact ih ha
      · exact ha

end Key

/-! ## Lists of entries -/

section Entries

variable {V : Type} {es fs : List (String × V)} {key : String} {value : V}

/-- Looking up a key finds the entry that stands in an ascending list. -/
theorem AscendingKeys.mem_iff_lookup (hes : AscendingKeys es) :
    (key, value) ∈ es ↔ es.lookup key = some value := by
  induction es with
  | nil => simp
  | cons e es ih =>
      have ⟨hhead, htail⟩ := List.pairwise_cons.1 hes
      obtain ⟨k, v⟩ := e
      rw [List.mem_cons, List.lookup_cons]
      by_cases hk : key = k
      · subst hk
        have hnot : (key, value) ∉ es := fun hmem =>
          Element.lt_irrefl key (hhead (key, value) hmem)
        simp [hnot, eq_comm]
      · have hne : (key == k) = false := by simpa using hk
        simp [hk, hne, ih htail]

/-- Ascending lists of entries that look up alike are equal. -/
theorem AscendingKeys.ext (hes : AscendingKeys es) (hfs : AscendingKeys fs)
    (h : ∀ key, es.lookup key = fs.lookup key) : es = fs := by
  refine eq_of_mem_iff Prod.fst hes hfs ?_
  intro e
  obtain ⟨key, value⟩ := e
  rw [hes.mem_iff_lookup, hfs.mem_iff_lookup, h]

/-- A key below all keys of a list is not found in it. -/
theorem lookup_eq_none_of_lt (h : ∀ e ∈ es, compare key e.1 = .lt) : es.lookup key = none := by
  rw [List.lookup_eq_none_iff]
  intro e he
  have hne : key ≠ e.1 := fun heq => Element.lt_irrefl e.1 (heq ▸ h e he)
  simpa using hne

/-- A key above all keys of a list is not found in it. -/
theorem lookup_eq_none_of_gt (h : ∀ e ∈ es, compare e.1 key = .lt) : es.lookup key = none := by
  rw [List.lookup_eq_none_iff]
  intro e he
  have hne : key ≠ e.1 := fun heq => Element.lt_irrefl e.1 (heq ▸ h e he)
  simpa using hne

theorem AscendingKeys.lookup_of_lt_head {k : String} (hes : AscendingKeys ((key, value) :: es))
    (hk : compare k key = .lt) : ((key, value) :: es).lookup k = none := by
  have ⟨hhead, _⟩ := List.pairwise_cons.1 hes
  exact lookup_eq_none_of_lt (List.forall_mem_cons.2
    ⟨hk, fun e he => Element.lt_trans hk (hhead e he)⟩)

theorem AscendingKeys.gt_of_lookup_tail {k : String} {a : V}
    (hes : AscendingKeys ((key, value) :: es)) (ha : es.lookup k = some a) :
    compare k key = .gt := by
  have ⟨hhead, htail⟩ := List.pairwise_cons.1 hes
  exact Element.gt_iff_lt.2 (hhead (k, a) ((AscendingKeys.mem_iff_lookup htail).2 ha))

theorem lookup_cons_of_ne {k : String} (h : compare k key ≠ .eq) :
    ((key, value) :: es).lookup k = es.lookup k := by
  have hne : (k == key) = false := by
    rw [beq_eq_false_iff_ne]
    exact fun heq => h (Element.eq_iff.2 heq)
  rw [List.lookup_cons, hne]

/-- Setting a value changes what is found at its key only. -/
theorem lookup_putEntry (other : String) :
    (StringMap.putEntry key value es).lookup other =
      if other = key then some value else es.lookup other := by
  induction es with
  | nil =>
      by_cases h : other = key <;> simp [StringMap.putEntry, h]
  | cons e es ih =>
      obtain ⟨k, v⟩ := e
      simp only [StringMap.putEntry]
      split
      · by_cases h : other = key
        · simp [h]
        · have hne : (other == key) = false := by simpa using h
          simp [List.lookup_cons, h, hne]
      · next heq =>
          obtain rfl := Element.eq_iff.1 heq
          by_cases h : other = key
          · simp [h]
          · have hne : (other == key) = false := by simpa using h
            simp [List.lookup_cons, h, hne]
      · next hgt =>
          rw [List.lookup_cons, List.lookup_cons, ih]
          by_cases h : other = k
          · have hne : k ≠ key := fun heq => by simp [heq] at hgt
            simp [h, hne]
          · have hne : (other == k) = false := by simpa using h
            simp [hne]

/-- A value at a key above all others goes to the end. -/
theorem putEntry_of_gt (h : ∀ e ∈ es, compare e.1 key = .lt) :
    StringMap.putEntry key value es = es ++ [(key, value)] := by
  induction es with
  | nil => rfl
  | cons e es ih =>
      obtain ⟨he, hes⟩ := List.forall_mem_cons.1 h
      simp only [StringMap.putEntry, Element.gt_iff_lt.2 he, ih hes, List.cons_append]

/-- Below a key, the lower part of an ascending list finds what the list finds. -/
theorem lookup_takeWhile_of_lt {k : String} (hfs : AscendingKeys fs) (hk : compare k key = .lt) :
    (fs.takeWhile fun f => compare f.1 key == .lt).lookup k = fs.lookup k := by
  have htake : AscendingKeys (fs.takeWhile fun f => compare f.1 key == .lt) :=
    hfs.sublist (List.takeWhile_sublist _)
  apply Option.ext
  intro v
  rw [← htake.mem_iff_lookup, ← hfs.mem_iff_lookup]
  exact ⟨fun h => (List.takeWhile_sublist _).subset h, fun h => mem_takeWhile_of_lt hfs h hk⟩

/-- From a key on, the lower part of a list finds nothing. -/
theorem lookup_takeWhile_of_not_lt {k : String} (hk : compare k key ≠ .lt) :
    (fs.takeWhile fun f => compare f.1 key == .lt).lookup k = none := by
  rw [List.lookup_eq_none_iff]
  intro f hf
  have hlt : compare f.1 key = .lt := by simpa using List.all_eq_true.1 List.all_takeWhile f hf
  have hne : k ≠ f.1 := fun heq => hk (heq ▸ hlt)
  simpa using hne

/-- Above a key, the upper part of an ascending list finds what the list finds. -/
theorem lookup_dropWhile_of_gt {k : String} (hfs : AscendingKeys fs) (hk : compare k key = .gt) :
    (fs.dropWhile fun f => compare f.1 key != .gt).lookup k = fs.lookup k := by
  have hdrop : AscendingKeys (fs.dropWhile fun f => compare f.1 key != .gt) :=
    hfs.sublist (List.dropWhile_sublist _)
  apply Option.ext
  intro v
  rw [← hdrop.mem_iff_lookup, ← hfs.mem_iff_lookup]
  exact ⟨fun h => (List.dropWhile_sublist _).subset h,
    fun h => mem_dropWhile_of_not h (by simpa using hk)⟩

end Entries

end Ratchet

import Mathlib.Data.List.Duplicate
import Mathlib.Tactic.Ring
import Ratchet.Proofs.ShortestPath.Chain

/-!
# Closed walks

A chain that ends where it starts can be repeated, and a chain that comes by the same link twice
contains one that ends where it starts.  These two facts decide how many paths a graph with cycles
has.

If a closed walk costs something, its repetitions cost more and more, or less and less, and in the
end the cost of one of them is out of range (`Chain.exists_not_inRange`).

If no closed walk costs anything, then whatever lies between two occurrences of a link can be left
out without any difference to the path that the chain gives.  So every path is given by a chain that
has at most one link more than the graph (`Chain.exists_short`): after its first link, which decides
about the next node, such a chain has no link twice.
-/

namespace Ratchet.Chain

variable {links : GrowSet Link} {l : Link} {path : Path} {c d : Chain links}

/-- The number of links. -/
def length (c : Chain links) : Nat := c.list.length

theorem length_pos (c : Chain links) : 0 < c.length := Nat.succ_pos c.rest.length

/-- The sum of the costs is an integer that a path can carry. -/
def InRange (c : Chain links) : Prop :=
  Int64.minValue.toInt ≤ c.cost ∧ c.cost ≤ Int64.maxValue.toInt

theorem inRange_iff : c.InRange ↔ ∃ n : Int64, n.toInt = c.cost := by
  constructor
  · rintro ⟨hmin, hmax⟩
    have hlower : Int64.minValue.toInt = -2 ^ 63 := by decide
    have hupper : Int64.maxValue.toInt = 2 ^ 63 - 1 := by decide
    exact ⟨.ofInt c.cost, Int64.toInt_ofInt_of_le (by omega) (by omega)⟩
  · rintro ⟨n, hn⟩
    rw [InRange, ← hn]
    exact ⟨n.minValue_le_toInt, n.toInt_le⟩

theorem Gives.inRange (h : c.Gives path) : c.InRange := inRange_iff.2 ⟨path.cost, h.cost_eq⟩

/-! ## Repeating a closed walk -/

/-- A chain followed by one that starts where it ends. -/
def append (c d : Chain links) (h : c.target = d.source) : Chain links where
  first := c.first
  rest := c.rest ++ d.list
  mem l hl := (List.mem_append.1 (hl : l ∈ c.list ++ d.list)).elim (c.mem l) (d.mem l)
  linked := by
    refine List.isChain_append.2 ⟨c.linked, d.linked, ?_⟩
    intro x hx y hy
    rw [List.getLast?_eq_some_getLast (List.cons_ne_nil _ _), Option.mem_some_iff] at hx
    obtain rfl : d.first = y := Option.some.inj hy
    rw [← hx]
    exact h

theorem list_append (h : c.target = d.source) : (c.append d h).list = c.list ++ d.list := rfl

theorem cost_append (h : c.target = d.source) : (c.append d h).cost = c.cost + d.cost := by
  simp only [cost, list_append, List.map_append, List.sum_append]

/-- A closed walk can be walked any number of times, each time at its cost. -/
theorem exists_repeat (hc : c.target = c.source) (n : Nat) :
    ∃ d : Chain links, d.source = c.source ∧ d.cost = (n + 1) * c.cost := by
  induction n with
  | zero => exact ⟨c, rfl, by simp⟩
  | succ n ih =>
      obtain ⟨d, hsource, hcost⟩ := ih
      refine ⟨c.append d (hc.trans hsource.symm), rfl, ?_⟩
      calc (c.append d (hc.trans hsource.symm)).cost = c.cost + d.cost := cost_append _
        _ = c.cost + (n + 1) * c.cost := by rw [hcost]
        _ = ((n + 1 : ℕ) + 1) * c.cost := by push_cast; ring

/-- The cost of a closed walk is zero, or some repetition of it is out of range. -/
theorem exists_not_inRange (hc : c.target = c.source) (hcost : c.cost ≠ 0) :
    ∃ d : Chain links, ¬ d.InRange := by
  obtain ⟨d, _, hd⟩ := exists_repeat hc (2 ^ 63)
  have hlower : Int64.minValue.toInt = -2 ^ 63 := by decide
  have hupper : Int64.maxValue.toInt = 2 ^ 63 - 1 := by decide
  refine ⟨d, ?_⟩
  rintro ⟨hmin, hmax⟩
  push_cast at hd
  omega

/-- If every link costs the difference in height between its ends, then so does every chain, and
closed walks cost nothing. -/
theorem cost_of_height {height : String → Int}
    (hheight : ∀ l ∈ links, l.cost.toInt = height l.target - height l.source) (c : Chain links) :
    c.cost = height c.target - height c.source := by
  induction c using Chain.induction with
  | single l hl =>
      have hcost : (single l hl).cost = l.cost.toInt := by simp [cost, list, single]
      exact hcost.trans (hheight l hl)
  | cons l c hl hlinked ih =>
      have hsource : (cons l c hl hlinked).source = l.source := rfl
      rw [cost_cons, target_cons, hsource, ih, hheight l hl, hlinked]
      omega

/-! ## Leaving out closed walks -/

/-- The two chains stand for the same path. -/
structure Matches (c d : Chain links) : Prop where
  source_eq : c.source = d.source
  target_eq : c.target = d.target
  next_eq : c.next = d.next
  cost_eq : c.cost = d.cost

theorem Matches.trans {e : Chain links} (h : c.Matches d) (h' : d.Matches e) : c.Matches e :=
  ⟨h.1.trans h'.1, h.2.trans h'.2, h.3.trans h'.3, h.4.trans h'.4⟩

theorem Gives.of_matches (hc : c.Gives path) (h : c.Matches d) : d.Gives path :=
  ⟨hc.1.trans h.1, hc.2.trans h.2, hc.3.trans h.3, hc.4.trans h.4⟩

/-- Only what follows on a link matters for the end of a chain. -/
theorem target_of_list_eq {before after : List Link} (h : c.list = before ++ l :: after) :
    c.target = ((l :: after).getLast (List.cons_ne_nil _ _)).target := by
  unfold target
  simp only [h]
  exact congrArg Link.target (List.getLast_append_right _)

theorem exists_eq_of_duplicate {α : Type} {a : α} {as : List α} (h : List.Duplicate a as) :
    ∃ before between after, as = before ++ a :: (between ++ a :: after) := by
  induction h with
  | cons_mem h =>
      obtain ⟨between, after, rfl⟩ := List.append_of_mem h
      exact ⟨[], between, after, rfl⟩
  | @cons_duplicate b as _ ih =>
      obtain ⟨before, between, after, rfl⟩ := ih
      exact ⟨b :: before, between, after, rfl⟩

/-- A chain that has more links after its first one than there are has one of them twice. -/
theorem exists_repeated (h : links.size < c.rest.length) :
    ∃ l before between after, c.rest = before ++ l :: (between ++ l :: after) := by
  have hnodup : ¬ c.rest.Nodup := by
    intro hnodup
    have hsubset : c.rest ⊆ links.elements := fun l hl => c.mem l (List.mem_cons_of_mem _ hl)
    have hle : c.rest.length ≤ links.size := (hnodup.subperm hsubset).length_le
    omega
  obtain ⟨l, hl⟩ := List.exists_duplicate_iff_not_nodup.2 hnodup
  exact ⟨l, exists_eq_of_duplicate hl⟩

/-- What lies between two occurrences of a link is a closed walk, and the rest is a chain without
it. -/
theorem exists_cut (h : links.size + 1 < c.length) :
    ∃ short loop : Chain links, loop.target = loop.source ∧
      c.length = short.length + loop.length ∧ c.cost = short.cost + loop.cost ∧
      short.source = c.source ∧ short.target = c.target ∧ short.next = c.next := by
  have hrest : links.size < c.rest.length := Nat.lt_of_succ_lt_succ h
  obtain ⟨l, before, between, after, hrest⟩ := exists_repeated hrest
  have hlist : c.list = (c.first :: before) ++ (l :: between ++ l :: after) := by
    simp [list, hrest]
  have hmem : ∀ k ∈ c.list, k ∈ links := c.mem
  have hlinked : c.list.IsChain fun a b => a.target = b.source := c.linked
  rw [hlist] at hmem hlinked
  have hbefore := (List.isChain_split.1 hlinked).1
  have hloop : (l :: between ++ l :: after).IsChain fun a b => a.target = b.source :=
    (List.isChain_split.1 hlinked).2
  obtain ⟨hbetween, hafter, hmeet⟩ := List.isChain_append.1 hloop
  let loop : Chain links :=
    ⟨l, between, fun k hk => hmem k (List.mem_append_right _ (List.mem_append_left _ hk)), hbetween⟩
  have hshort : ∀ k ∈ c.first :: before ++ l :: after, k ∈ links := by
    intro k hk
    rcases List.mem_append.1 hk with hk | hk
    · exact hmem k (List.mem_append_left _ hk)
    · exact hmem k (List.mem_append_right _ (List.mem_append_right _ hk))
  let short : Chain links :=
    ⟨c.first, before ++ l :: after, hshort, List.isChain_split.2 ⟨hbefore, hafter⟩⟩
  have hshortList : short.list = (c.first :: before) ++ l :: after := rfl
  have hloopList : loop.list = l :: between := rfl
  refine ⟨short, loop, ?_, ?_, ?_, rfl, ?_, ?_⟩
  · exact hmeet _ (List.getLast?_eq_some_getLast (List.cons_ne_nil _ _)) l rfl
  · simp only [length, hlist, hshortList, hloopList, List.length_append]
    omega
  · simp only [cost, hlist, hshortList, hloopList, List.map_append, List.sum_append]
    omega
  · rw [← List.append_assoc] at hlist
    rw [target_of_list_eq hlist, target_of_list_eq hshortList]
  · simp [next, hrest, short]

variable (hzero : ∀ w : Chain links, w.target = w.source → w.cost = 0)

include hzero

/-- Every chain stands for the same path as one with at most one link more than there are. -/
theorem exists_short (c : Chain links) :
    ∃ d : Chain links, d.length ≤ links.size + 1 ∧ d.Matches c := by
  induction hlength : c.length using Nat.strongRecOn generalizing c with
  | ind n ih =>
      by_cases hle : c.length ≤ links.size + 1
      · exact ⟨c, hle, rfl, rfl, rfl, rfl⟩
      · obtain ⟨short, loop, hloop, hsize, hcost, hsource, htarget, hnext⟩ :=
          exists_cut (Nat.lt_of_not_le hle)
        have hpos : 0 < loop.length := loop.length_pos
        obtain ⟨d, hd, hmatches⟩ := ih short.length (by omega) short rfl
        have hcost : short.cost = c.cost := by rw [hcost, hzero loop hloop, Int.add_zero]
        exact ⟨d, hd, hmatches.trans ⟨hsource, htarget, hnext, hcost⟩⟩

end Ratchet.Chain

import Ratchet.Element
import Ratchet.Lattice.Basic

/-!
# Grow-only sets

A set of facts that facts can be added to but never removed from.  Its elements are kept in
strictly ascending order, so each set has exactly one representation: equal members make equal
sets.

Adding and merging insert element by element.  The join is computed separately, by interleaving
the two ascending lists.
-/

namespace Ratchet

/-- A finite set, listed in strictly ascending order. -/
structure GrowSet (α : Type) [Element α] where
  /-- The members in ascending order. -/
  elements : List α
  /-- No member is listed twice or out of order. -/
  ascending : elements.Pairwise fun a b => compare a b = .lt

namespace GrowSet

variable {α : Type} [Element α]

/-! ## Ascending lists -/

/-- Puts `a` at its place in an ascending list, unless it is there already. -/
def insertElement (a : α) : List α → List α
  | [] => [a]
  | b :: bs =>
    match compare a b with
    | .lt => a :: b :: bs
    | .eq => b :: bs
    | .gt => b :: insertElement a bs

/-- Insertion adds exactly the inserted element. -/
theorem mem_insertElement {a x : α} {as : List α} :
    x ∈ insertElement a as ↔ x = a ∨ x ∈ as := by
  induction as with
  | nil => simp [insertElement]
  | cons b bs ih =>
      simp only [insertElement]
      split
      · simp
      · next heq => simp [Element.eq_iff.1 heq]
      · simp [ih, or_left_comm]

/-- Insertion keeps a list ascending. -/
theorem ascending_insertElement {a : α} {as : List α}
    (h : as.Pairwise fun a b => compare a b = .lt) :
    (insertElement a as).Pairwise fun a b => compare a b = .lt := by
  induction as with
  | nil => simp [insertElement]
  | cons b bs ih =>
      have ⟨hhead, htail⟩ := List.pairwise_cons.1 h
      simp only [insertElement]
      split
      · next hlt =>
          refine List.pairwise_cons.2 ⟨fun x hx => ?_, h⟩
          rcases List.mem_cons.1 hx with rfl | hx
          · exact hlt
          · exact Element.lt_trans hlt (hhead x hx)
      · exact h
      · next hgt =>
          refine List.pairwise_cons.2 ⟨fun x hx => ?_, ih htail⟩
          rcases mem_insertElement.1 hx with rfl | hx
          · exact Element.gt_iff_lt.1 hgt
          · exact hhead x hx

/-- Interleaves two ascending lists, listing shared elements once. -/
def unionElements : List α → List α → List α
  | [], bs => bs
  | a :: as, bs =>
    bs.takeWhile (fun b => compare b a == .lt) ++
      a :: unionElements as (bs.dropWhile fun b => compare b a != .gt)

/-- The interleaving takes its elements from the two lists. -/
theorem mem_of_mem_unionElements {x : α} {as bs : List α} (h : x ∈ unionElements as bs) :
    x ∈ as ∨ x ∈ bs := by
  induction as generalizing bs with
  | nil => exact .inr h
  | cons a as ih =>
      simp only [unionElements, List.mem_append, List.mem_cons] at h
      rcases h with h | rfl | h
      · exact .inr ((List.takeWhile_sublist _).subset h)
      · exact .inl List.mem_cons_self
      · rcases ih h with h | h
        · exact .inl (List.mem_cons_of_mem _ h)
        · exact .inr ((List.dropWhile_sublist _).subset h)

/-- Once an ascending list has passed `a`, all that is left of it is greater than `a`. -/
theorem lt_of_mem_dropWhile {a x : α} {bs : List α}
    (hbs : bs.Pairwise fun a b => compare a b = .lt)
    (hx : x ∈ bs.dropWhile fun b => compare b a != .gt) : compare a x = .lt := by
  induction bs with
  | nil => simp at hx
  | cons b bs ih =>
      have ⟨hhead, htail⟩ := List.pairwise_cons.1 hbs
      rw [List.dropWhile_cons] at hx
      split at hx
      · exact ih htail hx
      · next hgt =>
          have hab : compare a b = .lt := Element.gt_iff_lt.1 (by simpa using hgt)
          rcases List.mem_cons.1 hx with rfl | hx
          · exact hab
          · exact Element.lt_trans hab (hhead x hx)

/-- Interleaving two ascending lists gives an ascending list. -/
theorem ascending_unionElements {as bs : List α}
    (has : as.Pairwise fun a b => compare a b = .lt)
    (hbs : bs.Pairwise fun a b => compare a b = .lt) :
    (unionElements as bs).Pairwise fun a b => compare a b = .lt := by
  induction as generalizing bs with
  | nil => exact hbs
  | cons a as ih =>
      have ⟨hhead, htail⟩ := List.pairwise_cons.1 has
      have hbelow : ∀ x ∈ bs.takeWhile (fun b => compare b a == .lt), compare x a = .lt :=
        fun x hx => by simpa using List.all_eq_true.1 List.all_takeWhile x hx
      have habove : ∀ x ∈ unionElements as (bs.dropWhile fun b => compare b a != .gt),
          compare a x = .lt := fun x hx => by
        rcases mem_of_mem_unionElements hx with hx | hx
        · exact hhead x hx
        · exact lt_of_mem_dropWhile hbs hx
      refine List.pairwise_append.2
        ⟨hbs.sublist (List.takeWhile_sublist _), List.pairwise_cons.2 ⟨habove, ih htail ?_⟩, ?_⟩
      · exact hbs.sublist (List.dropWhile_sublist _)
      · intro x hx y hy
        rcases List.mem_cons.1 hy with rfl | hy
        · exact hbelow x hx
        · exact Element.lt_trans (hbelow x hx) (habove y hy)

/-! ## Sets -/

instance : DecidableEq (GrowSet α) := fun s t =>
  decidable_of_iff (s.elements = t.elements)
    ⟨fun h => by cases s; cases t; simp_all, fun h => h ▸ rfl⟩

/-- Sets compare like the ascending lists of their members. -/
instance : Element (GrowSet α) :=
  Element.ofKey elements fun ⟨_, _⟩ ⟨_, _⟩ h => by subst h; rfl

instance : Membership α (GrowSet α) where
  mem s a := a ∈ s.elements

/-- The set without members. -/
def empty : GrowSet α := ⟨[], .nil⟩

/-- Whether `a` is a member. -/
def contains (s : GrowSet α) (a : α) : Bool := decide (a ∈ s.elements)

/-- The number of members. -/
def size (s : GrowSet α) : Nat := s.elements.length

/-- The set with `a` added to it. -/
def insert (s : GrowSet α) (a : α) : GrowSet α :=
  ⟨insertElement a s.elements, ascending_insertElement s.ascending⟩

/-- The set whose only member is `a`. -/
def singleton (a : α) : GrowSet α := empty.insert a

/-- The set of the members of a list. -/
def ofList (as : List α) : GrowSet α := as.foldl insert empty

/-- The set of the members of both sets. -/
def union (s t : GrowSet α) : GrowSet α :=
  ⟨unionElements s.elements t.elements, ascending_unionElements s.ascending t.ascending⟩

/-- Inserts the members of `t` one by one; the set grew if it gained members. -/
def merge (s t : GrowSet α) : GrowSet α × Bool :=
  let merged := t.elements.foldl insert s
  (merged, merged.size != s.size)

instance : Relation (GrowSet α) α where
  join s t := .ok (s.union t)
  merge s t := .ok (s.merge t)
  kind := .set
  bottom := empty
  add s a := .ok (s.insert a, !s.contains a)
  tuples s := s.elements
  collect as := .ok (ofList as)

/-- Insertion adds exactly the inserted element. -/
theorem mem_insert {s : GrowSet α} {a x : α} : x ∈ s.insert a ↔ x = a ∨ x ∈ s :=
  mem_insertElement

end GrowSet

end Ratchet

import Mathlib.Tactic.MkIffOfInductiveProp
import Ratchet.Lattice.Dynamic
import Ratchet.Proofs.Lattice.GrowSet

/-!
# The structural order

Facts are told apart by comparing them, and sets list their members in the order that comparing
gives.  `OrderedBy before` says what that asks of a comparison, and that the order is `before`.

The order of a type that is put together from others is put together in the same way.  Sequences are
ordered at the first place where they differ (`List.Lex`), and pairs by their second components on a
tie of the first ones (`Prod.Lex`).  A set is ordered as the sequence of its members, and a map as
the sequence of its keys with their values.

For a value of any kind the order has to be described by recursion, because the values in a map are
of any kind again.  `Tree.Precedes` does this without reference to comparing, and
`Tree.compare_eq_lt_iff` is the induction which shows that comparing decides it.

A set that is built by insertions lists what was inserted.  One insertion keeps the list sorted
(`Sorts.insertElement`), so a run of them does (`sorts_foldl_insert`), and what is inserted has only
one sorted list (`Sorts.unique`).
-/

namespace Ratchet

open Std

/-- Comparing tells where values stand in the order `before`.  This is a total order: comparing is
transitive whatever the outcome, turns around with its two sides, and calls equal what is equal. -/
structure OrderedBy {α : Type} [Ord α] (before : α → α → Prop) : Prop where
  lt_iff : ∀ a b : α, compare a b = .lt ↔ before a b
  eq_iff : ∀ a b : α, compare a b = .eq ↔ a = b
  swap : ∀ a b : α, compare b a = (compare a b).swap
  trans : ∀ {a b c : α} {o : Ordering}, compare a b = o → compare b c = o → compare a c = o

namespace OrderedBy

variable {α β : Type} [Element α] [Element β] {before : α → α → Prop} {before' : β → β → Prop}

theorem of_lt_iff (h : ∀ a b : α, compare a b = .lt ↔ before a b) : OrderedBy before where
  lt_iff := h
  eq_iff _ _ := Element.eq_iff
  swap _ _ := OrientedOrd.eq_swap
  trans {a b c o} hab hbc := by
    cases o with
    | lt => exact Element.lt_trans hab hbc
    | eq => exact Element.eq_iff.2 ((Element.eq_iff.1 hab).trans (Element.eq_iff.1 hbc))
    | gt =>
        rw [Element.gt_iff_lt] at hab hbc ⊢
        exact Element.lt_trans hbc hab

/-- A type that compares by a key is ordered by it. -/
theorem comap (h : OrderedBy before') (key : α → β)
    (hkey : ∀ a b : α, compare a b = compare (key a) (key b)) :
    OrderedBy fun a b => before' (key a) (key b) :=
  .of_lt_iff fun a b => by rw [hkey, h.lt_iff]

theorem integers : OrderedBy fun a b : Int64 => a < b :=
  .of_lt_iff fun _ _ => compareOfLessAndEq_eq_lt

theorem texts : OrderedBy fun a b : String => a < b :=
  .of_lt_iff fun _ _ => compareOfLessAndEq_eq_lt

theorem flags : OrderedBy fun a b : Bool => a < b :=
  .of_lt_iff (by decide)

/-- Sequences are ordered at the first place where they differ. -/
theorem sequences (h : OrderedBy before) : OrderedBy (List.Lex before) := by
  refine .of_lt_iff fun as => ?_
  induction as with
  | nil =>
      rintro (_ | ⟨b, bs⟩)
      · simp
      · exact iff_of_true rfl .nil
  | cons a as ih =>
      rintro (_ | ⟨b, bs⟩)
      · simp
      · rw [List.compare_cons_cons, Ordering.then_eq_lt, h.lt_iff, h.eq_iff, ih,
          List.cons_lex_cons_iff]

/-- Pairs are ordered by their first components, and by the second ones on a tie. -/
theorem pairs (h : OrderedBy before) (h' : OrderedBy before') :
    OrderedBy (Prod.Lex before before') := by
  refine .of_lt_iff fun p q => ?_
  have hcompare : compare p q = (compare p.1 q.1).then (compare p.2 q.2) := rfl
  rw [hcompare, Ordering.then_eq_lt, h.lt_iff, h.eq_iff, h'.lt_iff, Prod.lex_def]

/-- What is absent stands before everything that is present. -/
theorem options (h : OrderedBy before) : OrderedBy (Option.lt before) := by
  refine .of_lt_iff ?_
  rintro (_ | a) (_ | b)
  · exact iff_of_false nofun nofun
  · exact iff_of_true rfl trivial
  · exact iff_of_false nofun nofun
  · exact h.lt_iff a b

end OrderedBy

/-! ## Sets and maps -/

section Containers

variable {V : Type}

/-- Sets stand in the order of the sequences of their members. -/
def GrowSet.Precedes [Element V] (before : V → V → Prop) (s t : GrowSet V) : Prop :=
  List.Lex before s.elements t.elements

/-- Entries stand in the order of their keys, and entries of one key in the order of the values. -/
def MapEntry.Precedes (before : V → V → Prop) (e f : MapEntry V) : Prop :=
  Prod.Lex (· < ·) before (e.key, e.value) (f.key, f.value)

/-- Maps stand in the order of the sequences of their keys with the values. -/
def StringMap.Precedes (before : V → V → Prop) (m n : StringMap V) : Prop :=
  List.Lex (Prod.Lex (· < ·) before) m.entries n.entries

variable [Element V] {before : V → V → Prop} (h : OrderedBy before)

include h

theorem GrowSet.orderedBy : OrderedBy (GrowSet.Precedes before) :=
  h.sequences.comap elements fun _ _ => rfl

theorem MapEntry.orderedBy : OrderedBy (MapEntry.Precedes before) :=
  (OrderedBy.texts.pairs h).comap (fun e : MapEntry V => (e.key, e.value)) fun _ _ => rfl

theorem StringMap.orderedBy : OrderedBy (StringMap.Precedes before) :=
  (OrderedBy.texts.pairs h).sequences.comap entries fun _ _ => rfl

end Containers

/-! ## Values of any kind -/

namespace Tree

/-- Trees stand in the order of their kinds, and trees of one kind in the order of what they hold.
For a map these are the keys with the trees under them. -/
@[mk_iff]
inductive Precedes : Tree → Tree → Prop
  | kind {t u : Tree} (h : t.kind.rank < u.kind.rank) : Precedes t u
  | set {s t : GrowSet String} (h : s.Precedes (· < ·) t) : Precedes (.set s) (.set t)
  | map {es fs : List (String × Tree)} (h : List.Lex (Prod.Lex (· < ·) Precedes) es fs) :
      Precedes (.map es) (.map fs)
  | maxInt {m n : MaxInt} (h : m.value < n.value) : Precedes (.maxInt m) (.maxInt n)
  | maxText {m n : MaxText} (h : m.value < n.value) : Precedes (.maxText m) (.maxText n)
  | flag {b c : Flag} (h : b.value < c.value) : Precedes (.flag b) (.flag c)

theorem compare_of_kind_ne {t u : Tree} (h : t.kind ≠ u.kind) :
    Tree.compare t u = Ord.compare t.kind.rank u.kind.rank := by
  cases t <;> cases u <;> first | rfl | exact absurd rfl h

theorem compare_eq_lt_iff_of_kind_ne {t u : Tree} (h : t.kind ≠ u.kind) :
    Tree.compare t u = .lt ↔ Precedes t u := by
  rw [compare_of_kind_ne h, Nat.compare_eq_lt]
  refine ⟨.kind, fun hprecedes => ?_⟩
  cases hprecedes with
  | kind hrank => exact hrank
  | _ => exact absurd rfl h

/-- Only equal trees compare as equal. -/
theorem compare_eq_eq_iff (t u : Tree) : Tree.compare t u = .eq ↔ t = u :=
  Element.eq_iff (a := t)

mutual

/-- Comparing trees decides which of them stands first. -/
theorem compare_eq_lt_iff (t u : Tree) : Tree.compare t u = .lt ↔ Precedes t u := by
  -- only maps hold trees again; for the other kinds the order of what they hold is known
  cases t <;> cases u
  case map.map es fs =>
    rw [Tree.compare]
    exact (compareEntries_eq_lt_iff es fs).trans (by simp [precedes_iff, kind])
  case set.set s t =>
    exact ((GrowSet.orderedBy .texts).lt_iff s t).trans (by simp [precedes_iff, kind])
  case maxInt.maxInt m n =>
    exact (OrderedBy.integers.lt_iff m.value n.value).trans (by simp [precedes_iff, kind])
  case maxText.maxText m n =>
    exact (OrderedBy.texts.lt_iff m.value n.value).trans (by simp [precedes_iff, kind])
  case flag.flag b c =>
    exact (OrderedBy.flags.lt_iff b.value c.value).trans (by simp [precedes_iff, kind])
  all_goals exact compare_eq_lt_iff_of_kind_ne (by simp [kind])

/-- Comparing entries decides which of them stand first. -/
theorem compareEntries_eq_lt_iff : ∀ es fs : List (String × Tree),
    compareEntries es fs = .lt ↔ List.Lex (Prod.Lex (· < ·) Precedes) es fs
  | [], [] => by simp [compareEntries]
  | [], _ :: _ => iff_of_true rfl .nil
  | _ :: _, [] => by simp [compareEntries]
  | (key, value) :: es, (other, found) :: fs => by
      -- both sides look at the keys, then at the trees under them, then at the rest
      rw [compareEntries, Ordering.then_eq_lt, Ordering.then_eq_lt, OrderedBy.texts.lt_iff,
        OrderedBy.texts.eq_iff, compare_eq_lt_iff value found, compare_eq_eq_iff,
        compareEntries_eq_lt_iff es fs, List.cons_lex_cons_iff, Prod.lex_def, Prod.mk.injEq,
        and_or_left, or_assoc, and_assoc]

end

end Tree

/-- Values stand in the order of their trees. -/
def Dynamic.Precedes (a b : Dynamic) : Prop := a.tree.Precedes b.tree

theorem Dynamic.orderedBy : OrderedBy Dynamic.Precedes :=
  .of_lt_iff fun a b => Tree.compare_eq_lt_iff a.tree b.tree

/-! ## Insertions -/

section Insertions

variable {α : Type} [Element α] {a : α} {as bs xs ys : List α}

/-- The list holds just what is in `as`, each once and in strictly ascending order. -/
structure Sorts (as xs : List α) : Prop where
  ascending : xs.Pairwise fun a b => compare a b = .lt
  nodup : xs.Nodup
  mem_iff : ∀ x, x ∈ xs ↔ x ∈ as

namespace Sorts

theorem of_ascending (ascending : xs.Pairwise fun a b => compare a b = .lt)
    (mem_iff : ∀ x, x ∈ xs ↔ x ∈ as) : Sorts as xs where
  ascending := ascending
  nodup := nodup_of_ascending id ascending
  mem_iff := mem_iff

theorem unique (hxs : Sorts as xs) (hys : Sorts as ys) : xs = ys :=
  eq_of_mem_iff id hxs.ascending hys.ascending fun x => (hxs.mem_iff x).trans (hys.mem_iff x).symm

/-- One insertion keeps a list sorted. -/
theorem insertElement (h : Sorts as xs) (a : α) :
    Sorts (as ++ [a]) (GrowSet.insertElement a xs) := by
  refine .of_ascending (GrowSet.ascending_insertElement h.ascending) fun x => ?_
  rw [GrowSet.mem_insertElement, h.mem_iff, List.mem_append, List.mem_singleton, or_comm]

end Sorts

/-- What is inserted into a set is sorted into what the set lists. -/
theorem sorts_foldl_insert {s : GrowSet α} (h : Sorts as s.elements) (bs : List α) :
    Sorts (as ++ bs) (bs.foldl GrowSet.insert s).elements := by
  induction bs generalizing as s with
  | nil => rwa [List.append_nil]
  | cons b bs ih =>
      rw [List.foldl_cons, List.append_cons]
      exact ih (h.insertElement b)

end Insertions

end Ratchet

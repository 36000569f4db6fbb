import Ratchet.Proofs.Program.Fixpoint
import Ratchet.Proofs.Program.Scratch

/-!
# Stores with two parts

Relations that have nothing to do with each other can live in one store.  Each slot of the whole
belongs to exactly one of two parts (`Sides`), where it may have another number, and no rule mixes
the two: a rule of the whole asks for what a rule of one part asks for, whatever the rest of the
whole is (`Rule.PartOf`).  The slots, the rules and the queue of the parts are interleaved in the
whole in any way.

What a step of the whole does is then made up of what the parts do, in the sense of `Combines`: it
succeeds just if the steps of the parts succeed, and what it leads to shows the parts what theirs
lead to (`Store.Split`).  This is clear for a deposit, which one part makes while the other rests,
and goes on to lists of deposits, rules, passes and the queue.

It is less clear for all passes of a tick.  The whole goes on until neither part changes, so the
part that settles first is evaluated again and again.  But it has settled on relations that are
closed under its rules, so these passes fire each of its rules on the relations that the rule was
last fired on, and change nothing (`settleWithin_of_quiet`).  The whole takes as many passes as the
part that takes longer.

## Main result

* `settleWithin_combines`: the passes of the whole and those of its parts.
-/

namespace Ratchet

/-! ## Parts of a program -/

/-- Each slot is a slot of exactly one of two parts, and no two slots are the same slot of a part.
For each part there is the number that a slot has in it, if it belongs there. -/
structure Sides (left right : Nat → Option Nat) : Prop where
  left_injective : ∀ i i' j, left i = some j → left i' = some j → i = i'
  right_injective : ∀ i i' j, right i = some j → right i' = some j → i = i'
  exactly_one : ∀ i, left i = none ↔ right i ≠ none

namespace Sides

variable {left right : Nat → Option Nat}

theorem symm (h : Sides left right) : Sides right left where
  left_injective := h.right_injective
  right_injective := h.left_injective
  exactly_one i := by
    rw [ne_eq, h.exactly_one, not_not]

theorem right_eq_none (h : Sides left right) {i j : Nat} (hi : left i = some j) :
    right i = none :=
  (h.symm.exactly_one i).2 (by simp [hi])

theorem cases (h : Sides left right) (i : Nat) :
    (∃ j, left i = some j ∧ right i = none) ∨ ∃ j, left i = none ∧ right i = some j := by
  cases hi : left i with
  | some j => exact .inl ⟨j, rfl, h.right_eq_none hi⟩
  | none =>
      obtain ⟨j, hj⟩ := Option.ne_none_iff_exists'.1 ((h.exactly_one i).1 hi)
      exact .inr ⟨j, rfl, hj⟩

end Sides

/-- The slots that belong to a part are in the part as they are in the whole. -/
def Store.PartOf (A : Store) (own : Nat → Option Nat) (S : Store) : Prop :=
  ∀ i j, own i = some j → A[j]? = S[i]?

/-- A store with its two parts. -/
structure Store.Split (left right : Nat → Option Nat) (S A B : Store) : Prop where
  left : A.PartOf left S
  right : B.PartOf right S

/-- A store with its two parts, and what is told about the whole comes from what is told about the
parts. -/
structure Store.SplitWith {N : Type} (op : N → N → N) (left right : Nat → Option Nat)
    (x y z : Store × N) : Prop where
  split : x.1.Split left right y.1 z.1
  told : x.2 = op y.2 z.2

/-- What a part makes of a deposit, if the deposit belongs there. -/
def Deposit.part (own : Nat → Option Nat) (d : Deposit) : Option Deposit :=
  (own d.slot).map fun j => ⟨j, d.write⟩

/-- A list of deposits with those of the two parts. -/
structure SplitQueue (left right : Nat → Option Nat) (ds es fs : List Deposit) : Prop where
  left : es = ds.filterMap (Deposit.part left)
  right : fs = ds.filterMap (Deposit.part right)

namespace Deposit

variable {own : Nat → Option Nat} {d : Deposit}

theorem part_of_some {j : Nat} (h : own d.slot = some j) : d.part own = some ⟨j, d.write⟩ := by
  simp [part, h]

theorem part_of_none (h : own d.slot = none) : d.part own = none := by
  simp [part, h]

end Deposit

/-- The rule of a part asks for what the rule of the whole asks for, and depends on nothing but the
part: whatever the rest of the whole is, either both break off or both give the same. -/
structure Rule.PartOf (own : Nat → Option Nat) (whole part : Nat) (a r : Rule) : Prop where
  timing_eq : a.timing = r.timing
  target_eq : own r.target = some a.target
  evaluate_eq : ∀ S A : Store, A.PartOf own S →
    (a.evaluate ⟨part, A⟩).toOption = (r.evaluate ⟨whole, S⟩).toOption

/-- The first list is made up of members of the other two, in their orders.  What a member of either
list becomes in the first one is related to it. -/
inductive Interleaved {α : Type} (L R : α → α → Prop) : List α → List α → List α → Prop where
  | nil : Interleaved L R [] [] []
  | left {r a : α} {rs as bs : List α} (ha : L a r) (h : Interleaved L R rs as bs) :
    Interleaved L R (r :: rs) (a :: as) bs
  | right {r b : α} {rs as bs : List α} (hb : R b r) (h : Interleaved L R rs as bs) :
    Interleaved L R (r :: rs) as (b :: bs)

namespace Interleaved

variable {α : Type} {L R : α → α → Prop} {rs as bs : List α}

theorem filter (keep : α → Bool) (hL : ∀ a r, L a r → keep a = keep r)
    (hR : ∀ b r, R b r → keep b = keep r) (h : Interleaved L R rs as bs) :
    Interleaved L R (rs.filter keep) (as.filter keep) (bs.filter keep) := by
  induction h with
  | nil => exact .nil
  | @left r a _ _ _ ha _ ih =>
      rw [List.filter_cons, List.filter_cons, hL a r ha]
      split
      · exact .left ha ih
      · exact ih
  | @right r b _ _ _ hb _ ih =>
      rw [List.filter_cons, List.filter_cons, hR b r hb]
      split
      · exact .right hb ih
      · exact ih

end Interleaved

/-! ## Deposits -/

section

variable {left right : Nat → Option Nat} {P Q Q' : Nat} {S A B : Store} {i j : Nat} {s : Slot}

namespace Store

theorem PartOf.set (hown : ∀ i i' j, left i = some j → left i' = some j → i = i')
    (h : A.PartOf left S) (hi : left i = some j) (s : Slot) :
    Store.PartOf (A.set j s) left (S.set i s) := by
  intro i' j' hi'
  rw [List.getElem?_set, List.getElem?_set]
  by_cases hslot : i = i'
  · subst hslot
    cases hi.symm.trans hi'
    have hlength : j < A.length ↔ i < S.length := by
      have hnone : A.length ≤ j ↔ S.length ≤ i := by
        rw [← List.getElem?_eq_none_iff, ← List.getElem?_eq_none_iff, h i j hi]
      omega
    simp [hlength]
  · have hother : j ≠ j' := by
      rintro rfl
      exact hslot (hown _ _ _ hi hi')
    rw [if_neg hslot, if_neg hother, h i' j' hi']

theorem PartOf.set_of_none (h : B.PartOf right S) (hi : right i = none) (s : Slot) :
    B.PartOf right (S.set i s) := by
  intro i' j' hi'
  have hslot : i ≠ i' := by
    rintro rfl
    cases hi.symm.trans hi'
  rw [List.getElem?_set_ne hslot, h i' j' hi']

theorem PartOf.resetScratch (h : A.PartOf left S) : A.resetScratch.PartOf left S.resetScratch := by
  intro i j hi
  rw [getElem?_resetScratch, getElem?_resetScratch, h i j hi]

theorem Split.symm (h : S.Split left right A B) : S.Split right left B A := ⟨h.right, h.left⟩

theorem SplitWith.symm {N : Type} {op : N → N → N} {x y z : Store × N}
    (h : SplitWith op left right x y z) (hop : ∀ m n, op m n = op n m) :
    SplitWith op right left x z y :=
  ⟨h.split.symm, h.told.trans (hop _ _)⟩

/-- A deposit that belongs to a part is made there, while the other part rests. -/
theorem deposit_combines {d : Deposit} (hsides : Sides left right) (h : S.Split left right A B)
    (hj : left d.slot = some j) :
    Combines (fun x y (_ : Unit) => x.1.Split left right y.1 B ∧ x.2 = y.2) (S.deposit P d)
      (A.deposit Q ⟨j, d.write⟩) (.ok ()) := by
  unfold deposit
  rw [h.left d.slot j hj]
  cases S[d.slot]? with
  | none => exact .error
  | some s =>
      dsimp only
      cases s.apply d.write with
      | error fault => exact .error
      | ok r =>
          exact .ok ⟨⟨h.left.set hsides.left_injective hj r.1,
            h.right.set_of_none (hsides.right_eq_none hj) r.1⟩, rfl⟩

theorem depositAll_left {d : Deposit} {ds es fs : List Deposit} (hsides : Sides left right)
    (hj : left d.slot = some j)
    (hds : ∀ S A B : Store, S.Split left right A B →
      Combines (SplitWith (· + ·) left right) (S.depositAll P ds) (A.depositAll Q es)
        (B.depositAll Q' fs))
    (h : S.Split left right A B) :
    Combines (SplitWith (· + ·) left right) (S.depositAll P (d :: ds))
      (A.depositAll Q (⟨j, d.write⟩ :: es)) (B.depositAll Q' fs) := by
  refine (deposit_combines hsides h hj).bind_left ?_
  rintro ⟨S', grew⟩ ⟨A', _⟩ ⟨hsplit, rfl⟩
  refine (hds S' A' B hsplit).finish_left ?_
  rintro ⟨S'', _⟩ ⟨A'', part⟩ ⟨B', other⟩ ⟨hsplit, rfl⟩
  refine ⟨_, _, rfl, rfl, hsplit, ?_⟩
  cases grew with
  | true => exact Nat.add_right_comm part other 1
  | false => rfl

/-- Of a list of deposits, each part makes its own. -/
theorem depositAll_combines {ds es fs : List Deposit} (hsides : Sides left right)
    (h : S.Split left right A B) (hds : SplitQueue left right ds es fs) :
    Combines (SplitWith (· + ·) left right) (S.depositAll P ds) (A.depositAll Q es)
      (B.depositAll Q' fs) := by
  obtain ⟨rfl, rfl⟩ := hds
  induction ds generalizing S A B with
  | nil => exact .ok ⟨h, rfl⟩
  | cons d ds ih =>
      rcases hsides.cases d.slot with ⟨j, hj, hnone⟩ | ⟨j, hnone, hj⟩
      · rw [List.filterMap_cons_some (Deposit.part_of_some hj),
          List.filterMap_cons_none (Deposit.part_of_none hnone)]
        exact depositAll_left hsides hj (fun S A B h => ih h) h
      · rw [List.filterMap_cons_none (Deposit.part_of_none hnone),
          List.filterMap_cons_some (Deposit.part_of_some hj)]
        refine (depositAll_left hsides.symm hj (fun S B A h => ?_) h.symm).swap
          fun _ _ _ hsplit => hsplit.symm Nat.add_comm
        exact (ih h.symm).swap fun _ _ _ hsplit => hsplit.symm Nat.add_comm

end Store

namespace SplitQueue

variable {ds es fs : List Deposit}

theorem symm (h : SplitQueue left right ds es fs) : SplitQueue right left ds fs es :=
  ⟨h.right, h.left⟩

theorem append {ds' es' fs' : List Deposit} (h : SplitQueue left right ds es fs)
    (h' : SplitQueue left right ds' es' fs') :
    SplitQueue left right (ds ++ ds') (es ++ es') (fs ++ fs') :=
  ⟨by rw [h.left, h'.left, List.filterMap_append],
    by rw [h.right, h'.right, List.filterMap_append]⟩

theorem length (hsides : Sides left right) (h : SplitQueue left right ds es fs) :
    ds.length = es.length + fs.length := by
  obtain ⟨rfl, rfl⟩ := h
  induction ds with
  | nil => rfl
  | cons d ds ih =>
      rcases hsides.cases d.slot with ⟨j, hj, hnone⟩ | ⟨j, hnone, hj⟩
      · rw [List.filterMap_cons_some (Deposit.part_of_some hj),
          List.filterMap_cons_none (Deposit.part_of_none hnone), List.length_cons, List.length_cons]
        omega
      · rw [List.filterMap_cons_none (Deposit.part_of_none hnone),
          List.filterMap_cons_some (Deposit.part_of_some hj), List.length_cons, List.length_cons]
        omega

end SplitQueue

/-! ## Rules -/

/-- A rule that belongs to a part asks there for what it asks for in the whole. -/
theorem Rule.PartOf.consequences_combines {a r : Rule} (hsides : Sides left right)
    (hr : a.PartOf left P Q r) (h : A.PartOf left S) :
    Combines (fun ds es (_ : Unit) => SplitQueue left right ds es [])
      (r.consequences ⟨P, S⟩) (a.consequences ⟨Q, A⟩) (.ok ()) := by
  have heq := hr.evaluate_eq S A h
  have hmine : ∀ w, Deposit.part left ⟨r.target, w⟩ = some ⟨a.target, w⟩ := fun w =>
    Deposit.part_of_some hr.target_eq
  have hother : ∀ w, Deposit.part right ⟨r.target, w⟩ = none := fun w =>
    Deposit.part_of_none (hsides.right_eq_none hr.target_eq)
  unfold consequences
  cases hwhole : r.evaluate ⟨P, S⟩ with
  | error fault =>
      cases hpart : a.evaluate ⟨Q, A⟩ with
      | error fault' => exact .error
      | ok ws => simp [hwhole, hpart, Except.toOption] at heq
  | ok ws =>
      rw [hwhole] at heq
      rw [toOption_eq_some.1 heq]
      refine .ok ⟨?_, ?_⟩
      · simp [List.filterMap_map, hmine]
      · simp [List.filterMap_map, hother]

/-- The rules of a program with those of its two parts. -/
abbrev SplitRules (left right : Nat → Option Nat) (P Q Q' : Nat) (rs as bs : List Rule) : Prop :=
  Interleaved (Rule.PartOf left P Q) (Rule.PartOf right P Q') rs as bs

theorem pass_left {a r : Rule} {rs as bs : List Rule} (hsides : Sides left right)
    (hr : a.PartOf left P Q r)
    (hrs : ∀ S A B : Store, S.Split left right A B →
      Combines (Store.SplitWith or left right) (pass P rs S) (pass Q as A) (pass Q' bs B))
    (h : S.Split left right A B) :
    Combines (Store.SplitWith or left right) (pass P (r :: rs) S) (pass Q (a :: as) A)
      (pass Q' bs B) := by
  refine (hr.consequences_combines hsides h.left).bind_left ?_
  intro ds es hds
  have hdeposits : Combines (Store.SplitWith (· + ·) left right) (S.depositAll P ds)
      (A.depositAll Q es) (B.depositAll Q' []) := Store.depositAll_combines hsides h hds
  change Combines _ _ _ (.ok (B, 0)) at hdeposits
  refine hdeposits.bind_left ?_
  rintro ⟨S', _⟩ ⟨A', count⟩ ⟨hsplit, rfl⟩
  refine (hrs S' A' B hsplit).finish_left ?_
  rintro ⟨S'', _⟩ ⟨A'', part⟩ ⟨B', other⟩ ⟨hsplit, rfl⟩
  exact ⟨_, _, rfl, rfl, hsplit, (Bool.or_assoc ..).symm⟩

/-- In a pass each part makes its own, and the whole changes if one of them does. -/
theorem pass_combines {rs as bs : List Rule} (hsides : Sides left right)
    (hrs : SplitRules left right P Q Q' rs as bs) (h : S.Split left right A B) :
    Combines (Store.SplitWith or left right) (pass P rs S) (pass Q as A) (pass Q' bs B) := by
  induction hrs generalizing S A B with
  | nil => exact .ok ⟨h, rfl⟩
  | left hr _ ih => exact pass_left hsides hr (fun _ _ _ h => ih h) h
  | right hr _ ih =>
      refine (pass_left hsides.symm hr (fun _ _ _ h => ?_) h.symm).swap
        fun _ _ _ hsplit => hsplit.symm Bool.or_comm
      exact (ih h.symm).swap fun _ _ _ hsplit => hsplit.symm Bool.or_comm

theorem allConsequences_left {a r : Rule} {rs as bs : List Rule} (hsides : Sides left right)
    (hr : a.PartOf left P Q r) (h : S.Split left right A B)
    (hrs : Combines (SplitQueue left right) (allConsequences ⟨P, S⟩ rs) (allConsequences ⟨Q, A⟩ as)
      (allConsequences ⟨Q', B⟩ bs)) :
    Combines (SplitQueue left right) (allConsequences ⟨P, S⟩ (r :: rs))
      (allConsequences ⟨Q, A⟩ (a :: as)) (allConsequences ⟨Q', B⟩ bs) := by
  refine (hr.consequences_combines hsides h.left).bind_left ?_
  intro ds es hds
  exact hrs.finish_left fun _ _ _ hrest => ⟨_, _, rfl, rfl, hds.append hrest⟩

/-- What the rules ask for, each part asks for on its own. -/
theorem allConsequences_combines {rs as bs : List Rule} (hsides : Sides left right)
    (hrs : SplitRules left right P Q Q' rs as bs) (h : S.Split left right A B) :
    Combines (SplitQueue left right) (allConsequences ⟨P, S⟩ rs) (allConsequences ⟨Q, A⟩ as)
      (allConsequences ⟨Q', B⟩ bs) := by
  induction hrs with
  | nil => exact .ok ⟨rfl, rfl⟩
  | left hr _ ih => exact allConsequences_left hsides hr h ih
  | right hr _ ih =>
      exact (allConsequences_left hsides.symm hr h.symm (ih.swap fun _ _ _ hds => hds.symm)).swap
        fun _ _ _ hds => hds.symm

/-! ## All passes of a tick -/

/-- Passes until nothing changes.  To run out of passes is a fault. -/
def settleWithin (program : Nat) (rules : List Rule) (limit done : Nat) (S : Store) :
    Except Fault (Store × Nat) := do
  match ← settle program rules limit done S with
  | .stable store passes => return (store, passes)
  | .unstable _ => throw .exhausted

variable {rs as bs : List Rule} {limit done : Nat}

theorem settleWithin_succ : settleWithin P rs (limit + 1) done S = (do
    let (store, changed) ← pass P rs S
    if changed then settleWithin P rs limit (done + 1) store else return (store, done + 1)) := by
  unfold settleWithin
  rw [settle]
  cases pass P rs S with
  | error fault => rfl
  | ok r =>
      obtain ⟨store, changed⟩ := r
      cases changed <;> rfl

theorem lt_of_settleWithin {T : Store} {count : Nat}
    (h : settleWithin P rs limit done S = .ok (T, count)) : done < count := by
  induction limit generalizing S done with
  | zero => cases h
  | succ limit ih =>
      rw [settleWithin_succ] at h
      obtain ⟨⟨store, changed⟩, _, h⟩ := bind_eq_ok.1 h
      cases changed with
      | true => exact Nat.lt_of_succ_lt (ih h)
      | false =>
          cases h
          exact Nat.lt_succ_self done

/-- To a part that has settled it makes no difference that the whole goes on. -/
theorem settleWithin_of_quiet {B' : Store} (hquiet : pass Q' bs B = .ok (B', false))
    (h : Combines (Store.SplitWith max left right) (settleWithin P rs limit (done + 1) S)
      (settleWithin Q as limit (done + 1) A) (settleWithin Q' bs limit (done + 1) B')) :
    Combines (Store.SplitWith max left right) (settleWithin P rs limit (done + 1) S)
      (settleWithin Q as limit (done + 1) A) (.ok (B', done + 1)) := by
  cases limit with
  | zero => exact .error
  | succ limit =>
      obtain ⟨rfl, hclosed⟩ := closed_of_pass hquiet
      have hsettled : settleWithin Q' bs (limit + 1) (done + 1) B' = .ok (B', done + 2) := by
        rw [settleWithin_succ, pass_of_closed hclosed]
        rfl
      rw [hsettled] at h
      constructor
      · rintro y _ hy ⟨⟩
        obtain ⟨x, hx, hsplit, htold⟩ := h.exists_whole y _ hy rfl
        have hlt := lt_of_settleWithin hy
        refine ⟨x, hx, hsplit, ?_⟩
        dsimp only at htold ⊢
        omega
      · intro x hx
        obtain ⟨y, _, hy, _⟩ := h.exists_parts x hx
        exact ⟨y, _, hy, rfl⟩

/-- The whole settles just if both parts do, and takes as long as the part that takes longer. -/
theorem settleWithin_combines (hsides : Sides left right)
    (hrs : SplitRules left right P Q Q' rs as bs) (h : S.Split left right A B) :
    Combines (Store.SplitWith max left right) (settleWithin P rs limit done S)
      (settleWithin Q as limit done A) (settleWithin Q' bs limit done B) := by
  induction limit generalizing S A B done with
  | zero => exact .error
  | succ limit ih =>
      rw [settleWithin_succ, settleWithin_succ, settleWithin_succ]
      refine (pass_combines hsides hrs h).bind ?_
      rintro ⟨S', _⟩ ⟨A', changed⟩ ⟨B', other⟩ hA hB ⟨hsplit, rfl⟩
      have hrest : Combines (Store.SplitWith max left right)
          (settleWithin P rs limit (done + 1) S') (settleWithin Q as limit (done + 1) A')
          (settleWithin Q' bs limit (done + 1) B') := ih hsplit
      cases changed with
      | true =>
          cases other with
          | true => exact hrest
          | false => exact settleWithin_of_quiet hB hrest
      | false =>
          cases other with
          | true =>
              have hswapped := settleWithin_of_quiet hA
                (hrest.swap fun _ _ _ hsplit => hsplit.symm Nat.max_comm)
              exact hswapped.swap fun _ _ _ hsplit => hsplit.symm Nat.max_comm
          | false => exact .ok ⟨hsplit, (Nat.max_self _).symm⟩

end

/-! ## Joins

A rule belongs to a part if its rows come from relations of the part, and its selector does not look
at others.  The rule of the part is then the same rule with the handles of the part. -/

section Joins

variable {own : Nat → Option Nat} {P Q j : Nat} {S A : Store}

theorem Store.PartOf.get_eq {t : RelationType} {h k : Handle t} (hA : A.PartOf own S)
    (hh : h.id.program = P) (hk : k.id.program = Q) (hown : own h.id.slot = some k.id.slot) :
    ((Facts.mk Q A).get k).toOption = ((Facts.mk P S).get h).toOption := by
  ext v
  rw [toOption_eq_some, toOption_eq_some, Facts.get_eq_ok, Facts.get_eq_ok, hA _ _ hown]
  simp [hh, hk]

theorem Store.PartOf.rows_eq {t : RelationType} {h k : Handle t} (hA : A.PartOf own S)
    (hh : h.id.program = P) (hk : k.id.program = Q) (hown : own h.id.slot = some k.id.slot) :
    ((Source.of k).rows ⟨Q, A⟩).toOption = ((Source.of h).rows ⟨P, S⟩).toOption := by
  change ((Facts.mk Q A).get k >>= _).toOption = ((Facts.mk P S).get h >>= _).toOption
  rw [toOption_bind, toOption_bind, hA.get_eq hh hk hown]

theorem Rule.selectRows_eq {ρ : Type} {source other : Source ρ}
    {select selectOther : Facts → ρ → Except Fault (Option Write)} {facts others : Facts}
    (hrows : (other.rows others).toOption = (source.rows facts).toOption)
    (hselect : ∀ row, (selectOther others row).toOption = (select facts row).toOption) :
    (selectRows other selectOther others).toOption = (selectRows source select facts).toOption := by
  unfold selectRows
  rw [toOption_bind, toOption_bind, hrows]
  congr 1
  funext rows
  rw [toOption_bind, toOption_bind, toOption_mapM, toOption_mapM]
  simp only [hselect]

/-- A rule that looks at nothing but its rows. -/
theorem Rule.PartOf.of_rows {ρ : Type} {source other : Source ρ} {a r : Rule}
    (select : ρ → Except Fault (Option Write)) (hr : r.evaluate = selectRows source fun _ => select)
    (ha : a.evaluate = selectRows other fun _ => select) (htiming : a.timing = r.timing)
    (htarget : own r.target = some a.target)
    (hrows : ∀ S A : Store, A.PartOf own S →
      (other.rows ⟨Q, A⟩).toOption = (source.rows ⟨P, S⟩).toOption) :
    a.PartOf own P Q r where
  timing_eq := htiming
  target_eq := htarget
  evaluate_eq S A hA := by
    rw [ha, hr]
    exact selectRows_eq (hrows S A hA) fun _ => rfl

end Joins

end Ratchet

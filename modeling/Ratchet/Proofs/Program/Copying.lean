import Ratchet.Proofs.Lattice.Ordered
import Ratchet.Proofs.Lattice.Piecewise
import Ratchet.Proofs.Program.Setup

/-!
# Copying a relation and merging it

A rule that copies a relation adds its tuples one by one.  A rule that merges the relation asks for
one deposit instead, or for one for each tuple if it has the relation among its sources.  By
`Relation.Spanned` a store holds the tuples of a relation just if it is above the relation, so
deposits of the one kind can be exchanged for deposits of the other (`Store.yields_congr`), whether
they are made at once or wait for the next tick.

Within a tick no more than that is looked at: rules that have the same effect
(`Rule.SameEffect`) can be exchanged without any tick showing it (`Rule.SameEffect.tick_iff`).

## Main result

* `Relation.piecewise`: adding tuples against merging relations, for the kinds of relations, for
  rules, and for the collecting of facts.
-/

namespace Ratchet

open Ratchet.Lattice Ratchet.Relation

/-- To be above a relation of a program is to absorb its tuples. -/
theorem RelationType.spanned (t : RelationType) : Spanned t.Value := by
  cases t with
  | max => exact MaxInt.spanned
  | maxText => exact MaxText.spanned
  | flag => exact Flag.spanned
  | set f => exact GrowSet.spanned f.Carrier
  | map v => exact StringMap.spanned v.Value
  | dynamicMap => exact StringMap.spanned Dynamic

/-! ## Deposits that come to the same -/

variable {t : RelationType} {program : Nat} {S T : Store} {ds es : List Deposit} {grew : Bool}

/-- What is held through a handle is what writing does not change. -/
theorem held_iff {x : Write} {h : Handle x.type} {v : x.type.Value}
    (hv : (Facts.mk program S).get h = .ok v) :
    (Deposit.mk h.id.slot x).Held S ↔ x.applyTo v = .ok (v, false) := by
  obtain ⟨_, s, hs, hread⟩ := Facts.get_eq_ok.1 hv
  have hheld : (Deposit.mk h.id.slot x).Held S ↔ s.Holds x := by
    constructor
    · rintro ⟨s', hs', hholds⟩
      obtain rfl := Option.some.inj (hs.symm.trans hs')
      exact hholds
    · intro hholds
      exact ⟨s, hs, hholds⟩
  rw [hheld]
  obtain ⟨htype, rfl⟩ := Slot.valueAs_eq_ok.1 hread
  obtain ⟨name, type, value, scratch, channel, input, output⟩ := s
  dsimp only at htype
  subst htype
  unfold Slot.Holds Slot.apply
  rw [dif_pos rfl]
  cases x.applyTo value with
  | error conflict => simp [liftConflict, bind, Except.bind]
  | ok r => simp [liftConflict, bind, Except.bind, pure, Except.pure, Prod.ext_iff]

/-- What the deposits make of a store, and whether that is a new one. -/
def Store.Yields (program : Nat) (S : Store) (ds : List Deposit) (T : Store) (grew : Bool) : Prop :=
  ∃ count, S.depositAll program ds = .ok (T, count) ∧ grew = decide (0 < count)

/-- Deposits that the same stores hold yield the same. -/
theorem Store.yields_congr
    (hheld : ∀ U, S.Below U → ((∀ d ∈ ds, d.Held U) ↔ ∀ d ∈ es, d.Held U)) :
    S.Yields program ds T grew ↔ S.Yields program es T grew := by
  have hyields : ∀ {ds es : List Deposit},
      (∀ U, S.Below U → ((∀ d ∈ ds, d.Held U) ↔ ∀ d ∈ es, d.Held U)) →
        S.Yields program ds T grew → S.Yields program es T grew := by
    rintro ds es hheld ⟨count, hall, rfl⟩
    obtain ⟨hST, hds, hleast, hcount⟩ := depositAll_least hall
    obtain ⟨U, rest, hall'⟩ := exists_depositAll program hST ((hheld T hST).1 hds)
    obtain ⟨hSU, hes, hleast', hrest⟩ := depositAll_least hall'
    have hTU : T.Below U := hleast U hSU ((hheld U hSU).2 hes)
    obtain rfl := hTU.antisymm (hleast' T hST ((hheld T hST).1 hds))
    exact ⟨rest, hall', decide_eq_decide.2 (hcount.trans hrest.symm)⟩
  exact ⟨hyields hheld, hyields fun U hSU => (hheld U hSU).symm⟩

/-- Two rules that break off on the same stores, and whose deposits yield the same on every store
that has the relation. -/
structure Rule.SameEffect (program : Nat) (target : Handle t) (r r' : Rule) : Prop where
  fault_iff : ∀ facts fault, r.consequences facts = .error fault ↔
    r'.consequences facts = .error fault
  yields_iff : ∀ facts ds es, r.consequences facts = .ok ds → r'.consequences facts = .ok es →
    ∀ S, target.Declared program S → ∀ T grew,
      S.Yields program ds T grew ↔ S.Yields program es T grew

/-! ## Exchanging rules -/

section Exchange

variable {target : Handle t} {r r' : Rule} {rs before after : List Rule} {U : Store}
  {changed : Bool}

theorem Rule.SameEffect.symm (h : r.SameEffect program target r') :
    r'.SameEffect program target r where
  fault_iff facts fault := (h.fault_iff facts fault).symm
  yields_iff facts ds es hds hes S htarget T grew :=
    (h.yields_iff facts es ds hes hds S htarget T grew).symm

theorem pass_cons_iff : pass program (r :: rs) S = .ok (U, changed) ↔
    ∃ ds T grew more, r.consequences ⟨program, S⟩ = .ok ds ∧ S.Yields program ds T grew ∧
      pass program rs T = .ok (U, more) ∧ changed = (grew || more) := by
  constructor
  · intro h
    obtain ⟨ds, hds, h⟩ := bind_eq_ok.1 h
    obtain ⟨⟨T, count⟩, hall, h⟩ := bind_eq_ok.1 h
    obtain ⟨⟨V, more⟩, hpass, heq⟩ := bind_eq_ok.1 h
    cases heq
    exact ⟨ds, T, _, more, hds, ⟨count, hall, rfl⟩, hpass, rfl⟩
  · rintro ⟨ds, T, grew, more, hds, ⟨count, hall, rfl⟩, hpass, rfl⟩
    exact bind_eq_ok.2 ⟨ds, hds, bind_eq_ok.2 ⟨_, hall, bind_eq_ok.2 ⟨_, hpass, rfl⟩⟩⟩

theorem Rule.SameEffect.pass (h : r.SameEffect program target r')
    (htarget : target.Declared program S)
    (hpass : Ratchet.pass program (before ++ r :: after) S = .ok (U, changed)) :
    Ratchet.pass program (before ++ r' :: after) S = .ok (U, changed) := by
  induction before generalizing S changed with
  | nil =>
      obtain ⟨ds, T, grew, more, hds, hyields, hrest, rfl⟩ := pass_cons_iff.1 hpass
      cases hes : r'.consequences ⟨program, S⟩ with
      | error fault => cases ((h.fault_iff _ _).2 hes).symm.trans hds
      | ok es =>
          have hyields' := (h.yields_iff _ ds es hds hes S htarget T grew).1 hyields
          exact pass_cons_iff.2 ⟨es, T, grew, more, hes, hyields', hrest, rfl⟩
  | cons first before ih =>
      obtain ⟨ds, T, grew, more, hds, hyields, hrest, rfl⟩ := pass_cons_iff.1 hpass
      obtain ⟨count, hall, _⟩ := id hyields
      have hST : S.Below T := (Store.depositAll_least hall).1
      have hrest' := ih (htarget.of_sameShape hST.sameShape) hrest
      exact pass_cons_iff.2 ⟨ds, T, grew, more, hds, hyields, hrest', rfl⟩

theorem Rule.SameEffect.settle (h : r.SameEffect program target r') {limit done : Nat}
    {result : Settled} (htarget : target.Declared program S)
    (hsettle : Ratchet.settle program (before ++ r :: after) limit done S = .ok result) :
    Ratchet.settle program (before ++ r' :: after) limit done S = .ok result := by
  induction limit generalizing S done with
  | zero => exact hsettle
  | succ limit ih =>
      obtain ⟨⟨T, changed⟩, hpass, hrest⟩ := bind_eq_ok.1 hsettle
      refine bind_eq_ok.2 ⟨_, h.pass htarget hpass, ?_⟩
      cases changed with
      | false => exact hrest
      | true => exact ih (htarget.of_sameShape (pass_growth hpass).1.sameShape) hrest

/-- A rule of the same tick can be exchanged for one of the same effect: no tick ends differently,
whatever the other rules are. -/
theorem Rule.SameEffect.tick_iff {p q : Program} {patience : Nat}
    {outcome : Except ProgramError TickReport} (h : r.SameEffect p.id target r')
    (hr : r.timing = .sameTick) (hr' : r'.timing = .sameTick)
    (htarget : target.Declared p.id p.store) :
    { p with rules := before ++ r :: after }.tick patience =
        .ok ({ q with rules := before ++ r :: after }, outcome) ↔
      { p with rules := before ++ r' :: after }.tick patience =
        .ok ({ q with rules := before ++ r' :: after }, outcome) := by
  have hexchange : ∀ {r r' : Rule}, r.SameEffect p.id target r' → r.timing = .sameTick →
      r'.timing = .sameTick →
      { p with rules := before ++ r :: after }.tick patience =
        .ok ({ q with rules := before ++ r :: after }, outcome) →
      { p with rules := before ++ r' :: after }.tick patience =
        .ok ({ q with rules := before ++ r' :: after }, outcome) := by
    intro r r' h hr hr' htick
    obtain ⟨⟨start, applied⟩, hstart, htick⟩ := bind_eq_ok.1 htick
    obtain ⟨settled, hsettle, htick⟩ := bind_eq_ok.1 htick
    have hdeclared : target.Declared p.id start :=
      (htarget.of_sameShape p.store.sameShape_resetScratch).of_sameShape
        (Store.depositAll_least hstart).1.sameShape
    simp only [Program.sameTickRules, List.filter_append, List.filter_cons, hr, decide_true,
      if_true] at hsettle
    have hsettle' := h.settle hdeclared hsettle
    refine bind_eq_ok.2 ⟨_, hstart, bind_eq_ok.2 ⟨settled, ?_, ?_⟩⟩
    · simpa only [Program.sameTickRules, List.filter_append, List.filter_cons, hr', decide_true,
        if_true] using hsettle'
    · cases settled with
      | stable store count =>
          obtain ⟨queue, hqueue, heq⟩ := bind_eq_ok.1 htick
          refine bind_eq_ok.2 ⟨queue, ?_, ?_⟩
          · simpa [Program.nextTickRules, List.filter_append, List.filter_cons, hr, hr']
              using hqueue
          · obtain ⟨hq, rfl⟩ := Prod.mk.inj (Except.ok.inj heq)
            exact congrArg (fun q' : Program =>
              Except.ok ({ q' with rules := before ++ r' :: after }, _)) hq
      | unstable store =>
          cases hlimit : p.passLimit with
          | none => simp [hlimit] at htick
          | some limit =>
              simp only [hlimit] at htick ⊢
              obtain ⟨hq, rfl⟩ := Prod.mk.inj (Except.ok.inj htick)
              exact congrArg (fun q' : Program =>
                Except.ok ({ q' with rules := before ++ r' :: after }, _)) hq
  exact ⟨hexchange h hr hr', hexchange h.symm hr' hr⟩

end Exchange

/-! ## Copying rules -/

section Copying

variable (source target : Handle t) (sources : List String) (targetName : String) (timing : Timing)

/-- The rule that `Setup.copy` adds. -/
def copyRule : Rule :=
  joinRule sources targetName (.of source) target timing fun _ tuple => .ok (some tuple)

/-- The rule that merges a relation, for every row of some source. -/
def mergeRule {ρ : Type} (rows : Source ρ) : Rule :=
  joinMergeRule sources targetName rows target timing fun facts _ => do
    return some (← facts.get source)

variable {source target sources targetName timing} {facts : Facts} {r : t.Value} {fault : Fault}

theorem consequences_copyRule (hr : facts.get source = .ok r) :
    (copyRule source target sources targetName timing).consequences facts =
      .ok ((tuples r).map fun x => ⟨target.id.slot, .add t x⟩) := by
  have hrows : (Source.of source).rows facts = .ok (tuples r) := bind_eq_ok.2 ⟨r, hr, rfl⟩
  rw [Rule.consequences_eq rfl, selected_of_forall hrows fun _ => rfl, List.filterMap_some]
  rfl

theorem copyRule_fault (hr : facts.get source = .error fault) :
    (copyRule source target sources targetName timing).consequences facts = .error fault := by
  have hrows : (Source.of source).rows facts = .error fault := bind_eq_error.2 (.inl hr)
  rw [Rule.consequences_eq rfl]
  unfold Source.selected
  rw [hrows]
  rfl

theorem consequences_mergeRule {ρ : Type} {source' : Source ρ} {rows : List ρ}
    (hrows : source'.rows facts = .ok rows) (hr : facts.get source = .ok r) :
    (mergeRule source target sources targetName timing source').consequences facts =
      .ok (rows.map fun _ => ⟨target.id.slot, .merge t r⟩) := by
  have hselect : ∀ row : ρ, (do return some (← facts.get source) : Except Fault _) =
      .ok ((fun _ => some r) row) := by
    intro row
    rw [hr]
    rfl
  rw [Rule.consequences_eq rfl, selected_of_forall hrows hselect]
  change Except.ok _ = _
  simp [List.filterMap_eq_map', joinMergeRule, mergeRule]

theorem mergeRule_fault {ρ : Type} {source' : Source ρ}
    (hrows : source'.rows facts = .error fault ∨
      (∃ row rows, source'.rows facts = .ok (row :: rows)) ∧ facts.get source = .error fault) :
    (mergeRule source target sources targetName timing source').consequences facts =
      .error fault := by
  rw [Rule.consequences_eq rfl]
  unfold Source.selected
  rcases hrows with hrows | ⟨⟨row, rows, hrows⟩, hr⟩
  · rw [hrows]
    rfl
  · rw [hrows]
    simp [bind, Except.bind, List.mapM_cons, hr, Except.map]

/-- A store holds the tuples of a relation just if it holds the relation. -/
theorem held_tuples_iff {ρ : Type} {rows : List ρ} (hrows : rows = [] → tuples r = [])
    (htarget : target.Declared program S) :
    (∀ d ∈ (tuples r).map fun x => Deposit.mk target.id.slot (.add t x), d.Held S) ↔
      ∀ d ∈ rows.map fun _ => Deposit.mk target.id.slot (.merge t r), d.Held S := by
  obtain ⟨v, hv⟩ := Handle.declared_iff.1 htarget
  have hadd : ∀ x : t.Tuple, (Deposit.mk target.id.slot (.add t x)).Held S ↔ Absorbs v x :=
    fun x => held_iff (x := .add t x) hv
  have hmerge : (Deposit.mk target.id.slot (.merge t r)).Held S ↔ Below r v :=
    (held_iff (x := .merge t r) hv).trans merge_eq_self_iff
  simp only [List.forall_mem_map, hadd, hmerge, t.spanned r v]
  constructor
  · intro h _ _
    exact h
  · intro h
    cases rows with
    | nil =>
        rw [hrows rfl]
        nofun
    | cons row rows => exact h row List.mem_cons_self

/-- Copying a relation has the effect of merging it, be it once or for each of its tuples. -/
theorem copyRule_sameEffect : Rule.SameEffect program target
      (copyRule source target sources targetName timing)
      (mergeRule source target sources targetName timing .unit) ∧
    Rule.SameEffect program target (copyRule source target sources targetName timing)
      (mergeRule source target sources targetName timing (.of source)) := by
  have hexchange : ∀ {ρ : Type} {source' : Source ρ},
      (∀ facts r, facts.get source = .ok r →
        ∃ rows, source'.rows facts = .ok rows ∧ (rows = [] → tuples r = [])) →
      (∀ facts fault, facts.get source = .error fault →
        (mergeRule source target sources targetName timing source').consequences facts =
          .error fault) →
      Rule.SameEffect program target (copyRule source target sources targetName timing)
        (mergeRule source target sources targetName timing source') := by
    intro ρ source' hrows hfault
    constructor
    · intro facts fault
      cases hr : facts.get source with
      | error other => rw [copyRule_fault hr, hfault facts other hr]
      | ok r =>
          obtain ⟨rows, hrow, _⟩ := hrows facts r hr
          rw [consequences_copyRule hr, consequences_mergeRule hrow hr]
          exact iff_of_false nofun nofun
    · intro facts ds es hds hes S htarget T grew
      cases hr : facts.get source with
      | error fault => cases (copyRule_fault hr).symm.trans hds
      | ok r =>
          obtain ⟨rows, hrow, hempty⟩ := hrows facts r hr
          obtain rfl := Except.ok.inj ((consequences_copyRule hr).symm.trans hds)
          obtain rfl := Except.ok.inj ((consequences_mergeRule hrow hr).symm.trans hes)
          exact Store.yields_congr fun U hSU =>
            held_tuples_iff hempty (htarget.of_sameShape hSU.sameShape)
  constructor
  · refine hexchange (fun facts r _ => ⟨[()], rfl, nofun⟩) fun facts fault hr => ?_
    exact mergeRule_fault (.inr ⟨⟨(), [], rfl⟩, hr⟩)
  · refine hexchange (fun facts r hr => ⟨tuples r, bind_eq_ok.2 ⟨r, hr, rfl⟩, id⟩) ?_
    intro facts fault hr
    exact mergeRule_fault (.inl (bind_eq_error.2 (.inl hr)))

end Copying

/-- Adding the tuples of a relation in any order, each of them once or more often, leaves what
merging the relation leaves, and one of the tuples makes the value grow just if merging does: for
sets, registers, flags and maps over lawful lattices.  Maps of values of any kind can be merged, and
their entries added, if no two values of one key conflict.

So a rule that copies a relation and one that merges it have the same effect, and no tick tells
which of the two a program has.  Sets and maps that are collected from a list are what adding the
members of the list to bottom gives, in any order. -/
theorem Relation.piecewise :
    (∀ (T : Type) [Element T] (s r : GrowSet T) (xs : List T), (∀ x, x ∈ xs ↔ x ∈ tuples r) →
      addEach s xs = merge s r) ∧
    (∀ (a r : MaxInt) (ns : List Int64), (∀ n, n ∈ ns ↔ n ∈ tuples r) →
      addEach a ns = merge a r) ∧
    (∀ (a r : MaxText) (ss : List String), (∀ s, s ∈ ss ↔ s ∈ tuples r) →
      addEach a ss = merge a r) ∧
    (∀ (a r : Flag) (bs : List Bool), (∀ b, b ∈ bs ↔ b ∈ tuples r) → addEach a bs = merge a r) ∧
    (∀ (V : Type) [Lattice V] [LawfulLattice V] (m r : StringMap V) (es : List (MapEntry V)),
      (∀ e, e ∈ es ↔ e ∈ tuples r) →
        (∀ x, addEach m es = .ok x ↔ merge m r = .ok x) ∧
        ((∀ key a b, m.get? key = some a → r.get? key = some b → Joinable a b) →
          ∃ x, addEach m es = .ok x ∧ merge m r = .ok x)) ∧
    (∀ (m r : StringMap Dynamic) (es : List (MapEntry Dynamic)), (∀ e, e ∈ es ↔ e ∈ tuples r) →
      (∀ key a b, m.get? key = some a → r.get? key = some b → a.conflict? b = none) →
        ∃ x, addEach m es = .ok x ∧ merge m r = .ok x) ∧
    (∀ (program : Nat) (t : RelationType) (source target : Handle t) (sources : List String)
      (targetName : String) (timing : Timing),
      Rule.SameEffect program target (copyRule source target sources targetName timing)
          (mergeRule source target sources targetName timing .unit) ∧
        Rule.SameEffect program target (copyRule source target sources targetName timing)
          (mergeRule source target sources targetName timing (.of source))) ∧
    (∀ (p q : Program) (patience : Nat) (outcome : Except ProgramError TickReport)
      (t : RelationType) (source target : Handle t) (sources : List String) (targetName : String)
      (before after : List Rule), target.Declared p.id p.store →
        let copying := before ++ copyRule source target sources targetName .sameTick :: after
        let merging := before ++ mergeRule source target sources targetName .sameTick .unit :: after
        ({ p with rules := copying }.tick patience = .ok ({ q with rules := copying }, outcome) ↔
          { p with rules := merging }.tick patience = .ok ({ q with rules := merging }, outcome))) ∧
    (∀ (T : Type) [Element T] (xs ys : List T), (∀ x, x ∈ ys ↔ x ∈ xs) →
      collect (R := GrowSet T) xs = addAll bottom ys) ∧
    (∀ (V : Type) [Lattice V] [LawfulLattice V] (es fs : List (MapEntry V)),
      (∀ e, e ∈ fs ↔ e ∈ es) →
        ∀ r : StringMap V, collect es = .ok r ↔ addAll bottom fs = .ok r) := by
  have hmaps : ∀ (V : Type) [Lattice V] [LawfulLattice V] (m r : StringMap V)
      (es : List (MapEntry V)), (∀ e, e ∈ es ↔ e ∈ tuples r) →
        (∀ x, addEach m es = .ok x ↔ merge m r = .ok x) ∧
        ((∀ key a b, m.get? key = some a → r.get? key = some b → Joinable a b) →
          ∃ x, addEach m es = .ok x ∧ merge m r = .ok x) := by
    intro V _ _ m r es hmem
    have hsame := fun x => (StringMap.spanned V).addEach_eq_merge (a := m) hmem (x := x)
    refine ⟨hsame, fun hvalues => ?_⟩
    obtain ⟨n, hjoin⟩ := StringMap.joinable_iff.2 hvalues
    obtain ⟨grew, hmerge⟩ := (LawfulLattice.exactMerge r).exists_merge hjoin
    exact ⟨_, (hsame _).2 hmerge, hmerge⟩
  refine ⟨?_, ?_, ?_, ?_, hmaps, ?_, ?_, ?_, ?_, ?_⟩
  · intro T _ s r xs hmem
    exact ((GrowSet.spanned T).addEach_eq_merge hmem).2 rfl
  · intro a r ns hmem
    exact (MaxInt.spanned.addEach_eq_merge hmem).2 rfl
  · intro a r ss hmem
    exact (MaxText.spanned.addEach_eq_merge hmem).2 rfl
  · intro a r bs hmem
    exact (Flag.spanned.addEach_eq_merge hmem).2 rfl
  · intro m r es hmem hvalues
    exact (hmaps Dynamic m r es hmem).2 fun key a b ha hb =>
      Dynamic.conflict?_eq_none_iff.1 (hvalues key a b ha hb)
  · intro program t source target sources targetName timing
    exact copyRule_sameEffect
  · intro p q patience outcome t source target sources targetName before after htarget
    exact copyRule_sameEffect.1.tick_iff rfl rfl htarget
  · intro T _ xs ys hmem
    exact ((addAll_congr hmem).2 GrowSet.addAll_eq).symm
  · intro V _ _ es fs hmem r
    exact addAll_congr fun e => (hmem e).symm

/-- Entries out of order and one of them twice: the map grows by its greater values, although the
last entry leaves it as it is. -/
theorem Relation.piecewise_repeated :
    let m : StringMap MaxInt := .singleton "low" ⟨3⟩
    let r : StringMap MaxInt := (StringMap.singleton "low" ⟨7⟩).put "high" ⟨9⟩
    addEach m [⟨"low", ⟨7⟩⟩, ⟨"high", ⟨9⟩⟩, ⟨"low", ⟨7⟩⟩] = .ok (r, true) ∧
      addEach r [⟨"low", ⟨7⟩⟩, ⟨"high", ⟨9⟩⟩, ⟨"low", ⟨7⟩⟩] = .ok (r, false) := by
  intro m r
  have hmem : ∀ e : MapEntry MaxInt, e ∈ [(⟨"low", ⟨7⟩⟩ : MapEntry MaxInt), ⟨"high", ⟨9⟩⟩,
      ⟨"low", ⟨7⟩⟩] ↔ e ∈ tuples r := by
    intro e
    have htuples : tuples r = [⟨"high", ⟨9⟩⟩, ⟨"low", ⟨7⟩⟩] := rfl
    rw [htuples]
    simp only [List.mem_cons, List.not_mem_nil, or_false]
    tauto
  obtain ⟨_, _, _, _, hmap, _⟩ := piecewise
  have hmerge : merge m r = .ok (r, true) := by decide +kernel
  have hagain : merge r r = .ok (r, false) := by decide +kernel
  exact ⟨((hmap MaxInt m r _ hmem).1 _).2 hmerge, ((hmap MaxInt r r _ hmem).1 _).2 hagain⟩

end Ratchet

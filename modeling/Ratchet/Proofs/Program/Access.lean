import Ratchet.Program.Basic
import Ratchet.Proofs.Program.Fixpoint

/-!
# Reading and writing through handles

A handle of a program stands for one slot of one type (`Handle.Declared`).  Through such a handle a
store behaves like a record: what was assigned is what is read, and other slots do not change.  A
deposit assigns what the relation grows to (`deposit_eq`, `deposit_merge`), and a list of deposits
puts into a set what its writes have for it (`exists_get_of_depositAll`).

With that, firing a rule is an equation about the value of its target alone (`Rule.fire_join`,
`Rule.fire_joinMerge`).
-/

namespace Ratchet

variable {t u : RelationType} {program : Nat} {S T : Store} {h : Handle t} {v w : t.Value}

/-! ## Handles -/

/-- The handle stands for a slot of its type. -/
def Handle.Declared (program : Nat) (S : Store) (h : Handle t) : Prop :=
  h.id.program = program ∧ ∃ s, S[h.id.slot]? = some s ∧ s.type = t

theorem Handle.declared_iff : h.Declared program S ↔ ∃ v, (Facts.mk program S).get h = .ok v := by
  constructor
  · rintro ⟨hprogram, s, hs, htype⟩
    exact ⟨_, Facts.get_eq_ok.2 ⟨hprogram, s, hs, Slot.valueAs_eq_ok.2 ⟨htype, rfl⟩⟩⟩
  · rintro ⟨v, hv⟩
    obtain ⟨hprogram, s, hs, hread⟩ := Facts.get_eq_ok.1 hv
    obtain ⟨htype, _⟩ := Slot.valueAs_eq_ok.1 hread
    exact ⟨hprogram, s, hs, htype⟩

theorem Handle.Declared.exists_slot (hh : h.Declared program S) :
    ∃ s, (Facts.mk program S).slot h.id = .ok s := by
  obtain ⟨hprogram, s, hs, _⟩ := hh
  exact ⟨s, Facts.slot_eq_ok.2 ⟨hprogram, hs⟩⟩

theorem Handle.Declared.of_sameShape (hh : h.Declared program S) (hST : S.SameShape T) :
    h.Declared program T := by
  obtain ⟨hprogram, s, hs, htype⟩ := hh
  obtain ⟨s', hs'⟩ := Store.exists_of_length_eq hST.1 hs
  obtain ⟨value, rfl⟩ := hST.2 _ s s' hs hs'
  exact ⟨hprogram, _, hs', htype⟩

/-! ## Assigning -/

/-- The slot with another value, if it has the type that is asked for. -/
def Slot.assign (s : Slot) (t : RelationType) (v : t.Value) : Slot :=
  if h : s.type = t then { s with value := h ▸ v } else s

/-- The store with another value in the slot of a handle. -/
def Store.assign (S : Store) (h : Handle t) (v : t.Value) : Store :=
  S.modify h.id.slot fun s => s.assign t v

theorem Facts.get_congr (hslot : S[h.id.slot]? = T[h.id.slot]?) :
    (Facts.mk program S).get h = (Facts.mk program T).get h := by
  unfold Facts.get Facts.tryGet Facts.slot
  rw [hslot]

theorem get_assign_self (hv : (Facts.mk program S).get h = .ok v) :
    (Facts.mk program (S.assign h w)).get h = .ok w := by
  obtain ⟨hprogram, s, hs, hread⟩ := Facts.get_eq_ok.1 hv
  obtain ⟨htype, _⟩ := Slot.valueAs_eq_ok.1 hread
  subst htype
  refine Facts.get_eq_ok.2 ⟨hprogram, { s with value := w }, ?_, Slot.valueAs_eq_ok.2 ⟨rfl, rfl⟩⟩
  rw [Store.assign, List.getElem?_modify_eq, hs]
  simp [Slot.assign]

theorem get_assign_of_ne {other : Handle u} (hne : h.id.slot ≠ other.id.slot) :
    (Facts.mk program (S.assign h w)).get other = (Facts.mk program S).get other :=
  Facts.get_congr (List.getElem?_modify_ne _ _ hne)

theorem assign_of_get (hv : (Facts.mk program S).get h = .ok v) : S.assign h v = S := by
  obtain ⟨_, s, hs, hread⟩ := Facts.get_eq_ok.1 hv
  obtain ⟨htype, rfl⟩ := Slot.valueAs_eq_ok.1 hread
  subst htype
  apply List.ext_getElem?
  intro i
  by_cases hi : h.id.slot = i
  · subst hi
    rw [Store.assign, List.getElem?_modify_eq, hs]
    simp [Slot.assign]
  · rw [Store.assign, List.getElem?_modify_ne _ _ hi]

theorem assign_assign : (S.assign h v).assign h w = S.assign h w := by
  apply List.ext_getElem?
  intro i
  by_cases hi : h.id.slot = i
  · subst hi
    simp only [Store.assign, List.getElem?_modify_eq]
    cases S[h.id.slot]? with
    | none => rfl
    | some s =>
        by_cases htype : s.type = t
        · subst htype
          simp [Slot.assign]
        · simp [Slot.assign, htype]
  · simp only [Store.assign, List.getElem?_modify_ne _ _ hi]

theorem get_resetScratch {s : Slot} (hs : S[h.id.slot]? = some s)
    (hv : (Facts.mk program S).get h = .ok v) :
    (Facts.mk program S.resetScratch).get h = .ok (if s.scratch then t.bottom else v) := by
  obtain ⟨hprogram, s', hs', hread⟩ := Facts.get_eq_ok.1 hv
  obtain rfl := Option.some.inj (hs.symm.trans hs')
  obtain ⟨htype, rfl⟩ := Slot.valueAs_eq_ok.1 hread
  subst htype
  have hreset : S.resetScratch[h.id.slot]? = some (if s.scratch then s.reset else s) := by
    rw [Store.resetScratch, List.getElem?_map, hs, Option.map_some]
  refine Facts.get_eq_ok.2 ⟨hprogram, _, hreset, Slot.valueAs_eq_ok.2 ?_⟩
  by_cases hscratch : s.scratch
  · rw [if_pos hscratch, if_pos hscratch]
    exact ⟨rfl, rfl⟩
  · rw [if_neg hscratch, if_neg hscratch]
    exact ⟨rfl, rfl⟩

/-! ## Deposits -/

/-- A deposit assigns what the write makes of the value that is there. -/
theorem deposit_eq {x : Write} {h : Handle x.type} {v : x.type.Value}
    (hv : (Facts.mk program S).get h = .ok v) :
    S.deposit program ⟨h.id.slot, x⟩ =
      (liftConflict (x.applyTo v)).map fun r => (S.assign h r.1, r.2) := by
  obtain ⟨_, s, hs, hread⟩ := Facts.get_eq_ok.1 hv
  obtain ⟨htype, rfl⟩ := Slot.valueAs_eq_ok.1 hread
  have happly : s.apply x = (liftConflict (x.applyTo (htype ▸ s.value))).map fun r =>
      (s.assign x.type r.1, r.2) := by
    unfold Slot.apply Slot.assign
    rw [dif_pos htype]
    cases x.applyTo (htype ▸ s.value) <;> simp [htype, liftConflict, bind, Except.bind, Except.map,
      pure, Except.pure]
  -- assigning through a handle replaces the slot that it reads
  have hassign : ∀ r : x.type.Value, S.assign h r = S.set h.id.slot (s.assign x.type r) := by
    intro r
    apply List.ext_getElem?
    intro i
    by_cases hi : h.id.slot = i
    · subst hi
      obtain ⟨hlt, _⟩ := List.getElem?_eq_some_iff.1 hs
      rw [Store.assign, List.getElem?_modify_eq, hs, List.getElem?_set_self hlt]
      rfl
    · rw [Store.assign, List.getElem?_modify_ne _ _ hi, List.getElem?_set_ne hi]
  unfold Store.deposit
  rw [hs]
  dsimp only
  rw [happly]
  cases x.applyTo (htype ▸ s.value) with
  | error conflict => rfl
  | ok r => simp [liftConflict, bind, Except.bind, Except.map, pure, Except.pure, hassign]

theorem deposit_add_eq_ok {tuple : t.Tuple} {grew : Bool}
    (hv : (Facts.mk program S).get h = .ok v) :
    S.deposit program ⟨h.id.slot, .add t tuple⟩ = .ok (T, grew) ↔
      ∃ r, Relation.add v tuple = .ok r ∧ T = S.assign h r.1 ∧ grew = r.2 := by
  have hdeposit := deposit_eq (x := .add t tuple) hv
  rw [hdeposit]
  change (liftConflict (Relation.add v tuple)).map _ = _ ↔ _
  cases hadd : Relation.add v tuple with
  | error conflict => simp [liftConflict, Except.map]
  | ok r =>
      constructor
      · intro heq
        cases heq
        exact ⟨r, rfl, rfl, rfl⟩
      · rintro ⟨_, heq, rfl, rfl⟩
        cases heq
        rfl

/-- Deposits of facts add them to the relation, one after the other. -/
theorem depositAll_add {tuples : List t.Tuple} (hv : (Facts.mk program S).get h = .ok v) :
    (∃ count, S.depositAll program (tuples.map fun x => ⟨h.id.slot, .add t x⟩) = .ok (T, count)) ↔
      ∃ w, Relation.addAll v tuples = .ok w ∧ T = S.assign h w := by
  induction tuples generalizing S v with
  | nil =>
      constructor
      · rintro ⟨count, heq⟩
        cases heq
        exact ⟨v, rfl, (assign_of_get hv).symm⟩
      · rintro ⟨w, heq, rfl⟩
        obtain rfl := Relation.addAll_nil.1 heq
        exact ⟨0, by rw [assign_of_get hv]; rfl⟩
  | cons tuple tuples ih =>
      constructor
      · rintro ⟨count, hall⟩
        obtain ⟨R, grew, rest, hdeposit, hrest, _⟩ := Store.depositAll_cons hall
        obtain ⟨r, hr, rfl, _⟩ := (deposit_add_eq_ok hv).1 hdeposit
        obtain ⟨w, hw, rfl⟩ := (ih (get_assign_self hv)).1 ⟨rest, hrest⟩
        exact ⟨w, Relation.addAll_cons.2 ⟨r, hr, hw⟩, assign_assign⟩
      · rintro ⟨w, hw, rfl⟩
        obtain ⟨r, hr, hw⟩ := Relation.addAll_cons.1 hw
        have hdeposit := (deposit_add_eq_ok hv).2 ⟨r, hr, rfl, rfl⟩
        obtain ⟨count, hrest⟩ := (ih (get_assign_self hv)).2 ⟨w, hw, assign_assign.symm⟩
        exact ⟨_, bind_eq_ok.2 ⟨_, hdeposit, bind_eq_ok.2 ⟨_, hrest, rfl⟩⟩⟩

/-- A deposit of a whole relation joins it. -/
theorem deposit_merge {b c : t.Value} (hv : (Facts.mk program S).get h = .ok v)
    (hjoin : Lattice.join v b = .ok c) :
    ∃ grew, S.deposit program ⟨h.id.slot, .merge t b⟩ = .ok (S.assign h c, grew) := by
  obtain ⟨grew, hmerge⟩ := (LawfulLattice.exactMerge b).exists_merge hjoin
  have hdeposit := deposit_eq (x := .merge t b) hv
  refine ⟨grew, hdeposit.trans ?_⟩
  change (liftConflict (Lattice.merge v b)).map _ = _
  rw [hmerge]
  rfl

/-! ## Deposits into sets -/

/-- What a write puts into a set of facts of one type. -/
def Write.factsOf (f : FactType) : Write → List f.Carrier
  | .add (.set g) x => if h : g = f then [h ▸ x] else []
  | .merge (.set g) xs => if h : g = f then h ▸ xs.elements else []
  | _ => []

theorem Write.factsOf_add {f : FactType} (x : f.Carrier) :
    (Write.add (.set f) x).factsOf f = [x] := dif_pos rfl

theorem Write.factsOf_merge {f : FactType} (xs : GrowSet f.Carrier) :
    (Write.merge (.set f) xs).factsOf f = xs.elements := dif_pos rfl

theorem Store.type_of_deposit {d : Deposit} {grew : Bool}
    (hv : (Facts.mk program S).get h = .ok v) (hslot : d.slot = h.id.slot)
    (hdeposit : S.deposit program d = .ok (T, grew)) : t = d.write.type := by
  obtain ⟨_, s, hs, hread⟩ := Facts.get_eq_ok.1 hv
  obtain ⟨htype, _⟩ := Slot.valueAs_eq_ok.1 hread
  obtain ⟨s', _, hs', happly, _⟩ := Store.deposit_eq_ok hdeposit
  rw [hslot, hs] at hs'
  obtain rfl := Option.some.inj hs'
  unfold Slot.apply at happly
  split at happly
  · next heq => exact htype.symm.trans heq
  · cases happly

theorem get_of_deposit_of_ne {d : Deposit} {grew : Bool} (hne : d.slot ≠ h.id.slot)
    (hdeposit : S.deposit program d = .ok (T, grew)) :
    (Facts.mk program T).get h = (Facts.mk program S).get h :=
  Facts.get_congr (Store.getElem?_of_deposit hne hdeposit)

theorem get_of_depositAll_of_ne {ds : List Deposit} {count : Nat}
    (hne : ∀ d ∈ ds, d.slot ≠ h.id.slot) (hall : S.depositAll program ds = .ok (T, count)) :
    (Facts.mk program T).get h = (Facts.mk program S).get h :=
  Facts.get_congr (Store.getElem?_of_depositAll hne hall)

section Sets

variable {f : FactType} {h : Handle (.set f)} {v : GrowSet f.Carrier}

theorem exists_get_of_deposit {d : Deposit} {grew : Bool}
    (hv : (Facts.mk program S).get h = .ok v)
    (hdeposit : S.deposit program d = .ok (T, grew)) :
    ∃ w, (Facts.mk program T).get h = .ok w ∧
      ∀ x, x ∈ w ↔ x ∈ v ∨ d.slot = h.id.slot ∧ x ∈ d.write.factsOf f := by
  by_cases hslot : d.slot = h.id.slot
  · obtain ⟨slot, write⟩ := d
    have htype : .set f = write.type := Store.type_of_deposit hv hslot hdeposit
    dsimp only at hslot
    subst hslot
    cases write with
    | add g x =>
        change _ = g at htype
        subst htype
        obtain ⟨r, hr, rfl, _⟩ := (deposit_add_eq_ok hv).1 hdeposit
        obtain rfl := Except.ok.inj hr
        refine ⟨_, get_assign_self hv, ?_⟩
        intro y
        rw [Write.factsOf_add, List.mem_singleton]
        refine GrowSet.mem_insert.trans ?_
        simp [or_comm]
    | merge g xs =>
        change _ = g at htype
        subst htype
        obtain ⟨_, hmerge⟩ := deposit_merge (b := xs) hv rfl
        obtain ⟨rfl, _⟩ := Prod.mk.inj (Except.ok.inj (hmerge.symm.trans hdeposit))
        refine ⟨_, get_assign_self hv, ?_⟩
        intro y
        rw [Write.factsOf_merge]
        refine GrowSet.mem_union.trans ?_
        simp [Membership.mem]
  · rw [get_of_deposit_of_ne hslot hdeposit]
    exact ⟨v, hv, fun x => by simp [hslot]⟩

/-- Deposits into a set put in what their writes have for it. -/
theorem exists_get_of_depositAll {ds : List Deposit} {count : Nat}
    (hv : (Facts.mk program S).get h = .ok v)
    (hall : S.depositAll program ds = .ok (T, count)) :
    ∃ w, (Facts.mk program T).get h = .ok w ∧
      ∀ x, x ∈ w ↔ x ∈ v ∨ ∃ d ∈ ds, d.slot = h.id.slot ∧ x ∈ d.write.factsOf f := by
  induction ds generalizing S v count with
  | nil =>
      cases hall
      exact ⟨v, hv, fun x => by simp⟩
  | cons d ds ih =>
      obtain ⟨R, grew, rest, hdeposit, hrest, _⟩ := Store.depositAll_cons hall
      obtain ⟨u, hu, hmem⟩ := exists_get_of_deposit hv hdeposit
      obtain ⟨w, hw, hmem'⟩ := ih hu hrest
      refine ⟨w, hw, ?_⟩
      intro x
      rw [hmem', hmem, or_assoc]
      simp

end Sets

/-! ## Rules -/

variable {ρ α : Type} {source : Source ρ} {select : Facts → ρ → Except Fault (Option α)}
  {facts : Facts} {r : Rule}

/-- What a selector gives for the rows of a source. -/
def Source.selected (source : Source ρ) (select : Facts → ρ → Except Fault (Option α))
    (facts : Facts) : Except Fault (List α) := do
  let outcomes ← (← source.rows facts).mapM (select facts)
  return outcomes.filterMap id

theorem mem_selected {xs : List α} (hxs : source.selected select facts = .ok xs) {x : α} :
    x ∈ xs ↔ ∃ rows, source.rows facts = .ok rows ∧
      ∃ row ∈ rows, select facts row = .ok (some x) := by
  obtain ⟨rows, hrows, hxs⟩ := bind_eq_ok.1 hxs
  obtain ⟨outcomes, houtcomes, heq⟩ := bind_eq_ok.1 hxs
  cases heq
  rw [List.mem_filterMap]
  constructor
  · rintro ⟨o, ho, rfl⟩
    exact ⟨rows, hrows, (mem_of_mapM_eq_ok houtcomes).1 ho⟩
  · rintro ⟨rows', hrows', hrow⟩
    obtain rfl := Except.ok.inj (hrows.symm.trans hrows')
    exact ⟨some x, (mem_of_mapM_eq_ok houtcomes).2 hrow, rfl⟩

/-- The rows of a relation are its tuples. -/
theorem Source.rows_of (hv : facts.get h = .ok v) :
    (Source.of h).rows facts = .ok (Relation.tuples v) := by
  simp [Source.of, Facts.tuples, hv, bind, Except.bind, pure, Except.pure]

/-- The rows of a product start with rows of its first source. -/
theorem Source.exists_of_mem_product {σ : Type} {other : Source σ} {rows : List (ρ × σ)}
    {row : ρ × σ} (hrows : (source.product other).rows facts = .ok rows) (hrow : row ∈ rows) :
    ∃ firsts, source.rows facts = .ok firsts ∧ row.1 ∈ firsts := by
  obtain ⟨firsts, hfirsts, hrows⟩ := bind_eq_ok.1 hrows
  obtain ⟨seconds, _, heq⟩ := bind_eq_ok.1 hrows
  cases heq
  obtain ⟨first, hfirst, hrow⟩ := List.mem_flatMap.1 hrow
  obtain ⟨second, _, rfl⟩ := List.mem_map.1 hrow
  exact ⟨firsts, hfirsts, hfirst⟩

/-- A selector that does not break off for any row gives facts. -/
theorem exists_selected {rows : List ρ} (hrows : source.rows facts = .ok rows)
    (hselect : ∀ row ∈ rows, ∃ o, select facts row = .ok o) :
    ∃ xs, source.selected select facts = .ok xs := by
  obtain ⟨outcomes, houtcomes⟩ := exists_mapM_eq_ok hselect
  exact ⟨_, bind_eq_ok.2 ⟨rows, hrows, bind_eq_ok.2 ⟨outcomes, houtcomes, rfl⟩⟩⟩

/-- A selector that never breaks off gives what it gives for each row. -/
theorem selected_of_forall {f : ρ → Option α} {rows : List ρ} (hrows : source.rows facts = .ok rows)
    (hf : ∀ row, select facts row = .ok (f row)) :
    source.selected select facts = .ok (rows.filterMap f) := by
  have hmapM : rows.mapM (select facts) = .ok (rows.map f) := by
    clear hrows
    induction rows with
    | nil => rfl
    | cons row rows ih =>
        rw [List.mapM_cons, hf, ih]
        rfl
  unfold Source.selected
  rw [hrows]
  simp only [bind, Except.bind, hmapM, pure, Except.pure, List.filterMap_map, Function.id_comp]

/-- A rule without sources is evaluated once. -/
theorem selected_unit {select : Facts → Unit → Except Fault (Option α)} {out : Option α}
    (hout : select facts () = .ok out) :
    Source.unit.selected select facts = .ok out.toList := by
  unfold Source.selected Source.unit
  simp only [bind, Except.bind, List.mapM_cons, List.mapM_nil, hout, pure, Except.pure]
  cases out <;> rfl

/-- The selector of a rule that writes facts or relations, from what is to be written. -/
def writing (write : α → Write) (select : Facts → ρ → Except Fault (Option α)) (facts : Facts)
    (row : ρ) : Except Fault (Option Write) := do
  return (← select facts row).map write

/-- A rule writes what its selector gives. -/
theorem selectRows_writing {write : α → Write} :
    Rule.selectRows source (writing write select) facts =
      (source.selected select facts).map (List.map write) := by
  -- row by row, as a fault of one row must break off at the same place
  have hmapM : ∀ rows : List ρ, rows.mapM (writing write select facts) =
      (rows.mapM (select facts)).map (List.map (Option.map write)) := by
    intro rows
    induction rows with
    | nil => rfl
    | cons row rows ih =>
        rw [List.mapM_cons, List.mapM_cons, ih, writing]
        cases select facts row with
        | error fault => rfl
        | ok o => cases rows.mapM (select facts) <;> rfl
  unfold Rule.selectRows Source.selected
  cases source.rows facts with
  | error fault => rfl
  | ok rows =>
      simp only [bind, Except.bind, hmapM]
      cases houtcomes : rows.mapM (select facts) with
      | error fault => rfl
      | ok outcomes =>
          simp [Except.map, pure, Except.pure, List.map_filterMap, List.filterMap_map]

theorem Rule.consequences_eq {write : α → Write}
    (hr : r.evaluate = selectRows source (writing write select)) :
    r.consequences facts =
      (source.selected select facts).map (List.map fun x => ⟨r.target, write x⟩) := by
  unfold consequences
  rw [hr, selectRows_writing]
  cases source.selected select facts with
  | error fault => rfl
  | ok xs => simp [bind, Except.bind, Except.map, pure, Except.pure, Function.comp_def]

/-- A rule that adds facts assigns to its target what they make of it. -/
theorem Rule.fire_join {select : Facts → ρ → Except Fault (Option t.Tuple)}
    (hr : r.evaluate = selectRows source (writing (.add t) select))
    (htarget : r.target = h.id.slot) (hv : (Facts.mk program S).get h = .ok v) :
    r.fire program S = .ok T ↔ ∃ xs w, source.selected select ⟨program, S⟩ = .ok xs ∧
      Relation.addAll v xs = .ok w ∧ T = S.assign h w := by
  rw [fire_eq_ok, consequences_eq hr, htarget]
  constructor
  · rintro ⟨ds, count, hds, hall⟩
    cases hxs : source.selected select ⟨program, S⟩ with
    | error fault => rw [hxs] at hds; cases hds
    | ok xs =>
        rw [hxs] at hds
        cases hds
        obtain ⟨w, hw, hT⟩ := (depositAll_add hv).1 ⟨count, hall⟩
        exact ⟨xs, w, rfl, hw, hT⟩
  · rintro ⟨xs, w, hxs, hw, hT⟩
    obtain ⟨count, hall⟩ := (depositAll_add hv).2 ⟨w, hw, hT⟩
    exact ⟨_, count, by rw [hxs]; rfl, hall⟩

/-- A rule without sources that adds a fact assigns to its target what it makes of it. -/
theorem Rule.fire_join_unit {x : t.Tuple} {grew : Bool}
    {select : Facts → Unit → Except Fault (Option t.Tuple)}
    (hr : r.evaluate = selectRows .unit (writing (.add t) select)) (htarget : r.target = h.id.slot)
    (hv : (Facts.mk program S).get h = .ok v) (hx : select ⟨program, S⟩ () = .ok (some x))
    (hadd : Relation.add v x = .ok (w, grew)) : r.fire program S = .ok (S.assign h w) := by
  refine (fire_join hr htarget hv).2 ⟨[x], w, selected_unit hx, ?_, rfl⟩
  exact Relation.addAll_cons.2 ⟨_, hadd, Relation.addAll_nil.2 rfl⟩

/-- A rule that merges one relation, if any, assigns the join to its target. -/
theorem Rule.fire_joinMerge {select : Facts → Unit → Except Fault (Option t.Value)}
    {out : Option t.Value} (hr : r.evaluate = selectRows .unit (writing (.merge t) select))
    (htarget : r.target = h.id.slot) (hv : (Facts.mk program S).get h = .ok v)
    (hout : select ⟨program, S⟩ () = .ok out)
    (hw : (out = none ∧ w = v) ∨ ∃ b, out = some b ∧ Lattice.join v b = .ok w) :
    r.fire program S = .ok (S.assign h w) := by
  have hds : r.consequences ⟨program, S⟩ =
      .ok (out.toList.map fun b => ⟨h.id.slot, .merge t b⟩) := by
    rw [consequences_eq hr, selected_unit hout, htarget]
    rfl
  rcases hw with ⟨rfl, rfl⟩ | ⟨b, rfl, hjoin⟩
  · exact fire_eq_ok.2 ⟨_, 0, hds, by rw [assign_of_get hv]; rfl⟩
  · obtain ⟨grew, hdeposit⟩ := deposit_merge hv hjoin
    exact fire_eq_ok.2 ⟨_, _, hds, bind_eq_ok.2 ⟨_, hdeposit, bind_eq_ok.2 ⟨_, rfl, rfl⟩⟩⟩

end Ratchet

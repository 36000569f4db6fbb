import Ratchet.Program.Setup
import Ratchet.Program.Tick
import Ratchet.Proofs.Program.Order

/-!
# Ticks and least fixpoints

Firing a rule means evaluating it and making the deposits that it asks for.  A rule is *monotone* if
firing it on a greater store never gives less.  A store is *closed* under a rule if firing the rule
gives the store back.

Every pass moves up, and a pass that reports no change certifies that the store is closed under all
rules (`pass_growth`, `closed_of_pass`).  If the rules are monotone, then no pass leaves the part of
the order below a closed store (`pass_below_closed`).  A tick stops with the first pass that reports
no change, so what it stops at is closed and below everything closed: the least fixpoint
(`Program.tick_leastClosed`).

The rules fire one after the other, each on what the rules before it left.  Nothing here depends on
that: the only states that are compared are the one before a pass and the one after it.
-/

namespace Ratchet

namespace Rule

/-- The store after evaluating a rule and making the deposits that it asks for. -/
def fire (program : Nat) (r : Rule) (S : Store) : Except Fault Store := do
  let deposits ← r.consequences ⟨program, S⟩
  return (← S.depositAll program deposits).1

/-- Firing the rule adds nothing to the store. -/
def Closed (program : Nat) (r : Rule) (S : Store) : Prop := r.fire program S = .ok S

/-- Firing the rule on a greater store never gives less.  Only the stores with the slots of `frame`
are asked about, and only where firing the rule gives anything at all. -/
def Monotone (program : Nat) (frame : Store) (r : Rule) : Prop :=
  ∀ S S' T T' : Store, frame.SameShape S → S.Below S' → r.fire program S = .ok T →
    r.fire program S' = .ok T' → T.Below T'

variable {r : Rule} {program : Nat} {frame S T U : Store}

/-- All that a rule asks for is meant for its target. -/
theorem slot_of_mem_consequences {facts : Facts} {ds : List Deposit} {d : Deposit}
    (hds : r.consequences facts = .ok ds) (hd : d ∈ ds) : d.slot = r.target := by
  obtain ⟨writes, _, heq⟩ := bind_eq_ok.1 hds
  cases heq
  obtain ⟨w, _, rfl⟩ := List.mem_map.1 hd
  rfl

theorem fire_eq_ok : r.fire program S = .ok T ↔ ∃ ds count,
    r.consequences ⟨program, S⟩ = .ok ds ∧ S.depositAll program ds = .ok (T, count) := by
  constructor
  · intro h
    obtain ⟨ds, hds, h⟩ := bind_eq_ok.1 h
    obtain ⟨⟨T', count⟩, hall, heq⟩ := bind_eq_ok.1 h
    cases heq
    exact ⟨ds, count, hds, hall⟩
  · rintro ⟨ds, count, hds, hall⟩
    exact bind_eq_ok.2 ⟨ds, hds, bind_eq_ok.2 ⟨(T, count), hall, rfl⟩⟩

theorem below_of_fire (h : r.fire program S = .ok T) : S.Below T := by
  obtain ⟨ds, count, _, hall⟩ := fire_eq_ok.1 h
  exact (Store.depositAll_least hall).1

/-- A store is closed under a rule if it holds everything that the rule asks for. -/
theorem closed_iff :
    r.Closed program S ↔ ∃ ds, r.consequences ⟨program, S⟩ = .ok ds ∧ ∀ d ∈ ds, d.Held S := by
  constructor
  · intro h
    obtain ⟨ds, count, hds, hall⟩ := fire_eq_ok.1 h
    exact ⟨ds, hds, (Store.depositAll_least hall).2.1⟩
  · rintro ⟨ds, hds, hheld⟩
    obtain ⟨T, count, hall⟩ := Store.exists_depositAll program S.below_refl hheld
    obtain ⟨hST, _, hleast, _⟩ := Store.depositAll_least hall
    obtain rfl := (hleast S S.below_refl hheld).antisymm hST
    exact fire_eq_ok.2 ⟨ds, count, hds, hall⟩

theorem Monotone.below_of_closed (hmono : r.Monotone program frame) (hS : frame.SameShape S)
    (hSU : S.Below U) (hU : r.Closed program U) (h : r.fire program S = .ok T) : T.Below U :=
  hmono S U T U hS hSU h hU

/-- A rule that asks for more on greater stores is monotone. -/
theorem monotone_of_subset
    (h : ∀ S S' ds ds', frame.SameShape S → S.Below S' → r.consequences ⟨program, S⟩ = .ok ds →
      r.consequences ⟨program, S'⟩ = .ok ds' → ∀ d ∈ ds, d ∈ ds') : r.Monotone program frame := by
  intro S S' T T' hS hSS' hT hT'
  obtain ⟨ds, count, hds, hall⟩ := fire_eq_ok.1 hT
  obtain ⟨ds', count', hds', hall'⟩ := fire_eq_ok.1 hT'
  obtain ⟨_, _, hleast, _⟩ := Store.depositAll_least hall
  obtain ⟨habove, hheld, _⟩ := Store.depositAll_least hall'
  exact hleast T' (hSS'.trans habove) fun d hd =>
    hheld d (h S S' ds ds' hS hSS' hds hds' d hd)

end Rule

/-! ## Joins of sets

Most rules join sets, and look at nothing but the rows that they are given.  They are monotone. -/

namespace Source

variable {ρ σ : Type} {program : Nat} {a : Source ρ} {b : Source σ}

/-- The rows of the source stay when the store grows. -/
def Grows (program : Nat) (a : Source ρ) : Prop :=
  ∀ (S S' : Store) (rows rows' : List ρ), S.Below S' → a.rows ⟨program, S⟩ = .ok rows →
    a.rows ⟨program, S'⟩ = .ok rows' → ∀ row ∈ rows, row ∈ rows'

theorem grows_of {facts : FactType} (h : Handle (.set facts)) : (of h).Grows program := by
  intro S S' rows rows' hSS' hrows hrows' row hrow
  obtain ⟨value, hvalue, heq⟩ := bind_eq_ok.1 hrows
  obtain ⟨value', hvalue', heq'⟩ := bind_eq_ok.1 hrows'
  cases heq
  cases heq'
  obtain ⟨greater, hgreater, hbelow⟩ := Facts.exists_get hSS' hvalue
  obtain rfl : value' = greater := Except.ok.inj (hvalue'.symm.trans hgreater)
  have hunion : value.union value' = value' := Except.ok.inj hbelow
  rw [← hunion]
  exact GrowSet.mem_union.2 (.inl hrow)

theorem Grows.product (ha : a.Grows program) (hb : b.Grows program) :
    (a.product b).Grows program := by
  intro S S' rows rows' hSS' hrows hrows' row hrow
  obtain ⟨as, has, hrows⟩ := bind_eq_ok.1 hrows
  obtain ⟨bs, hbs, heq⟩ := bind_eq_ok.1 hrows
  obtain ⟨as', has', hrows'⟩ := bind_eq_ok.1 hrows'
  obtain ⟨bs', hbs', heq'⟩ := bind_eq_ok.1 hrows'
  cases heq
  cases heq'
  obtain ⟨x, hx, hrow⟩ := List.mem_flatMap.1 hrow
  obtain ⟨y, hy, rfl⟩ := List.mem_map.1 hrow
  exact List.mem_flatMap.2 ⟨x, ha S S' as as' hSS' has has' x hx,
    List.mem_map.2 ⟨y, hb S S' bs bs' hSS' hbs hbs' y hy, rfl⟩⟩

end Source

/-- A rule is monotone if its rows stay and its selector does not look at the store. -/
theorem Rule.monotone_of_grows {ρ : Type} {source : Source ρ} {r : Rule} {program : Nat}
    {frame : Store} (hsource : source.Grows program) (select : ρ → Except Fault (Option Write))
    (hr : r.evaluate = selectRows source fun _ => select) : r.Monotone program frame := by
  apply monotone_of_subset
  intro S S' ds ds' _ hSS' hds hds' d hd
  unfold consequences at hds hds'
  rw [hr] at hds hds'
  obtain ⟨ws, hws, heq⟩ := bind_eq_ok.1 hds
  obtain ⟨ws', hws', heq'⟩ := bind_eq_ok.1 hds'
  cases heq
  cases heq'
  obtain ⟨rows, hrows, hws⟩ := bind_eq_ok.1 hws
  obtain ⟨outcomes, houtcomes, heq⟩ := bind_eq_ok.1 hws
  obtain ⟨rows', hrows', hws'⟩ := bind_eq_ok.1 hws'
  obtain ⟨outcomes', houtcomes', heq'⟩ := bind_eq_ok.1 hws'
  cases heq
  cases heq'
  -- the row that a write comes from is still there, and selects the same
  obtain ⟨w, hw, rfl⟩ := List.mem_map.1 hd
  obtain ⟨o, ho, how⟩ := List.mem_filterMap.1 hw
  obtain ⟨row, hrow, hselect⟩ := (mem_of_mapM_eq_ok houtcomes).1 ho
  have hrow' : row ∈ rows' := hsource S S' rows rows' hSS' hrows hrows' row hrow
  have ho' : o ∈ outcomes' := (mem_of_mapM_eq_ok houtcomes').2 ⟨row, hrow', hselect⟩
  exact List.mem_map.2 ⟨w, List.mem_filterMap.2 ⟨o, ho', how⟩, rfl⟩

/-! ## One pass -/

variable {program : Nat} {r : Rule} {rs : List Rule} {frame S T U : Store} {changed : Bool}

theorem pass_cons (h : pass program (r :: rs) S = .ok (U, changed)) :
    ∃ (T : Store) (more : Bool), r.fire program S = .ok T ∧ pass program rs T = .ok (U, more) ∧
      (changed = true ↔ T ≠ S ∨ more = true) := by
  obtain ⟨ds, hds, h⟩ := bind_eq_ok.1 h
  obtain ⟨⟨T, count⟩, hall, h⟩ := bind_eq_ok.1 h
  obtain ⟨⟨V, more⟩, hpass, heq⟩ := bind_eq_ok.1 h
  cases heq
  refine ⟨T, more, Rule.fire_eq_ok.2 ⟨ds, count, hds, hall⟩, hpass, ?_⟩
  rw [Bool.or_eq_true, decide_eq_true_iff, (Store.depositAll_least hall).2.2.2]

theorem exists_pass_cons {more : Bool} (hfire : r.fire program S = .ok T)
    (hpass : pass program rs T = .ok (U, more)) :
    ∃ changed, pass program (r :: rs) S = .ok (U, changed) := by
  obtain ⟨ds, count, hds, hall⟩ := Rule.fire_eq_ok.1 hfire
  exact ⟨_, bind_eq_ok.2 ⟨ds, hds, bind_eq_ok.2 ⟨_, hall, bind_eq_ok.2 ⟨_, hpass, rfl⟩⟩⟩⟩

theorem pass_append {rs' : List Rule} (h : pass program (rs ++ rs') S = .ok (U, changed)) :
    ∃ T mid more, pass program rs S = .ok (T, mid) ∧ pass program rs' T = .ok (U, more) := by
  induction rs generalizing S changed with
  | nil => exact ⟨S, false, changed, rfl, h⟩
  | cons r rs ih =>
      obtain ⟨R, rest, hfire, hpass, _⟩ := pass_cons h
      obtain ⟨T, mid, more, hmid, hmore⟩ := ih hpass
      obtain ⟨mid', hmid'⟩ := exists_pass_cons hfire hmid
      exact ⟨T, mid', more, hmid', hmore⟩

/-- What firing each rule preserves, a pass preserves. -/
theorem of_pass {P : Store → Prop}
    (hP : ∀ r ∈ rs, ∀ S T, P S → r.fire program S = .ok T → P T) (hS : P S)
    (h : pass program rs S = .ok (T, changed)) : P T := by
  induction rs generalizing S changed with
  | nil =>
      cases h
      exact hS
  | cons r rs ih =>
      obtain ⟨R, more, hfire, hpass, _⟩ := pass_cons h
      obtain ⟨hr, hrs⟩ := List.forall_mem_cons.1 hP
      exact ih hrs (hr S R hS hfire) hpass

theorem pass_cons_error {fault : Fault} (h : pass program (r :: rs) S = .error fault) :
    r.fire program S = .error fault ∨
      ∃ T, r.fire program S = .ok T ∧ pass program rs T = .error fault := by
  rcases bind_eq_error.1 h with hds | ⟨ds, hds, h⟩
  · exact .inl (bind_eq_error.2 (.inl hds))
  · rcases bind_eq_error.1 h with hall | ⟨⟨T, count⟩, hall, h⟩
    · exact .inl (bind_eq_error.2 (.inr ⟨ds, hds, bind_eq_error.2 (.inl hall)⟩))
    · rcases bind_eq_error.1 h with hrest | ⟨_, _, heq⟩
      · exact .inr ⟨T, Rule.fire_eq_ok.2 ⟨ds, count, hds, hall⟩, hrest⟩
      · cases heq

/-- A pass breaks off where a rule does. -/
theorem fault_of_pass {P : Store → Prop} {fault : Fault}
    (hP : ∀ r ∈ rs, ∀ S T, P S → r.fire program S = .ok T → P T) (hS : P S)
    (h : pass program rs S = .error fault) :
    ∃ r ∈ rs, ∃ T, P T ∧ r.fire program T = .error fault := by
  induction rs generalizing S with
  | nil => cases h
  | cons r rs ih =>
      obtain ⟨hr, hrs⟩ := List.forall_mem_cons.1 hP
      rcases pass_cons_error h with hfire | ⟨R, hfire, hrest⟩
      · exact ⟨r, List.mem_cons_self, S, hS, hfire⟩
      · obtain ⟨r', hr', T, hT, hfault⟩ := ih hrs (hr S R hS hfire) hrest
        exact ⟨r', List.mem_cons_of_mem _ hr', T, hT, hfault⟩

/-- A pass moves up, and reports a change just if it moves. -/
theorem pass_growth (h : pass program rs S = .ok (T, changed)) :
    S.Below T ∧ (changed = true ↔ T ≠ S) := by
  induction rs generalizing S changed with
  | nil =>
      cases h
      exact ⟨Store.below_refl _, by simp⟩
  | cons r rs ih =>
      obtain ⟨R, more, hfire, hpass, hchanged⟩ := pass_cons h
      have hSR := Rule.below_of_fire hfire
      obtain ⟨hRT, hmore⟩ := ih hpass
      refine ⟨hSR.trans hRT, ?_⟩
      rw [hchanged, hmore]
      constructor
      · rintro hne rfl
        obtain rfl := hSR.antisymm hRT
        exact hne.elim (fun h => h rfl) fun h => h rfl
      · intro hne
        by_cases hRS : R = S
        · subst hRS
          exact .inr hne
        · exact .inl hRS

/-- A pass without a change leaves a store that is closed under every rule. -/
theorem closed_of_pass (h : pass program rs S = .ok (T, false)) :
    T = S ∧ ∀ r ∈ rs, r.Closed program S := by
  induction rs generalizing S with
  | nil =>
      cases h
      exact ⟨rfl, nofun⟩
  | cons r rs ih =>
      obtain ⟨R, more, hfire, hpass, hchanged⟩ := pass_cons h
      have hsame : R = S ∧ more = false := by simpa using hchanged
      obtain ⟨rfl, rfl⟩ := hsame
      obtain ⟨hTR, hclosed⟩ := ih hpass
      exact ⟨hTR, List.forall_mem_cons.2 ⟨hfire, hclosed⟩⟩

/-- A pass over a store that is closed under every rule changes nothing. -/
theorem pass_of_closed (h : ∀ r ∈ rs, r.Closed program S) :
    pass program rs S = .ok (S, false) := by
  induction rs with
  | nil => rfl
  | cons r rs ih =>
      obtain ⟨hr, hrs⟩ := List.forall_mem_cons.1 h
      obtain ⟨ds, count, hds, hall⟩ := Rule.fire_eq_ok.1 hr
      have hcount : count = 0 := by
        have hgrew := (Store.depositAll_least hall).2.2.2
        simpa using hgrew
      subst hcount
      exact bind_eq_ok.2 ⟨ds, hds, bind_eq_ok.2 ⟨_, hall, bind_eq_ok.2 ⟨_, ih hrs, rfl⟩⟩⟩

/-- A pass of monotone rules stays below every closed store that is above its start. -/
theorem pass_below_closed (hmono : ∀ r ∈ rs, r.Monotone program frame) (hS : frame.SameShape S)
    (hSU : S.Below U) (hU : ∀ r ∈ rs, r.Closed program U)
    (h : pass program rs S = .ok (T, changed)) : T.Below U := by
  induction rs generalizing S changed with
  | nil =>
      cases h
      exact hSU
  | cons r rs ih =>
      obtain ⟨R, more, hfire, hpass, _⟩ := pass_cons h
      obtain ⟨hmonor, hmonors⟩ := List.forall_mem_cons.1 hmono
      obtain ⟨hUr, hUrs⟩ := List.forall_mem_cons.1 hU
      have hRU : R.Below U := hmonor.below_of_closed hS hSU hUr hfire
      have hR : frame.SameShape R := hS.trans (Rule.below_of_fire hfire).sameShape
      exact ih hmonors hR hRU hUrs hpass

/-- A pass of monotone rules from a greater store never gives less. -/
theorem pass_mono {changed changed' : Bool} (hmono : ∀ r ∈ rs, r.Monotone program frame)
    (hS : frame.SameShape S) (hSU : S.Below U) (hT : pass program rs S = .ok (T, changed))
    (hV : pass program rs U = .ok (V, changed')) : T.Below V := by
  induction rs generalizing S U changed changed' with
  | nil =>
      cases hT
      cases hV
      exact hSU
  | cons r rs ih =>
      obtain ⟨R, _, hfire, hpass, _⟩ := pass_cons hT
      obtain ⟨W, _, hfire', hpass', _⟩ := pass_cons hV
      obtain ⟨hmonor, hmonors⟩ := List.forall_mem_cons.1 hmono
      have hR : frame.SameShape R := hS.trans (Rule.below_of_fire hfire).sameShape
      exact ih hmonors hR (hmonor S U R W hS hSU hfire hfire') hpass hpass'

/-! ## All passes of a tick -/

/-- The store after a number of passes, whatever they report. -/
def passes (program : Nat) (rules : List Rule) : Nat → Store → Except Fault Store
  | 0, S => .ok S
  | n + 1, S => do passes program rules n (← pass program rules S).1

theorem passes_succ {n : Nat} : passes program rs (n + 1) S = .ok U ↔
    ∃ T changed, pass program rs S = .ok (T, changed) ∧ passes program rs n T = .ok U := by
  refine bind_eq_ok.trans ⟨?_, ?_⟩
  · rintro ⟨⟨T, changed⟩, hpass, hrest⟩
    exact ⟨T, changed, hpass, hrest⟩
  · rintro ⟨T, changed, hpass, hrest⟩
    exact ⟨(T, changed), hpass, hrest⟩

theorem passes_add {m n : Nat} : passes program rs (m + n) S = .ok U ↔
    ∃ T, passes program rs m S = .ok T ∧ passes program rs n T = .ok U := by
  induction m generalizing S with
  | zero =>
      rw [Nat.zero_add]
      exact ⟨fun h => ⟨S, rfl, h⟩, by rintro ⟨T, ⟨⟩, h⟩; exact h⟩
  | succ m ih =>
      rw [Nat.succ_add, passes_succ]
      constructor
      · rintro ⟨R, changed, hpass, hrest⟩
        obtain ⟨T, hm, hn⟩ := ih.1 hrest
        exact ⟨T, passes_succ.2 ⟨R, changed, hpass, hm⟩, hn⟩
      · rintro ⟨T, hm, hn⟩
        obtain ⟨R, changed, hpass, hm⟩ := passes_succ.1 hm
        exact ⟨R, changed, hpass, ih.2 ⟨T, hm, hn⟩⟩

/-- What a pass preserves, a number of passes preserve. -/
theorem of_passes {P : Store → Prop} {n : Nat}
    (hP : ∀ S T changed, P S → pass program rs S = .ok (T, changed) → P T) (hS : P S)
    (h : passes program rs n S = .ok T) : P T := by
  induction n generalizing S with
  | zero =>
      cases h
      exact hS
  | succ n ih =>
      obtain ⟨R, changed, hpass, hrest⟩ := passes_succ.1 h
      exact ih (hP S R changed hS hpass) hrest

/-- A relation that is not the target of a rule is not changed by passes. -/
theorem getElem?_of_passes {i n : Nat} (hrules : ∀ r ∈ rs, r.target ≠ i)
    (h : passes program rs n S = .ok T) : T[i]? = S[i]? := by
  have hfire : ∀ r ∈ rs, ∀ U V : Store, U[i]? = S[i]? → r.fire program U = .ok V →
      V[i]? = S[i]? := by
    intro r hr U V hU hV
    obtain ⟨ds, count, hds, hall⟩ := Rule.fire_eq_ok.1 hV
    have hne : ∀ d ∈ ds, d.slot ≠ i := fun d hd =>
      Rule.slot_of_mem_consequences hds hd ▸ hrules r hr
    rw [Store.getElem?_of_depositAll hne hall, hU]
  exact of_passes (P := fun U => U[i]? = S[i]?) (fun _ _ _ hU => of_pass hfire hU) rfl h

theorem below_of_passes {n : Nat} (h : passes program rs n S = .ok T) : S.Below T := by
  induction n generalizing S with
  | zero =>
      cases h
      exact T.below_refl
  | succ n ih =>
      obtain ⟨R, changed, hpass, hrest⟩ := passes_succ.1 h
      exact (pass_growth hpass).1.trans (ih hrest)

theorem passes_below_closed {n : Nat} (hmono : ∀ r ∈ rs, r.Monotone program frame)
    (hS : frame.SameShape S) (hSU : S.Below U) (hU : ∀ r ∈ rs, r.Closed program U)
    (h : passes program rs n S = .ok T) : T.Below U := by
  induction n generalizing S with
  | zero =>
      cases h
      exact hSU
  | succ n ih =>
      obtain ⟨R, changed, hpass, hrest⟩ := passes_succ.1 h
      have hR : frame.SameShape R := hS.trans (pass_growth hpass).1.sameShape
      exact ih hR (pass_below_closed hmono hS hSU hU hpass) hrest

theorem passes_mono {n : Nat} (hmono : ∀ r ∈ rs, r.Monotone program frame)
    (hS : frame.SameShape S) (hSU : S.Below U) (hT : passes program rs n S = .ok T)
    (hV : passes program rs n U = .ok V) : T.Below V := by
  induction n generalizing S U with
  | zero =>
      cases hT
      cases hV
      exact hSU
  | succ n ih =>
      obtain ⟨R, _, hpass, hrest⟩ := passes_succ.1 hT
      obtain ⟨W, _, hpass', hrest'⟩ := passes_succ.1 hV
      have hR : frame.SameShape R := hS.trans (pass_growth hpass).1.sameShape
      exact ih hR (pass_mono hmono hS hSU hpass hpass') hrest hrest'

theorem passes_of_closed {n : Nat} (h : ∀ r ∈ rs, r.Closed program S) :
    passes program rs n S = .ok S := by
  induction n with
  | zero => rfl
  | succ n ih => exact passes_succ.2 ⟨S, false, pass_of_closed h, ih⟩

/-- The passes of a tick change something up to some number of passes.  After those the store is
closed, unless that number is the limit. -/
theorem settle_eq_ok {limit done : Nat} {result : Settled}
    (h : settle program rs limit done S = .ok result) :
    ∃ n T, passes program rs n S = .ok T ∧
      (∀ m < n, ∃ U V, passes program rs m S = .ok U ∧ pass program rs U = .ok (V, true)) ∧
      ((n < limit ∧ (∀ r ∈ rs, r.Closed program T) ∧ result = .stable T (done + n + 1)) ∨
        (n = limit ∧ result = .unstable T)) := by
  induction limit generalizing S done with
  | zero =>
      cases h
      exact ⟨0, S, rfl, nofun, .inr ⟨rfl, rfl⟩⟩
  | succ limit ih =>
      obtain ⟨⟨R, changed⟩, hpass, h⟩ := bind_eq_ok.1 h
      cases changed with
      | false =>
          cases h
          obtain ⟨rfl, hclosed⟩ := closed_of_pass hpass
          exact ⟨0, R, rfl, nofun, .inl ⟨Nat.succ_pos limit, hclosed, rfl⟩⟩
      | true =>
          obtain ⟨n, T, hn, hchanging, hend⟩ := ih h
          refine ⟨n + 1, T, passes_succ.2 ⟨R, true, hpass, hn⟩, ?_, ?_⟩
          · -- the first pass changed something, and so did the later ones
            intro m hm
            cases m with
            | zero => exact ⟨S, R, rfl, hpass⟩
            | succ m =>
                obtain ⟨U, V, hU, hV⟩ := hchanging m (by omega)
                exact ⟨U, V, passes_succ.2 ⟨R, true, hpass, hU⟩, hV⟩
          · rcases hend with ⟨hlt, hclosed, rfl⟩ | ⟨rfl, rfl⟩
            · refine .inl ⟨by omega, hclosed, ?_⟩
              rw [show done + 1 + n + 1 = done + (n + 1) + 1 by omega]
            · exact .inr ⟨rfl, rfl⟩

/-- Passes settle once they have come to a closed store. -/
theorem exists_settle_of_passes {limit done n : Nat} (hn : passes program rs n S = .ok T)
    (hT : ∀ r ∈ rs, r.Closed program T) (hlimit : n < limit) :
    ∃ count, settle program rs limit done S = .ok (.stable T count) ∧ count ≤ done + n + 1 := by
  induction n generalizing S limit done with
  | zero =>
      obtain ⟨limit, rfl⟩ := Nat.exists_eq_succ_of_ne_zero (Nat.ne_of_gt hlimit)
      cases hn
      refine ⟨done + 1, ?_, Nat.le_refl _⟩
      rw [settle, pass_of_closed hT]
      rfl
  | succ n ih =>
      obtain ⟨limit, rfl⟩ := Nat.exists_eq_succ_of_ne_zero (Nat.ne_zero_of_lt hlimit)
      obtain ⟨R, changed, hpass, hrest⟩ := passes_succ.1 hn
      rw [settle, hpass]
      cases changed with
      | false =>
          -- the store was closed already, and no pass has left it
          obtain ⟨rfl, hclosed⟩ := closed_of_pass hpass
          obtain rfl := Except.ok.inj ((passes_of_closed hclosed).symm.trans hrest)
          exact ⟨done + 1, rfl, by omega⟩
      | true =>
          obtain ⟨count, hsettle, hcount⟩ := ih hrest (Nat.lt_of_succ_lt_succ hlimit)
          exact ⟨count, hsettle, by omega⟩

/-- Settling breaks off where a pass does. -/
theorem fault_of_settle {P : Store → Prop} {fault : Fault} {limit done : Nat}
    (hP : ∀ S T changed, P S → pass program rs S = .ok (T, changed) → P T) (hS : P S)
    (h : settle program rs limit done S = .error fault) :
    ∃ T, P T ∧ pass program rs T = .error fault := by
  induction limit generalizing S done with
  | zero => cases h
  | succ limit ih =>
      rcases bind_eq_error.1 h with hpass | ⟨⟨R, changed⟩, hpass, h⟩
      · exact ⟨S, hS, hpass⟩
      · cases changed with
        | true => exact ih (hP S R true hS hpass) h
        | false => cases h

/-- The store that the passes lead to. -/
def Settled.store : Settled → Store
  | .stable store _ => store
  | .unstable store => store

/-- If the first pass leads to a closed store, then all passes lead there, and one more pass tells
that they settle. -/
theorem exists_settle_of_pass (limit done : Nat) {changed : Bool}
    (hpass : pass program rs S = .ok (U, changed)) (hU : ∀ r ∈ rs, r.Closed program U) :
    ∃ result, settle program rs (limit + 1) done S = .ok result ∧ result.store = U ∧
      (0 < limit → ∃ count, result = .stable U count) := by
  have hsettle : settle program rs (limit + 1) done S =
      if changed then settle program rs limit (done + 1) U else .ok (.stable U (done + 1)) := by
    rw [settle, hpass]
    rfl
  rw [hsettle]
  cases changed with
  | false => exact ⟨_, rfl, rfl, fun _ => ⟨_, rfl⟩⟩
  | true =>
      cases limit with
      | zero => exact ⟨_, rfl, rfl, fun h => absurd h (Nat.lt_irrefl 0)⟩
      | succ limit =>
          refine ⟨.stable U (done + 2), ?_, rfl, fun _ => ⟨_, rfl⟩⟩
          rw [if_pos rfl, settle, pass_of_closed hU]
          rfl

/-- If the first pass leads to a closed store, then the passes settle on that. -/
theorem eq_of_settle_of_pass {limit done count : Nat} {changed : Bool}
    (hpass : pass program rs S = .ok (U, changed)) (hU : ∀ r ∈ rs, r.Closed program U)
    (h : settle program rs limit done S = .ok (.stable T count)) : T = U := by
  cases limit with
  | zero => cases h
  | succ limit =>
      obtain ⟨result, hresult, hstore, _⟩ := exists_settle_of_pass limit done hpass hU
      cases hresult.symm.trans h
      exact hstore

/-- The least store that is above `start` and closed under the rules. -/
structure LeastClosed (program : Nat) (rules : List Rule) (start S : Store) : Prop where
  above : start.Below S
  closed : ∀ r ∈ rules, r.Closed program S
  least : ∀ T, start.Below T → (∀ r ∈ rules, r.Closed program T) → S.Below T

theorem LeastClosed.unique {start : Store} (hS : LeastClosed program rs start S)
    (hT : LeastClosed program rs start T) : S = T :=
  (hS.least T hT.above hT.closed).antisymm (hT.least S hS.above hS.closed)

/-- Passes that end with one that changes nothing end at the least closed store. -/
theorem leastClosed_of_settle {limit done count : Nat}
    (hmono : ∀ r ∈ rs, r.Monotone program frame) (hS : frame.SameShape S)
    (h : settle program rs limit done S = .ok (.stable T count)) :
    LeastClosed program rs S T := by
  obtain ⟨n, T', hn, _, ⟨_, hclosed, heq⟩ | ⟨_, heq⟩⟩ := settle_eq_ok h
  · cases heq
    exact ⟨below_of_passes hn, hclosed, fun U hSU hU => passes_below_closed hmono hS hSU hU hn⟩
  · cases heq

/-- Monotone rules settle on a closed store above their start once that is overtaken: they make at
most one pass more than it takes to get as far. -/
theorem settle_of_overtaken {limit done n : Nat} {result : Settled}
    (hmono : ∀ r ∈ rs, r.Monotone program frame) (hS : frame.SameShape S) (hST : S.Below T)
    (hclosed : ∀ r ∈ rs, r.Closed program T)
    (hover : ∀ U, passes program rs n S = .ok U → T.Below U) (hn : n < limit)
    (h : settle program rs limit done S = .ok result) :
    ∃ count, result = .stable T count ∧ count ≤ done + n + 1 := by
  obtain ⟨m, V, hV, hchanging, hend⟩ := settle_eq_ok h
  have hVT : V.Below T := passes_below_closed hmono hS hST hclosed hV
  -- a pass that still changes something would start at the closed store
  have hle : m ≤ n := by
    apply Nat.le_of_not_lt
    intro hlt
    obtain ⟨U, W, hU, hW⟩ := hchanging n hlt
    obtain rfl := (hover U hU).antisymm (passes_below_closed hmono hS hST hclosed hU)
    cases hW.symm.trans (pass_of_closed hclosed)
  rcases hend with ⟨_, hclosedV, rfl⟩ | ⟨rfl, _⟩
  · -- no pass leaves the store on which they settled
    have hlater : passes program rs n S = .ok V := by
      rw [← Nat.add_sub_cancel' hle]
      exact passes_add.2 ⟨V, hV, passes_of_closed hclosedV⟩
    obtain rfl := (hover V hlater).antisymm hVT
    exact ⟨_, rfl, by omega⟩
  · omega

theorem allConsequences_cons {facts : Facts} {queue : List Deposit} :
    allConsequences facts (r :: rs) = .ok queue ↔ ∃ ds rest, r.consequences facts = .ok ds ∧
      allConsequences facts rs = .ok rest ∧ queue = ds ++ rest := by
  refine bind_eq_ok.trans ⟨?_, ?_⟩
  · rintro ⟨ds, hds, h⟩
    obtain ⟨rest, hrest, heq⟩ := bind_eq_ok.1 h
    cases heq
    exact ⟨ds, rest, hds, hrest, rfl⟩
  · rintro ⟨ds, rest, hds, hrest, rfl⟩
    exact ⟨ds, hds, bind_eq_ok.2 ⟨rest, hrest, rfl⟩⟩

theorem exists_allConsequences {facts : Facts}
    (h : ∀ r ∈ rs, ∃ ds, r.consequences facts = .ok ds) :
    ∃ queue, allConsequences facts rs = .ok queue := by
  induction rs with
  | nil => exact ⟨[], rfl⟩
  | cons r rs ih =>
      obtain ⟨⟨ds, hds⟩, hrs⟩ := List.forall_mem_cons.1 h
      obtain ⟨rest, hrest⟩ := ih hrs
      exact ⟨_, allConsequences_cons.2 ⟨ds, rest, hds, hrest, rfl⟩⟩

theorem mem_of_allConsequences {facts : Facts} {queue : List Deposit} {d : Deposit}
    (h : allConsequences facts rs = .ok queue) (hd : d ∈ queue) :
    ∃ r ∈ rs, ∃ ds, r.consequences facts = .ok ds ∧ d ∈ ds := by
  induction rs generalizing queue with
  | nil =>
      cases h
      cases hd
  | cons r rs ih =>
      obtain ⟨ds, rest, hds, hrest, rfl⟩ := allConsequences_cons.1 h
      rcases List.mem_append.1 hd with hd | hd
      · exact ⟨r, List.mem_cons_self, ds, hds, hd⟩
      · obtain ⟨r', hr', hds'⟩ := ih hrest hd
        exact ⟨r', List.mem_cons_of_mem _ hr', hds'⟩

namespace Program

variable {p q : Program} {patience : Nat} {report : TickReport}

/-- What the four phases of a completed tick do. -/
theorem tick_eq_ok : p.tick patience = .ok (q, .ok report) ↔
    ∃ start applied store count queue,
      p.store.resetScratch.depositAll p.id p.pending = .ok (start, applied) ∧
      settle p.id p.sameTickRules (p.passLimit.getD patience) 0 start =
        .ok (.stable store count) ∧
      allConsequences ⟨p.id, store⟩ p.nextTickRules = .ok queue ∧
      q = { p with store := store, pending := queue, ticks := p.ticks + 1 } ∧
      report = ⟨p.ticks, count, applied, queue.length⟩ := by
  constructor
  · intro h
    obtain ⟨⟨start, applied⟩, hstart, h⟩ := bind_eq_ok.1 h
    obtain ⟨settled, hsettled, h⟩ := bind_eq_ok.1 h
    cases settled with
    | stable store count =>
        obtain ⟨queue, hqueue, heq⟩ := bind_eq_ok.1 h
        cases heq
        exact ⟨start, applied, store, count, queue, hstart, hsettled, hqueue, rfl, rfl⟩
    | unstable store =>
        dsimp only at h
        split at h
        · cases h
        · cases h
  · rintro ⟨start, applied, store, count, queue, hstart, hsettled, hqueue, rfl, rfl⟩
    exact bind_eq_ok.2 ⟨_, hstart, bind_eq_ok.2 ⟨_, hsettled, bind_eq_ok.2 ⟨_, hqueue, rfl⟩⟩⟩

/-- Whether a tick comes to its end within the passes that are waited for. -/
def completes (patience : Nat) (p : Program) : Bool :=
  match p.tick patience with
  | .ok (_, .ok _) => true
  | _ => false

theorem completes_iff :
    p.completes patience ↔ ∃ q report, p.tick patience = .ok (q, .ok report) := by
  constructor
  · intro h
    unfold completes at h
    split at h
    · next q report htick => exact ⟨q, report, htick⟩
    · cases h
  · rintro ⟨q, report, htick⟩
    unfold completes
    rw [htick]

theorem exists_tick_of_completes (h : p.completes patience) :
    ∃ q report, p.tick patience = .ok (q, .ok report) := completes_iff.1 h

/-- A tick makes the deposits that wait for it and then some number of passes, whether it comes to
its end or not.  What it queues, if anything, follows from what the passes lead to. -/
theorem passes_of_tick {result : Except ProgramError TickReport}
    (h : p.tick patience = .ok (q, result)) :
    ∃ start applied n, p.store.resetScratch.depositAll p.id p.pending = .ok (start, applied) ∧
      passes p.id p.sameTickRules n start = .ok q.store ∧
      (allConsequences ⟨p.id, q.store⟩ p.nextTickRules = .ok q.pending ∨ q.pending = []) ∧
      q = { p with store := q.store, pending := q.pending, ticks := q.ticks } := by
  obtain ⟨⟨start, applied⟩, hstart, h⟩ := bind_eq_ok.1 h
  obtain ⟨settled, hsettle, h⟩ := bind_eq_ok.1 h
  obtain ⟨n, T, hn, _, hend⟩ := settle_eq_ok hsettle
  rcases hend with ⟨_, _, rfl⟩ | ⟨_, rfl⟩
  · obtain ⟨queue, hqueue, heq⟩ := bind_eq_ok.1 h
    cases heq
    exact ⟨start, applied, n, hstart, hn, .inl hqueue, rfl⟩
  · dsimp only at h
    split at h
    · cases h
      exact ⟨start, applied, n, hstart, hn, .inr rfl, rfl⟩
    · cases h

section FirstPass

variable {start U : Store} {applied : Nat} {changed : Bool} {queue : List Deposit}

/-- If the first pass of a tick leads to a closed store, then the tick leaves that store, whether it
comes to its end or not. -/
theorem store_of_tick {result : Except ProgramError TickReport} (hlimit : p.passLimit ≠ some 0)
    (hstart : p.store.resetScratch.depositAll p.id p.pending = .ok (start, applied))
    (hpass : pass p.id p.sameTickRules start = .ok (U, changed))
    (hU : ∀ r ∈ p.sameTickRules, r.Closed p.id U) (h : p.tick patience = .ok (q, result)) :
    q.store = U := by
  obtain ⟨⟨start', applied'⟩, hstart', h⟩ := bind_eq_ok.1 h
  cases hstart.symm.trans hstart'
  obtain ⟨settled, hsettled, h⟩ := bind_eq_ok.1 h
  cases hpasses : p.passLimit.getD patience with
  | zero =>
      -- no pass is made, and as the program would make one, it is out of patience
      rw [hpasses] at hsettled
      cases hsettled
      cases hnone : p.passLimit with
      | none =>
          simp only [hnone] at h
          cases h
      | some limit =>
          rw [hnone] at hpasses
          exact absurd (hnone.trans (congrArg some hpasses)) hlimit
  | succ limit =>
      obtain ⟨_, hsettled', hstore, _⟩ := exists_settle_of_pass limit 0 hpass hU
      rw [hpasses] at hsettled
      cases hsettled'.symm.trans hsettled
      cases settled with
      | stable store count =>
          obtain ⟨_, _, heq⟩ := bind_eq_ok.1 h
          cases heq
          exact hstore
      | unstable store =>
          dsimp only at h
          split at h
          · cases h
            exact hstore
          · cases h

/-- A tick whose first pass leads to a closed store comes to an end with a second pass. -/
theorem exists_tick_of_pass (hpatience : 2 ≤ patience) (hlimit : p.passLimit ≠ some 0)
    (hstart : p.store.resetScratch.depositAll p.id p.pending = .ok (start, applied))
    (hpass : pass p.id p.sameTickRules start = .ok (U, changed))
    (hU : ∀ r ∈ p.sameTickRules, r.Closed p.id U)
    (hqueue : allConsequences ⟨p.id, U⟩ p.nextTickRules = .ok queue) :
    ∃ q result, p.tick patience = .ok (q, result) := by
  obtain ⟨passes, hpasses⟩ : ∃ n, p.passLimit.getD patience = n + 1 := by
    apply Nat.exists_eq_succ_of_ne_zero
    cases hlimit' : p.passLimit with
    | none => exact Nat.ne_of_gt (Nat.zero_lt_of_lt hpatience)
    | some limit => exact fun hzero => hlimit (hlimit'.trans (congrArg some hzero))
  obtain ⟨settled, hsettled, hstore, hstable⟩ := exists_settle_of_pass passes 0 hpass hU
  rw [← hpasses] at hsettled
  cases settled with
  | stable store count =>
      obtain rfl : store = U := hstore
      exact ⟨_, _, bind_eq_ok.2 ⟨_, hstart, bind_eq_ok.2 ⟨_, hsettled,
        bind_eq_ok.2 ⟨_, hqueue, rfl⟩⟩⟩⟩
  | unstable store =>
      cases hnone : p.passLimit with
      | none =>
          rw [hnone, Option.getD_none] at hpasses
          obtain ⟨_, heq⟩ := hstable (by omega)
          cases heq
      | some limit =>
          refine ⟨{ p with store := store, pending := [] }, .error (.diverged p.addr p.ticks limit),
            bind_eq_ok.2 ⟨_, hstart, bind_eq_ok.2 ⟨_, hsettled, ?_⟩⟩⟩
          simp only [hnone]
          rfl

/-- If the first pass of a tick leads to a closed store and there may be a second one, then only the
rules of the next tick can break off the tick. -/
theorem tick_of_pass (hlimit : 2 ≤ p.passLimit.getD patience)
    (hstart : p.store.resetScratch.depositAll p.id p.pending = .ok (start, applied))
    (hpass : pass p.id p.sameTickRules start = .ok (U, changed))
    (hU : ∀ r ∈ p.sameTickRules, r.Closed p.id U) :
    p.tick patience = (allConsequences ⟨p.id, U⟩ p.nextTickRules).map fun queue =>
      ({ p with store := U, pending := queue, ticks := p.ticks + 1 },
        .ok ⟨p.ticks, if changed then 2 else 1, applied, queue.length⟩) := by
  obtain ⟨limit, hlimit⟩ := Nat.exists_eq_add_of_le' hlimit
  have hsettle : settle p.id p.sameTickRules (limit + 2) 0 start =
      .ok (.stable U (if changed then 2 else 1)) := by
    rw [settle, hpass]
    cases changed with
    | false => rfl
    | true => simp [bind, Except.bind, settle, pass_of_closed hU, pure, Except.pure]
  unfold tick
  simp only [hstart, hlimit, hsettle, bind, Except.bind]
  cases allConsequences ⟨p.id, U⟩ p.nextTickRules <;> rfl

/-- If the first pass of a tick leads to a closed store and the rules of the next tick do not break
off there, then the tick does not break off, whatever bound there is on its passes.  If there may be
a second pass, then it comes to its end. -/
theorem exists_result_of_pass (hpatience : 2 ≤ patience)
    (hstart : p.store.resetScratch.depositAll p.id p.pending = .ok (start, applied))
    (hpass : pass p.id p.sameTickRules start = .ok (U, changed))
    (hU : ∀ r ∈ p.sameTickRules, r.Closed p.id U)
    (hqueue : allConsequences ⟨p.id, U⟩ p.nextTickRules = .ok queue) :
    ∃ q result, p.tick patience = .ok (q, result) ∧ (q.pending = queue ∨ q.pending = []) ∧
      (2 ≤ p.passLimit.getD patience → ∃ report, result = .ok report ∧ report.passes ≤ 2) := by
  by_cases hlimit : 2 ≤ p.passLimit.getD patience
  · have htick := tick_of_pass hlimit hstart hpass hU
    rw [hqueue] at htick
    refine ⟨_, _, htick, .inl rfl, fun _ => ⟨_, rfl, ?_⟩⟩
    cases changed <;> simp
  · by_cases hzero : p.passLimit = some 0
    · -- no pass is made, and that is an error of the tick but not a fault
      have hsettle : settle p.id p.sameTickRules (p.passLimit.getD patience) 0 start =
          .ok (.unstable start) := by
        rw [hzero]
        rfl
      have htick : p.tick patience = .ok ({ p with store := start, pending := [] },
          .error (.diverged p.addr p.ticks 0)) := by
        refine bind_eq_ok.2 ⟨_, hstart, bind_eq_ok.2 ⟨_, hsettle, ?_⟩⟩
        simp only [hzero]
        rfl
      exact ⟨_, _, htick, .inr rfl, fun h => absurd h hlimit⟩
    · obtain ⟨q, result, htick⟩ :=
        exists_tick_of_pass hpatience hzero hstart hpass hU hqueue
      have hstore := store_of_tick hzero hstart hpass hU htick
      obtain ⟨_, _, _, _, _, hpending, _⟩ := passes_of_tick htick
      rw [hstore, hqueue, Except.ok.injEq] at hpending
      exact ⟨q, result, htick, hpending.imp_left Eq.symm, fun h => absurd h hlimit⟩

/-- If the first pass of a tick leads to a closed store and the rules of the next tick do not break
off there, then all that can break off the tick is that not enough passes are waited for. -/
theorem fault_of_pass {fault : Fault}
    (hstart : p.store.resetScratch.depositAll p.id p.pending = .ok (start, applied))
    (hpass : pass p.id p.sameTickRules start = .ok (U, changed))
    (hU : ∀ r ∈ p.sameTickRules, r.Closed p.id U)
    (hqueue : allConsequences ⟨p.id, U⟩ p.nextTickRules = .ok queue)
    (htick : p.tick patience = .error fault) : fault = .exhausted := by
  rcases bind_eq_error.1 htick with hfault | ⟨_, hstart', htick⟩
  · cases hstart.symm.trans hfault
  cases hstart.symm.trans hstart'
  rcases bind_eq_error.1 htick with hfault | ⟨settled, hsettle, htick⟩
  · cases hlimit : p.passLimit.getD patience with
    | zero =>
        rw [hlimit] at hfault
        cases hfault
    | succ limit =>
        obtain ⟨_, hresult, _⟩ := exists_settle_of_pass limit 0 hpass hU
        rw [hlimit, hresult] at hfault
        cases hfault
  cases settled with
  | stable store count =>
      obtain rfl := eq_of_settle_of_pass hpass hU hsettle
      rcases bind_eq_error.1 htick with hfault | ⟨_, _, heq⟩
      · cases hqueue.symm.trans hfault
      · cases heq
  | unstable store =>
      dsimp only at htick
      split at htick
      · cases htick
      · exact (Except.error.inj htick).symm

end FirstPass

/-- Without a bound on its passes a tick does not fail. -/
theorem exists_report_of_tick {result : Except ProgramError TickReport}
    (hlimit : p.passLimit = none) (h : p.tick patience = .ok (q, result)) :
    ∃ report, result = .ok report := by
  obtain ⟨_, _, h⟩ := bind_eq_ok.1 h
  obtain ⟨settled, _, h⟩ := bind_eq_ok.1 h
  cases settled with
  | stable store count =>
      obtain ⟨queue, _, heq⟩ := bind_eq_ok.1 h
      cases heq
      exact ⟨_, rfl⟩
  | unstable store =>
      dsimp only at h
      rw [hlimit] at h
      cases h

theorem sameShape_start {start : Store} {applied : Nat}
    (h : p.store.resetScratch.depositAll p.id p.pending = .ok (start, applied)) :
    p.store.SameShape start :=
  p.store.sameShape_resetScratch.trans (Store.depositAll_least h).1.sameShape

/-- Three sets, each copied to the next one.  The copying is declared from the last set to the
first, and a number waits to enter the first set. -/
def chain : Program :=
  let script : Setup Unit := do
    let first ← Setup.declare (.set .int) "first"
    let second ← Setup.declare (.set .int) "second"
    let third ← Setup.declare (.set .int) "third"
    Setup.copy second third .sameTick
    Setup.copy first second .sameTick
  { (script.runOn (create 0 "n" none)).2 with pending := [⟨0, .add (.set .int) 7⟩] }

/-- The sets of `chain`, counted from zero. -/
def chainSet (i : Nat) : Handle (.set .int) := ⟨⟨0, i⟩⟩

theorem monotone_of_mem_chain : ∀ r ∈ chain.rules, r.Monotone chain.id chain.store := by
  have hcopy : ∀ (r : Rule) (h : Handle (.set .int)),
      r.evaluate = Rule.selectRows (.of h) (fun _ row => .ok (some (.add (.set .int) row))) →
      r.Monotone chain.id chain.store := fun r h hr =>
    Rule.monotone_of_grows (Source.grows_of h) (fun row => .ok (some (.add (.set .int) row))) hr
  rintro r (_ | ⟨_, _ | ⟨_, hr⟩⟩)
  · exact hcopy _ ⟨⟨0, 1⟩⟩ rfl
  · exact hcopy _ ⟨⟨0, 0⟩⟩ rfl
  · cases hr

/-- A tick of monotone rules computes the least fixpoint: afterwards the relations are the least
state that is above the one that the passes start from and closed under every rule. -/
theorem tick_leastClosed (hmono : ∀ r ∈ p.sameTickRules, r.Monotone p.id p.store)
    (h : p.tick patience = .ok (q, .ok report)) :
    ∃ start applied, p.store.resetScratch.depositAll p.id p.pending = .ok (start, applied) ∧
      LeastClosed p.id p.sameTickRules start q.store := by
  obtain ⟨start, applied, store, count, queue, hstart, hsettle, _, rfl, _⟩ := tick_eq_ok.1 h
  exact ⟨start, applied, hstart, leastClosed_of_settle hmono (sameShape_start hstart) hsettle⟩

/-- The number is in the first set when the passes start, and in all three when they end. -/
theorem tick_leastClosed_chain :
    ∃ q start, chain.tick 3 = .ok (q, .ok ⟨0, 3, 1, 0⟩) ∧
      chain.store.resetScratch.depositAll chain.id chain.pending = .ok (start, 1) ∧
      (Facts.mk chain.id start).get (chainSet 0) = .ok (.ofList [7]) ∧
      (Facts.mk chain.id start).get (chainSet 1) = .ok .empty ∧
      (Facts.mk chain.id start).get (chainSet 2) = .ok .empty ∧
      q.facts.get (chainSet 0) = .ok (.ofList [7]) ∧
      q.facts.get (chainSet 1) = .ok (.ofList [7]) ∧
      q.facts.get (chainSet 2) = .ok (.ofList [7]) ∧
      LeastClosed chain.id chain.sameTickRules start q.store := by
  obtain ⟨q, start, h, hstart, hfirst, hsecond, hthird, hfirst', hsecond', hthird'⟩ :
      ∃ q start, chain.tick 3 = .ok (q, .ok ⟨0, 3, 1, 0⟩) ∧
        chain.store.resetScratch.depositAll chain.id chain.pending = .ok (start, 1) ∧
        (Facts.mk chain.id start).get (chainSet 0) = .ok (.ofList [7]) ∧
        (Facts.mk chain.id start).get (chainSet 1) = .ok .empty ∧
        (Facts.mk chain.id start).get (chainSet 2) = .ok .empty ∧
        q.facts.get (chainSet 0) = .ok (.ofList [7]) ∧
        q.facts.get (chainSet 1) = .ok (.ofList [7]) ∧
        q.facts.get (chainSet 2) = .ok (.ofList [7]) :=
    ⟨_, _, rfl, rfl, rfl, rfl, rfl, rfl, rfl, rfl⟩
  obtain ⟨_, _, hplace, hleast⟩ :=
    tick_leastClosed (fun r hr => monotone_of_mem_chain r (List.mem_filter.1 hr).1) h
  cases hstart.symm.trans hplace
  exact ⟨q, start, h, hstart, hfirst, hsecond, hthird, hfirst', hsecond', hthird', hleast⟩

end Program

end Ratchet

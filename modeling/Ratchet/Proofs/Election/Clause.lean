import Ratchet.Proofs.Election.Tick
import Ratchet.Proofs.Program.Total

/-!
# Rules as functions of the state

A rule of the same tick never breaks off: what it asks for is a function of the state of the member.
A `Clause` is such a function with the cell that its facts go to and the cells that they depend on.
A pass over rules that are described by clauses takes the state through the clauses, one after the
other (`exists_steps_of_pass`).

Which rules a pass leaves closed is then a matter of what is read and written when.  A clause whose
cells are written neither by itself nor later on in the pass would ask for the same facts again at
the end, and these are in its target (`done_of_layered`).  The selectors need not be monotone for
that, and no second pass has to be looked at.
-/

namespace Ratchet.Election

theorem Cell.isTotal (c : Cell) : c.type.IsTotal := by
  cases c <;> trivial

/-- What a rule asks for, as a function of the state. -/
structure Clause where
  target : Cell
  /-- The cells that the facts depend on. -/
  reads : List Cell
  facts : State → List target.type.Tuple
  facts_congr : ∀ σ τ : State, (∀ c ∈ reads, σ c = τ c) → facts σ = facts τ

namespace Clause

variable {k : Clause} {ks ls : List Clause} {σ τ υ : State} {c : Cell}

/-- Adding the facts of the clause to its target leads from the one state to the other. -/
def Step (k : Clause) (σ τ : State) : Prop :=
  ∃ w, Relation.addAll (σ k.target) (k.facts σ) = .ok w ∧ τ = Function.update σ k.target w

/-- The target holds the facts of the clause. -/
def Done (k : Clause) (σ : State) : Prop :=
  Relation.addAll (σ k.target) (k.facts σ) = .ok (σ k.target)

theorem exists_step (k : Clause) (σ : State) : ∃ τ, k.Step σ τ := by
  obtain ⟨w, hw⟩ := k.target.isTotal.exists_addAll (σ k.target) (k.facts σ)
  exact ⟨_, w, hw, rfl⟩

theorem Step.of_ne (h : k.Step σ τ) (hc : c ≠ k.target) : τ c = σ c := by
  obtain ⟨w, _, rfl⟩ := h
  exact Function.update_of_ne hc w σ

theorem Step.addAll (h : k.Step σ τ) :
    Relation.addAll (σ k.target) (k.facts σ) = .ok (τ k.target) := by
  obtain ⟨w, hw, rfl⟩ := h
  rw [Function.update_self]
  exact hw

theorem Step.below (h : k.Step σ τ) (c : Cell) : Lattice.Below (σ c) (τ c) := by
  by_cases hc : c = k.target
  · subst hc
    exact Relation.below_of_addAll h.addAll
  · rw [h.of_ne hc]
    exact Lattice.below_refl _

/-- A clause is done as long as it asks for nothing that it has not asked for before. -/
theorem Step.done_of_subset (h : k.Step σ υ) (hbelow : Lattice.Below (υ k.target) (τ k.target))
    (hsubset : ∀ x ∈ k.facts τ, x ∈ k.facts σ) : k.Done τ :=
  Relation.addAll_of_subset h.addAll hbelow hsubset

theorem Done.step (h : k.Done σ) : k.Step σ σ :=
  ⟨σ k.target, h, (Function.update_eq_self k.target σ).symm⟩

/-! ## Several clauses -/

/-- Firing the clauses one after the other leads from the one state to the other. -/
def Steps : List Clause → State → State → Prop
  | [], σ, τ => τ = σ
  | k :: ks, σ, τ => ∃ υ, k.Step σ υ ∧ Steps ks υ τ

theorem steps_append : Steps (ks ++ ls) σ τ ↔ ∃ υ, Steps ks σ υ ∧ Steps ls υ τ := by
  induction ks generalizing σ with
  | nil => simp [Steps]
  | cons k ks ih =>
      simp only [List.cons_append, Steps, ih]
      constructor
      · rintro ⟨ρ, hρ, υ, hυ, hτ⟩
        exact ⟨υ, ⟨ρ, hρ, hυ⟩, hτ⟩
      · rintro ⟨υ, ⟨ρ, hρ, hυ⟩, hτ⟩
        exact ⟨ρ, hρ, υ, hυ, hτ⟩

theorem Steps.below (h : Steps ks σ τ) (c : Cell) : Lattice.Below (σ c) (τ c) := by
  induction ks generalizing σ with
  | nil =>
      obtain rfl : τ = σ := h
      exact Lattice.below_refl _
  | cons k ks ih =>
      obtain ⟨υ, hυ, hτ⟩ := h
      exact (hυ.below c).trans (ih hτ)

/-- Whether none of the clauses writes the cell. -/
def spare (ks : List Clause) (c : Cell) : Bool := ks.all fun k => c != k.target

/-- A cell that no clause writes keeps its value. -/
theorem Steps.of_spare (h : Steps ks σ τ) (hc : spare ks c) : τ c = σ c := by
  induction ks generalizing σ with
  | nil =>
      obtain rfl : τ = σ := h
      rfl
  | cons k ks ih =>
      obtain ⟨υ, hυ, hτ⟩ := h
      obtain ⟨hk, hks⟩ := Bool.and_eq_true_iff.1 hc
      rw [ih hτ hks, hυ.of_ne (bne_iff_ne.1 hk)]

theorem Steps.facts_eq (h : Steps ks σ τ) (hspare : k.reads.all (spare ks)) :
    k.facts τ = k.facts σ :=
  k.facts_congr τ σ fun c hc => h.of_spare (List.all_eq_true.1 hspare c hc)

/-- What is done stays done as long as nothing is written that it depends on. -/
theorem done_of_steps (hks : ∀ k ∈ ks, k.Done σ) (h : Steps ls σ τ)
    (hspare : ks.all fun k => k.reads.all (spare ls)) : ∀ k ∈ ks, k.Done τ := by
  intro k hk
  refine (hks k hk).step.done_of_subset (h.below k.target) ?_
  rw [h.facts_eq (List.all_eq_true.1 hspare k hk)]
  exact fun _ hx => hx

/-- Whether no clause depends on what it writes itself or on what a later one writes. -/
def layered : List Clause → Bool
  | [] => true
  | k :: ks => k.reads.all (spare (k :: ks)) && layered ks

theorem done_of_layered (hks : layered ks) (h : Steps ks σ τ) : ∀ k ∈ ks, k.Done τ := by
  induction ks generalizing σ with
  | nil => nofun
  | cons k ks ih =>
      obtain ⟨hspare, hlayered⟩ := Bool.and_eq_true_iff.1 hks
      have hfacts : k.facts τ = k.facts σ := h.facts_eq hspare
      obtain ⟨υ, hυ, hτ⟩ := h
      refine List.forall_mem_cons.2 ⟨?_, ih hlayered hτ⟩
      refine hυ.done_of_subset (hτ.below k.target) ?_
      rw [hfacts]
      exact fun _ hx => hx

/-! ## Rules -/

variable {id : Nat} {scope : String} {S T : Store} {r : Rule} {rs : List Rule}

/-- The rule asks for the facts of the clause. -/
def Describes (id : Nat) (r : Rule) (k : Clause) : Prop :=
  ∀ S σ, Reads id S σ → r.consequences ⟨id, S⟩ =
    .ok ((k.facts σ).map fun x => ⟨k.target.slot, .add k.target.type x⟩)

theorem Describes.fire_iff (h : Describes id r k) (hσ : Reads id S σ) : r.fire id S = .ok T ↔
    ∃ w, Relation.addAll (σ k.target) (k.facts σ) = .ok w ∧
      T = S.assign (Cell.handle id k.target) w := by
  rw [Rule.fire_eq_ok, h S σ hσ]
  refine Iff.trans ?_ (depositAll_add (hσ k.target))
  constructor
  · rintro ⟨_, count, ⟨⟩, hall⟩
    exact ⟨count, hall⟩
  · rintro ⟨count, hall⟩
    exact ⟨_, count, rfl, hall⟩

theorem Describes.exists_fire (h : Describes id r k) (hσ : Reads id S σ) (hτ : k.Step σ τ) :
    ∃ T, r.fire id S = .ok T ∧ Reads id T τ := by
  obtain ⟨w, hw, rfl⟩ := hτ
  exact ⟨_, (h.fire_iff hσ).2 ⟨w, hw, rfl⟩, hσ.assign w⟩

theorem Describes.closed (h : Describes id r k) (hσ : Reads id S σ) (hk : k.Done σ) :
    r.Closed id S :=
  (h.fire_iff hσ).2 ⟨_, hk, (assign_of_get (hσ k.target)).symm⟩

/-- A pass takes the state through the clauses. -/
theorem exists_steps_of_pass (h : List.Forall₂ (Describes id) rs ks) (hσ : Reads id S σ) :
    ∃ T changed τ, pass id rs S = .ok (T, changed) ∧ Reads id T τ ∧ Steps ks σ τ := by
  induction h generalizing S σ with
  | nil => exact ⟨S, false, σ, rfl, hσ, rfl⟩
  | @cons r k rs ks hr _ ih =>
      obtain ⟨υ, hυ⟩ := k.exists_step σ
      obtain ⟨R, hfire, hR⟩ := hr.exists_fire hσ hυ
      obtain ⟨T, more, τ, hrest, hT, hτ⟩ := ih hR
      obtain ⟨changed, hpass⟩ := exists_pass_cons hfire hrest
      exact ⟨T, changed, τ, hpass, hT, υ, hυ, hτ⟩

theorem closed_of_done (h : List.Forall₂ (Describes id) rs ks) (hσ : Reads id S σ)
    (hks : ∀ k ∈ ks, k.Done σ) : ∀ r ∈ rs, r.Closed id S := by
  induction h with
  | nil => nofun
  | @cons r k rs ks hr _ ih =>
      obtain ⟨hk, hks⟩ := List.forall_mem_cons.1 hks
      exact List.forall_mem_cons.2 ⟨hr.closed hσ hk, ih hks⟩

/-! ## Clauses from selectors -/

/-- The clause that selects facts from the rows of one cell. -/
def ofRows (source target : Cell) (others : List Cell)
    (select : State → source.type.Tuple → Option target.type.Tuple)
    (select_congr : ∀ σ τ : State, (∀ c ∈ others, σ c = τ c) → select σ = select τ) : Clause where
  target := target
  reads := source :: others
  facts σ := (Relation.tuples (σ source)).filterMap (select σ)
  facts_congr σ τ h := by
    obtain ⟨hsource, hothers⟩ := List.forall_mem_cons.1 h
    rw [hsource, select_congr σ τ hothers]

/-- A rule with a selector that never breaks off is described by what it selects. -/
theorem describes_of_selected {ρ : Type} {sources : List Cell} {source : Source ρ}
    {select : Facts → ρ → Except Fault (Option k.target.type.Tuple)}
    (h : ∀ S σ, Reads id S σ → source.selected select ⟨id, S⟩ = .ok (k.facts σ)) :
    Describes id (rule scope sources k.target .sameTick id source select) k := by
  intro S σ hσ
  rw [Rule.consequences_eq rfl, h S σ hσ]
  rfl

theorem describes_ofRows {source target : Cell} {others sources : List Cell}
    {select : State → source.type.Tuple → Option target.type.Tuple}
    {select_congr : ∀ σ τ : State, (∀ c ∈ others, σ c = τ c) → select σ = select τ}
    {selector : Facts → source.type.Tuple → Except Fault (Option target.type.Tuple)}
    (h : ∀ S σ row, Reads id S σ → selector ⟨id, S⟩ row = .ok (select σ row)) :
    Describes id (rule scope sources target .sameTick id (.of (Cell.handle id source)) selector)
      (ofRows source target others select select_congr) :=
  describes_of_selected (k := ofRows source target others select select_congr) fun S σ hσ =>
    selected_of_forall hσ.rows fun row => h S σ row hσ

/-- The clause of a selector that looks at nothing but its row. -/
def plain (source target : Cell) (select : source.type.Tuple → Option target.type.Tuple) : Clause :=
  ofRows source target [] (fun _ => select) fun _ _ _ => rfl

theorem describes_plain {source target : Cell} {sources : List Cell}
    {select : source.type.Tuple → Option target.type.Tuple} :
    Describes id (rule scope sources target .sameTick id (.of (Cell.handle id source))
      fun _ row => .ok (select row)) (plain source target select) :=
  describes_ofRows fun _ _ _ _ => rfl

end Clause

end Ratchet.Election

import Ratchet.Proofs.Program.Layout
import Ratchet.Proofs.Program.Quiescence
import Ratchet.Proofs.Program.Run
import Ratchet.Proofs.ShortestPath.Chain

/-!
# What a path search derives

The paths of a search program are the paths that the chains of its links give.

One half holds at all times, between the rules of a pass as well as between ticks: every path is
given by a chain (`ShortestPath.Sound`).  The rules keep it because they follow the two ways of
building a chain, and new links keep it because old chains stay chains.

The other half holds once a tick has come to its end.  The relations are then closed under both
rules, so by induction on the chain every chain gives a path that is there (`Chain.exists_gives`).
This includes that its cost is in range: the rule that would have to add up the last two costs has
been evaluated.

## Main result

* `ShortestPath.run_chains`: paths and answers after the ticks of a run.
-/

namespace Ratchet

namespace ShortestPath

/-! ## Declarations -/

/-- The handles of a search on a program of its own. -/
def searchOf (id : Nat) : ShortestPath := ⟨⟨⟨id, 0⟩⟩, ⟨⟨id, 1⟩⟩⟩

/-- The relations of a search. -/
def searchSlots (scope : String) : Store :=
  [{ Slot.fresh (scope ++ "ShortestPathLink") (.set .link) with input := true },
    { Slot.fresh (scope ++ "ShortestPath") (.set .path) with output := true }]

section Rules

variable (search : ShortestPath) (scope : String)

/-- The rule that makes links paths. -/
def linkRule : Rule :=
  joinRule [scope ++ "ShortestPathLink"] (scope ++ "ShortestPath") (.of search.links) search.paths
    .sameTick fun _ link => .ok (some (ofLink link))

/-- The rule that puts links before paths. -/
def extendRule : Rule :=
  joinRule [scope ++ "ShortestPathLink", scope ++ "ShortestPath"] (scope ++ "ShortestPath")
    (.product (.of search.links) (.of search.paths)) search.paths .sameTick fun _ row =>
      extend row.1 row.2

end Rules

/-- What a search is made of. -/
def layout (scope : String) : Layout ShortestPath where
  handles := searchOf
  slots := searchSlots scope
  rules search _ := [linkRule search scope, extendRule search scope]

variable {id : Nat} {here scope : String} {limit : Option Nat}

/-- Declaring a search on a fresh program succeeds. -/
theorem runOn_declare : (declare scope).runOn (.create id here limit) =
    (.ok (searchOf id), { Program.create id here limit with
      store := searchSlots scope
      rules := [linkRule (searchOf id) scope, extendRule (searchOf id) scope] }) := by
  simp only [declare, Setup.declare, Setup.mark, Setup.extendOnly, Setup.join, Setup.runOn_bind,
    Setup.runOn_extend, Setup.runOn_pure, Program.create]
  simp [Program.declare, Program.mark, Program.slotOf, Program.facts, Facts.slot, bind, Except.bind,
    pure, Except.pure, Program.join, Program.addRule, Program.nameOf, Source.of, Source.product,
    Slot.fresh, Slot.mark]
  and_intros <;> rfl

/-! ## Paths of chains -/

variable {search : ShortestPath} {program : Nat} {S T : Store} {links : GrowSet Link}
  {paths : GrowSet Path}

/-- The relations hold these links and these paths. -/
structure Holds (search : ShortestPath) (facts : Facts) (links : GrowSet Link)
    (paths : GrowSet Path) : Prop where
  links_eq : facts.get search.links = .ok links
  paths_eq : facts.get search.paths = .ok paths

/-- Every path is given by a chain of the links. -/
def Sound (search : ShortestPath) (facts : Facts) : Prop :=
  ∃ links paths, search.Holds facts links paths ∧
    ∀ path ∈ paths, ∃ c : Chain links, c.Gives path

/-- Deposits of links keep the chains that are there. -/
theorem Sound.depositAll {ds : List Deposit} {count : Nat}
    (hslots : search.links.id.slot ≠ search.paths.id.slot)
    (hds : ∀ d ∈ ds, d.slot = search.links.id.slot) (hS : search.Sound ⟨program, S⟩)
    (hall : S.depositAll program ds = .ok (T, count)) : search.Sound ⟨program, T⟩ := by
  obtain ⟨links, paths, ⟨hlinks, hpaths⟩, hsound⟩ := hS
  obtain ⟨more, hmore, hmem⟩ := exists_get_of_depositAll hlinks hall
  have hkept : (Facts.mk program T).get search.paths = (Facts.mk program S).get search.paths :=
    get_of_depositAll_of_ne (fun d hd => (hds d hd).trans_ne hslots) hall
  refine ⟨more, paths, ⟨hmore, hkept.trans hpaths⟩, ?_⟩
  intro path hpath
  obtain ⟨c, hc⟩ := hsound path hpath
  have hgrown : ∀ l ∈ links, l ∈ more := fun l hl => (hmem l).2 (.inl hl)
  exact ⟨c.mono hgrown, hc.mono hgrown⟩

/-- A rule that adds paths for which there are chains is sound. -/
theorem Sound.fire {ρ : Type} {source : Source ρ} {sources : List String} {name : String}
    {timing : Timing} {select : Facts → ρ → Except Fault (Option Path)}
    (hslots : search.links.id.slot ≠ search.paths.id.slot)
    (hgives : ∀ links paths xs, search.Holds ⟨program, S⟩ links paths →
      (∀ path ∈ paths, ∃ c : Chain links, c.Gives path) →
      source.selected select ⟨program, S⟩ = .ok xs → ∀ x ∈ xs, ∃ c : Chain links, c.Gives x)
    (hS : search.Sound ⟨program, S⟩)
    (hfire : (joinRule sources name source search.paths timing select).fire program S = .ok T) :
    search.Sound ⟨program, T⟩ := by
  obtain ⟨links, paths, hholds, hsound⟩ := hS
  obtain ⟨xs, more, hxs, hadd, rfl⟩ := (Rule.fire_join rfl rfl hholds.paths_eq).1 hfire
  refine ⟨links, more, ⟨?_, get_assign_self hholds.paths_eq⟩, ?_⟩
  · rw [get_assign_of_ne hslots.symm]
    exact hholds.links_eq
  · intro path hpath
    rcases (GrowSet.mem_of_addAll hadd).1 hpath with hpath | hpath
    · exact hsound path hpath
    · exact hgives links paths xs hholds hsound hxs path hpath

theorem rows_links_paths {facts : Facts} (h : search.Holds facts links paths) :
    ((Source.of search.links).product (.of search.paths)).rows facts =
      .ok (links.elements.flatMap fun l => paths.elements.map fun path => (l, path)) := by
  have hlinks := Source.rows_of h.links_eq
  have hpaths := Source.rows_of h.paths_eq
  simp only [Source.product, hlinks, hpaths, bind, Except.bind, pure, Except.pure]
  rfl

theorem Sound.fire_linkRule (hslots : search.links.id.slot ≠ search.paths.id.slot)
    (hS : search.Sound ⟨program, S⟩) (hfire : (linkRule search scope).fire program S = .ok T) :
    search.Sound ⟨program, T⟩ := by
  refine hS.fire hslots ?_ hfire
  intro links paths xs hholds _ hxs x hx
  obtain ⟨rows, hrows, l, hl, hselect⟩ := (mem_selected hxs).1 hx
  obtain rfl := Except.ok.inj (hrows.symm.trans (Source.rows_of hholds.links_eq))
  cases hselect
  exact ⟨.single l hl, Chain.gives_ofLink hl⟩

theorem Sound.fire_extendRule (hslots : search.links.id.slot ≠ search.paths.id.slot)
    (hS : search.Sound ⟨program, S⟩) (hfire : (extendRule search scope).fire program S = .ok T) :
    search.Sound ⟨program, T⟩ := by
  refine hS.fire hslots ?_ hfire
  intro links paths xs hholds hsound hxs x hx
  obtain ⟨rows, hrows, row, hrow, hselect⟩ := (mem_selected hxs).1 hx
  obtain rfl := Except.ok.inj (hrows.symm.trans (rows_links_paths hholds))
  obtain ⟨l, hl, hrow⟩ := List.mem_flatMap.1 hrow
  obtain ⟨path, hpath, rfl⟩ := List.mem_map.1 hrow
  obtain ⟨c, hc⟩ := hsound path hpath
  have hlinked : l.target = c.source := (extend_eq_ok.1 hselect).1.trans hc.source_eq
  exact ⟨c.cons l hl hlinked, gives_extend hc hl hlinked hselect⟩

/-! ## Chains of paths -/

/-- A rule that adds paths is closed if the paths are there. -/
theorem subset_of_closed {ρ : Type} {source : Source ρ} {sources : List String} {name : String}
    {timing : Timing} {select : Facts → ρ → Except Fault (Option Path)}
    (hpaths : (Facts.mk program S).get search.paths = .ok paths)
    (hclosed : (joinRule sources name source search.paths timing select).Closed program S) :
    ∃ xs, source.selected select ⟨program, S⟩ = .ok xs ∧ ∀ x ∈ xs, x ∈ paths := by
  obtain ⟨xs, more, hxs, hadd, hsame⟩ := (Rule.fire_join rfl rfl hpaths).1 hclosed
  have hmore : (Facts.mk program S).get search.paths = .ok more := by
    rw [hsame]
    exact get_assign_self hpaths
  obtain rfl := Except.ok.inj (hpaths.symm.trans hmore)
  exact ⟨xs, hxs, fun x hx => (GrowSet.mem_of_addAll hadd).2 (.inr hx)⟩

/-- Once the rules are closed, every chain gives one of the paths. -/
theorem exists_gives (hholds : search.Holds ⟨program, S⟩ links paths)
    (hlink : (linkRule search scope).Closed program S)
    (hextend : (extendRule search scope).Closed program S) (c : Chain links) :
    ∃ path ∈ paths, c.Gives path := by
  obtain ⟨singles, hsingles, hsub⟩ := subset_of_closed hholds.paths_eq hlink
  obtain ⟨longers, hlongers, hsub'⟩ := subset_of_closed hholds.paths_eq hextend
  induction c using Chain.induction with
  | single l hl =>
      have hmem : ofLink l ∈ singles :=
        (mem_selected hsingles).2 ⟨_, Source.rows_of hholds.links_eq, l, hl, rfl⟩
      exact ⟨ofLink l, hsub _ hmem, Chain.gives_ofLink hl⟩
  | cons l c hl hlinked ih =>
      obtain ⟨path, hpath, hc⟩ := ih
      have hrow : (l, path) ∈ links.elements.flatMap fun l => paths.elements.map fun path =>
          (l, path) := List.mem_flatMap.2 ⟨l, hl, List.mem_map.2 ⟨path, hpath, rfl⟩⟩
      -- the rule has been evaluated on this row, so the sum of the costs is in range
      obtain ⟨rows, hrows, hselected⟩ := bind_eq_ok.1 hlongers
      obtain rfl := Except.ok.inj (hrows.symm.trans (rows_links_paths hholds))
      obtain ⟨outcomes, houtcomes, _⟩ := bind_eq_ok.1 hselected
      obtain ⟨outcome, houtcome⟩ := exists_of_mapM_eq_ok houtcomes hrow
      obtain ⟨longer, rfl⟩ := exists_longer (hlinked.trans hc.source_eq.symm) houtcome
      have hmem : longer ∈ longers :=
        (mem_selected hlongers).2 ⟨_, rows_links_paths hholds, _, hrow, houtcome⟩
      exact ⟨longer, hsub' _ hmem, gives_extend hc hl hlinked houtcome⟩

/-- The answer of a search, when the paths are those that the chains give. -/
theorem best_of_iff {p : Program} {source target : String}
    (hholds : search.Holds p.facts links paths)
    (hpaths : ∀ path, path ∈ paths ↔ ∃ c : Chain links, c.Gives path)
    (hall : ∀ c : Chain links, ∃ path ∈ paths, c.Gives path) :
    ∃ answer, search.best p source target = .ok answer ∧
      (answer = none ↔ ¬ ∃ c : Chain links, c.source = source ∧ c.target = target) ∧
      ∀ b, answer = some b →
        (∃ c : Chain links, c.source = source ∧ c.target = target ∧ c.Gives b) ∧
        ∀ c : Chain links, c.source = source → c.target = target →
          b.cost.toInt ≤ c.cost ∧ (b.cost.toInt = c.cost → b.next ≤ c.next) := by
  let between := paths.elements.filter fun a => a.source = source ∧ a.target = target
  have hbetween : ∀ a, a ∈ between ↔ a ∈ paths ∧ a.source = source ∧ a.target = target := by
    intro a
    simp only [between, List.mem_filter, decide_eq_true_eq]
    rfl
  have hanswer : search.best p source target = .ok (cheapest? between) := by
    simp only [best, Facts.tuples, hholds.paths_eq, bind, Except.bind, pure, Except.pure]
    rfl
  refine ⟨cheapest? between, hanswer, ?_, ?_⟩
  · rw [cheapest?_eq_none, List.eq_nil_iff_forall_not_mem]
    constructor
    · rintro hnone ⟨c, rfl, rfl⟩
      obtain ⟨path, hpath, hc⟩ := hall c
      exact hnone path ((hbetween path).2 ⟨hpath, hc.source_eq, hc.target_eq⟩)
    · intro hnone a ha
      obtain ⟨hmem, hsource, htarget⟩ := (hbetween a).1 ha
      obtain ⟨c, hc⟩ := (hpaths a).1 hmem
      exact hnone ⟨c, hc.source_eq.symm.trans hsource, hc.target_eq.symm.trans htarget⟩
  · intro b hb
    obtain ⟨hmem, hleast⟩ := cheapest?_least (paths.ascending.sublist List.filter_sublist)
      (fun a ha => ((hbetween a).1 ha).2) hb
    obtain ⟨hpath, hsource, htarget⟩ := (hbetween b).1 hmem
    obtain ⟨c, hc⟩ := (hpaths b).1 hpath
    refine ⟨⟨c, hc.source_eq.symm.trans hsource, hc.target_eq.symm.trans htarget, hc⟩, ?_⟩
    rintro c rfl rfl
    obtain ⟨a, ha, hc⟩ := hall c
    obtain ⟨hle, hnext⟩ := hleast a ((hbetween a).2 ⟨ha, hc.source_eq, hc.target_eq⟩)
    rw [← hc.cost_eq, ← hc.next_eq]
    exact ⟨Int64.le_iff_toInt_le.1 hle, fun heq => hnext (Int64.toInt_inj.1 heq)⟩

/-! ## Runs -/

variable {p q : Program} {patience : Nat}

/-- The program holds just the search, and nothing waits on it but links. -/
structure Serves (search : ShortestPath) (scope : String) (p : Program) : Prop where
  hosted : (layout scope).Hosted search p
  pending : ∀ d ∈ p.pending, d.slot = search.links.id.slot
  sound : search.Sound p.facts

theorem serves_declared
    (hdeclared : (declare scope).runOn (.create id here limit) = (.ok search, p)) :
    search.Serves scope p := by
  obtain ⟨hsearch, rfl⟩ := Prod.mk.inj (runOn_declare.symm.trans hdeclared)
  obtain rfl := Except.ok.inj hsearch
  refine ⟨⟨rfl, (Store.below_refl _).sameShape, rfl⟩, nofun, GrowSet.empty, GrowSet.empty, ?_,
    nofun⟩
  exact ⟨Facts.get_eq_ok.2 ⟨rfl, _, rfl, Slot.valueAs_eq_ok.2 ⟨rfl, rfl⟩⟩,
    Facts.get_eq_ok.2 ⟨rfl, _, rfl, Slot.valueAs_eq_ok.2 ⟨rfl, rfl⟩⟩⟩

namespace Serves

theorem slot_ne (h : search.Serves scope p) : search.links.id.slot ≠ search.paths.id.slot := by
  rw [h.hosted.handles_eq]
  exact Nat.zero_ne_one

theorem sameTickRules_eq (h : search.Serves scope p) :
    p.sameTickRules = [linkRule search scope, extendRule search scope] :=
  h.hosted.sameTickRules_eq

theorem nextTickRules_eq (h : search.Serves scope p) : p.nextTickRules = [] :=
  h.hosted.nextTickRules_eq

theorem of_sameSetup (h : search.Serves scope p) (hpq : p.SameSetup q)
    (hpending : ∀ d ∈ q.pending, d.slot = search.links.id.slot) (hsound : search.Sound q.facts) :
    search.Serves scope q where
  hosted := h.hosted.of_sameSetup hpq
  pending := hpending
  sound := hsound

/-- No relation of a search is reset. -/
theorem resetScratch_eq (h : search.Serves scope p) : p.store.resetScratch = p.store :=
  Store.resetScratch_of_forall (h.hosted.lasting (by simp [layout, searchSlots, Slot.fresh]))

theorem depositNow {target : RelationId} {w : Write} {grew : Bool} (h : search.Serves scope p)
    (htarget : target = search.links.id) (hdeposit : p.depositNow target w = .ok (q, grew)) :
    search.Serves scope q := by
  have hsame := Program.sameSetup_of_depositNow hdeposit
  obtain ⟨_, _, hdeposit⟩ := bind_eq_ok.1 hdeposit
  obtain ⟨⟨store, _⟩, hdeposit, heq⟩ := bind_eq_ok.1 hdeposit
  cases heq
  have hall : p.store.depositAll p.id [⟨target.slot, w⟩] = .ok (store, _) :=
    bind_eq_ok.2 ⟨_, hdeposit, rfl⟩
  refine h.of_sameSetup hsame h.pending (h.sound.depositAll h.slot_ne ?_ hall)
  simp [htarget]

theorem depositNext {target : RelationId} {w : Write} (h : search.Serves scope p)
    (htarget : target = search.links.id) (hdeposit : p.depositNext target w = .ok q) :
    search.Serves scope q := by
  have hsame := Program.sameSetup_of_depositNext hdeposit
  obtain ⟨_, _, heq⟩ := bind_eq_ok.1 hdeposit
  cases heq
  refine h.of_sameSetup hsame ?_ h.sound
  intro d hd
  rcases List.mem_append.1 hd with hd | hd
  · exact h.pending d hd
  · rw [List.mem_singleton.1 hd, htarget]

/-- Nothing is queued by a tick. -/
theorem pending_of_tick {result : Except ProgramError TickReport} (h : search.Serves scope p)
    (htick : p.tick patience = .ok (q, result)) : q.pending = [] := by
  obtain ⟨_, _, _, _, _, hqueue | hqueue, _⟩ := Program.passes_of_tick htick
  · rw [h.nextTickRules_eq] at hqueue
    exact (Except.ok.inj hqueue).symm
  · exact hqueue

theorem tick {result : Except ProgramError TickReport} (h : search.Serves scope p)
    (htick : p.tick patience = .ok (q, result)) : search.Serves scope q := by
  have hsame := Program.sameSetup_of_tick htick
  obtain ⟨start, applied, n, hstart, hn, _, hq⟩ := Program.passes_of_tick htick
  rw [h.resetScratch_eq] at hstart
  have hsoundStart : search.Sound ⟨p.id, start⟩ := h.sound.depositAll h.slot_ne h.pending hstart
  have hsound : search.Sound ⟨p.id, q.store⟩ := by
    refine of_passes (P := fun S => search.Sound ⟨p.id, S⟩) ?_ hsoundStart hn
    intro S T changed hS hpass
    refine of_pass (P := fun S => search.Sound ⟨p.id, S⟩) ?_ hS hpass
    rw [h.sameTickRules_eq]
    intro r hr S T hS hfire
    simp only [List.mem_cons, List.not_mem_nil, or_false] at hr
    rcases hr with rfl | rfl
    · exact hS.fire_linkRule h.slot_ne hfire
    · exact hS.fire_extendRule h.slot_ne hfire
  refine h.of_sameSetup hsame (by simp [h.pending_of_tick htick]) ?_
  rw [Program.facts, hsame.id_eq]
  exact hsound

theorem perform {action : Action} {outcome : Outcome} (h : search.Serves scope p)
    (htarget : ∀ target, action.target? = some target → target = search.links.id)
    (hperform : p.perform patience action = .ok (q, outcome)) : search.Serves scope q := by
  rcases Program.perform_cases hperform with ⟨target, w, haction, _, hdeposit⟩ | ⟨_, _, htick, _⟩
  · have hlinks := htarget target (Action.target?_of_deposit? haction)
    rcases hdeposit with ⟨_, hdeposit⟩ | hdeposit
    · exact h.depositNow hlinks hdeposit
    · exact h.depositNext hlinks hdeposit
  · exact h.tick htick

/-- A completed tick leaves the paths that the chains give. -/
theorem mem_paths_iff {report : TickReport} (h : search.Serves scope p)
    (htick : p.tick patience = .ok (q, .ok report)) :
    ∃ links paths, search.Holds q.facts links paths ∧
      (∀ path, path ∈ paths ↔ ∃ c : Chain links, c.Gives path) ∧
      ∀ c : Chain links, ∃ path ∈ paths, c.Gives path := by
  obtain ⟨links, paths, hholds, hsound⟩ := (h.tick htick).sound
  obtain ⟨_, hclosed, _⟩ := Program.tick_quiescent htick
  rw [h.sameTickRules_eq, ← (Program.sameSetup_of_tick htick).id_eq] at hclosed
  obtain ⟨hlink, hclosed⟩ := List.forall_mem_cons.1 hclosed
  have hextend := hclosed _ List.mem_cons_self
  have hall : ∀ c : Chain links, ∃ path ∈ paths, c.Gives path := exists_gives hholds hlink hextend
  refine ⟨links, paths, hholds, fun path => ⟨hsound path, ?_⟩, hall⟩
  rintro ⟨c, hc⟩
  obtain ⟨path', hpath', hc'⟩ := hall c
  exact hc.unique hc' ▸ hpath'

/-- Links and ticks keep the program a search, and every tick of a run starts from one. -/
theorem of_run {actions : List Action} {steps : List (Program × Outcome)}
    (hp : search.Serves scope p)
    (hactions : ∀ a ∈ actions, ∀ target, a.target? = some target → target = search.links.id)
    (hrun : p.run patience actions = .ok steps) {report : TickReport}
    (hstep : (q, .ticked (.ok report)) ∈ steps) :
    ∃ before, search.Serves scope before ∧ before.tick patience = .ok (q, .ok report) := by
  induction actions generalizing p steps with
  | nil =>
      cases hrun
      cases hstep
  | cons action actions ih =>
      obtain ⟨q', outcome, rest, hperform, hrest, rfl⟩ := Program.run_cons.1 hrun
      obtain ⟨haction, hactions⟩ := List.forall_mem_cons.1 hactions
      rcases List.mem_cons.1 hstep with heq | hstep
      · obtain ⟨rfl, rfl⟩ := Prod.mk.inj heq
        rcases Program.perform_cases hperform with ⟨_, _, _, hdeposit, _⟩ | ⟨_, _, htick, hresult⟩
        · exact absurd rfl (hdeposit (.ok report))
        · cases hresult
          exact ⟨p, hp, htick⟩
      · exact ih (hp.perform haction hperform) hactions hrest hstep

end Serves

/-- After every tick that completes, the paths are those that the chains of the current links give,
whatever the links are and whenever they were added.

Whoever asks for the best path between two nodes gets none if there is no chain from one to the
other.  Otherwise the answer is given by a chain between them, no chain between them costs less, and
no chain that costs as much has a smaller next node. -/
theorem run_chains {actions : List Action} {steps : List (Program × Outcome)} {report : TickReport}
    (hdeclared : (declare scope).runOn (.create id here limit) = (.ok search, p))
    (hactions : ∀ a ∈ actions, ∀ target, a.target? = some target → target = search.links.id)
    (hrun : p.run patience actions = .ok steps) (hstep : (q, .ticked (.ok report)) ∈ steps) :
    ∃ links paths, search.Holds q.facts links paths ∧
      (∀ path, path ∈ paths ↔ ∃ c : Chain links, c.Gives path) ∧
      ∀ source target, ∃ answer, search.best q source target = .ok answer ∧
        (answer = none ↔ ¬ ∃ c : Chain links, c.source = source ∧ c.target = target) ∧
        ∀ b, answer = some b →
          (∃ c : Chain links, c.source = source ∧ c.target = target ∧ c.Gives b) ∧
          ∀ c : Chain links, c.source = source → c.target = target →
            b.cost.toInt ≤ c.cost ∧ (b.cost.toInt = c.cost → b.next ≤ c.next) := by
  obtain ⟨before, hbefore, htick⟩ := (serves_declared hdeclared).of_run hactions hrun hstep
  obtain ⟨links, paths, hholds, hpaths, hall⟩ := hbefore.mem_paths_iff htick
  exact ⟨links, paths, hholds, hpaths, fun _ _ => best_of_iff hholds hpaths hall⟩

/-- Two links in a circle that costs nothing, and later on two links that lead there. -/
def circle : List Action :=
  [.add (searchOf 0).links ⟨"b", "c", 0⟩, .addNext (searchOf 0).links ⟨"c", "b", 0⟩, .tick,
    .merge (searchOf 0).links (.ofList [⟨"a", "b", 1⟩]),
    .addNext (searchOf 0).links ⟨"a", "c", 1⟩, .tick]

theorem run_chains_circle :
    ∃ steps q report links paths,
      ((declare "").runOn (.create 0 "n" none)).2.run 9 circle = .ok steps ∧
      steps[5]? = some (q, .ticked (.ok report)) ∧ (searchOf 0).Holds q.facts links paths ∧
      (∀ path, path ∈ paths ↔ ∃ c : Chain links, c.Gives path) ∧
      (searchOf 0).best q "a" "c" = .ok (some ⟨"a", "c", "", 1⟩) ∧
      ∀ c : Chain links, c.source = "a" → c.target = "c" → 1 ≤ c.cost := by
  have hsome : (((declare "").runOn (.create 0 "n" none)).2.run 9 circle).toOption.any
      (fun steps => steps[5]?.any fun step => step.2.report?.isSome &&
        ((searchOf 0).best step.1 "a" "c").toOption == some (some ⟨"a", "c", "", 1⟩)) = true := by
    decide +kernel
  obtain ⟨steps, hsteps, hsome⟩ := (Option.any_eq_true _ _).1 hsome
  obtain ⟨⟨q, outcome⟩, hstep, hsome⟩ := (Option.any_eq_true _ _).1 hsome
  obtain ⟨hticked, hbest⟩ := Bool.and_eq_true_iff.1 hsome
  obtain ⟨report, hreport⟩ := Option.isSome_iff_exists.1 hticked
  obtain rfl := Outcome.report?_eq_some.1 hreport
  have hrun := toOption_eq_some.1 hsteps
  have hbest := toOption_eq_some.1 (beq_iff_eq.1 hbest)
  have hdeclared : (declare "").runOn (.create 0 "n" none) =
      (.ok (searchOf 0), ((declare "").runOn (.create 0 "n" none)).2) := Prod.ext_iff.2 ⟨rfl, rfl⟩
  obtain ⟨links, paths, hholds, hpaths, hanswers⟩ :=
    run_chains hdeclared (by decide +kernel) hrun (List.mem_of_getElem? hstep)
  obtain ⟨answer, hanswer, _, hleast⟩ := hanswers "a" "c"
  obtain rfl := Except.ok.inj (hanswer.symm.trans hbest)
  obtain ⟨_, hcheapest⟩ := hleast _ rfl
  exact ⟨steps, q, report, links, paths, hrun, hstep, hholds, hpaths, hbest,
    fun c hsource htarget => (hcheapest c hsource htarget).1⟩

end ShortestPath

end Ratchet

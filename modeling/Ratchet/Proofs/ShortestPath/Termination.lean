import Ratchet.Proofs.Program.Growth
import Ratchet.Proofs.Program.Total
import Ratchet.Proofs.ShortestPath.Cycle
import Ratchet.Proofs.ShortestPath.Search

/-!
# When a path search comes to its end

A pass puts every link before every path that starts where the link ends.  So after `n` passes the
chains of up to `n` links have their paths (`ShortestPath.exists_passes`), provided that no sum is
out of range on the way; and as all sums are costs of chains, that is a matter of the links alone.
Once every chain has its path, a pass changes nothing (`ShortestPath.closed_of_covers`).

There may be infinitely many chains and only finitely many paths for them.  It is enough that every
path is given by a short chain, and closed walks that cost nothing can be left out of a chain; that
leaves chains with at most one link more than there are.

A closed walk that does cost something has repetitions of unbounded cost.  A completed tick would
have a path for each of them, so no tick completes: it breaks off with an overflow, or its passes
are used up.

## Main result

* `ShortestPath.run_terminates`: when a tick on a set of links completes, and within how many
  passes.
-/

namespace Ratchet

namespace ShortestPath

variable {search : ShortestPath} {scope : String} {program : Nat} {S T : Store}
  {links : GrowSet Link} {paths : GrowSet Path} {l : Link} {path : Path} {xs : List Path}

/-! ## Firing the rules -/

theorem extend_eq_error {fault : Fault} (h : extend l path = .error fault) : fault = .overflow := by
  unfold extend at h
  split at h
  · rcases bind_eq_error.1 h with hsum | ⟨_, _, heq⟩
    · unfold checkedAdd at hsum
      split at hsum
      · cases hsum
      · exact (Except.error.inj hsum).symm
    · cases heq
  · cases h

/-- A link goes before the path of a chain if the longer chain is in range. -/
theorem exists_extend {c : Chain links} (hrange : ∀ c : Chain links, c.InRange) (hl : l ∈ links)
    (hc : c.Gives path) : ∃ outcome, extend l path = .ok outcome := by
  by_cases hlinked : l.target = path.source
  · have hc' : l.target = c.source := hlinked.trans hc.source_eq
    obtain ⟨n, hn⟩ := Chain.inRange_iff.1 (hrange (c.cons l hl hc'))
    refine ⟨some ⟨l.source, path.target, l.target, n⟩, extend_eq_ok.2 ⟨hlinked, rfl, rfl, rfl, ?_⟩⟩
    rw [hn, Chain.cost_cons, hc.cost_eq]
  · unfold extend
    rw [if_neg hlinked]
    exact ⟨none, rfl⟩

/-- The relations hold the links, and paths that chains of these give. -/
structure Derives (search : ShortestPath) (program : Nat) (S : Store) (links : GrowSet Link)
    (paths : GrowSet Path) : Prop where
  holds : search.Holds ⟨program, S⟩ links paths
  slot_ne : search.links.id.slot ≠ search.paths.id.slot
  sound : ∀ path ∈ paths, ∃ c : Chain links, c.Gives path

namespace Derives

variable (hS : search.Derives program S links paths)

include hS

/-- A rule adds the paths that its selector gives. -/
theorem exists_fire {ρ : Type} {source : Source ρ} {sources : List String} {name : String}
    {select : Facts → ρ → Except Fault (Option Path)}
    (hxs : source.selected select ⟨program, S⟩ = .ok xs)
    (hgives : ∀ x ∈ xs, ∃ c : Chain links, c.Gives x) :
    ∃ T more, (joinRule sources name source search.paths .sameTick select).fire program S = .ok T ∧
      search.Derives program T links more ∧ (∀ x, x ∈ more ↔ x ∈ paths ∨ x ∈ xs) ∧
      ((∀ x ∈ xs, x ∈ paths) → T = S) := by
  have hmem : ∀ x, x ∈ xs.foldl GrowSet.insert paths ↔ x ∈ paths ∨ x ∈ xs :=
    fun x => GrowSet.mem_foldl_insert
  refine ⟨_, _, (Rule.fire_join rfl rfl hS.holds.paths_eq).2 ⟨xs, _, hxs, GrowSet.addAll_eq, rfl⟩,
    ⟨⟨?_, get_assign_self hS.holds.paths_eq⟩, hS.slot_ne, ?_⟩, hmem, ?_⟩
  · rw [get_assign_of_ne hS.slot_ne.symm]
    exact hS.holds.links_eq
  · intro x hx
    exact ((hmem x).1 hx).elim (hS.sound x) (hgives x)
  · intro hsub
    have hsame : xs.foldl GrowSet.insert paths = paths :=
      GrowSet.ext_mem fun x => (hmem x).trans (or_iff_left_of_imp (hsub x))
    rw [hsame]
    exact assign_of_get hS.holds.paths_eq

theorem exists_singles :
    ∃ xs, (Source.of search.links).selected (fun _ link => .ok (some (ofLink link)))
        ⟨program, S⟩ = .ok xs ∧ ∀ x, x ∈ xs ↔ ∃ l ∈ links, ofLink l = x := by
  have hrows := Source.rows_of hS.holds.links_eq
  have hexists : ∃ xs, (Source.of search.links).selected (fun _ link => .ok (some (ofLink link)))
      ⟨program, S⟩ = .ok xs := exists_selected hrows fun _ _ => ⟨_, rfl⟩
  obtain ⟨xs, hxs⟩ := hexists
  refine ⟨xs, hxs, fun x => (mem_selected hxs).trans ?_⟩
  constructor
  · rintro ⟨rows, hrows', l, hl, hselect⟩
    obtain rfl := Except.ok.inj (hrows'.symm.trans hrows)
    exact ⟨l, hl, Option.some.inj (Except.ok.inj hselect)⟩
  · rintro ⟨l, hl, rfl⟩
    exact ⟨_, hrows, l, hl, rfl⟩

theorem exists_longers (hrange : ∀ c : Chain links, c.InRange) :
    ∃ xs, ((Source.of search.links).product (.of search.paths)).selected
        (fun _ row => extend row.1 row.2) ⟨program, S⟩ = .ok xs ∧
      ∀ x, x ∈ xs ↔ ∃ l ∈ links, ∃ path ∈ paths, extend l path = .ok (some x) := by
  have hrows := rows_links_paths hS.holds
  have hmem : ∀ row : Link × Path,
      row ∈ links.elements.flatMap (fun l => paths.elements.map fun path => (l, path)) ↔
        row.1 ∈ links ∧ row.2 ∈ paths := by
    rintro ⟨l, path⟩
    simp only [List.mem_flatMap, List.mem_map, Prod.mk.injEq]
    constructor
    · rintro ⟨_, hl, _, hpath, rfl, rfl⟩
      exact ⟨hl, hpath⟩
    · rintro ⟨hl, hpath⟩
      exact ⟨l, hl, path, hpath, rfl, rfl⟩
  have hexists : ∃ xs, ((Source.of search.links).product (.of search.paths)).selected
      (fun _ row => extend row.1 row.2) ⟨program, S⟩ = .ok xs := by
    refine exists_selected hrows fun row hrow => ?_
    obtain ⟨hl, hpath⟩ := (hmem row).1 hrow
    obtain ⟨c, hc⟩ := hS.sound row.2 hpath
    exact exists_extend hrange hl hc
  obtain ⟨xs, hxs⟩ := hexists
  refine ⟨xs, hxs, fun x => (mem_selected hxs).trans ?_⟩
  constructor
  · rintro ⟨rows, hrows', row, hrow, hselect⟩
    obtain rfl := Except.ok.inj (hrows'.symm.trans hrows)
    obtain ⟨hl, hpath⟩ := (hmem row).1 hrow
    exact ⟨row.1, hl, row.2, hpath, hselect⟩
  · rintro ⟨l, hl, path, hpath, hselect⟩
    exact ⟨_, hrows, (l, path), (hmem (l, path)).2 ⟨hl, hpath⟩, hselect⟩

variable (scope)

/-- Firing the rule for links adds the paths of single links. -/
theorem exists_fire_linkRule :
    ∃ T more, (linkRule search scope).fire program S = .ok T ∧
      search.Derives program T links more ∧
      (∀ x, x ∈ more ↔ x ∈ paths ∨ ∃ l ∈ links, ofLink l = x) ∧
      ((∀ l ∈ links, ofLink l ∈ paths) → T = S) := by
  obtain ⟨xs, hxs, hmem⟩ := hS.exists_singles
  have hgives : ∀ x ∈ xs, ∃ c : Chain links, c.Gives x := by
    intro x hx
    obtain ⟨l, hl, rfl⟩ := (hmem x).1 hx
    exact ⟨.single l hl, Chain.gives_ofLink hl⟩
  obtain ⟨T, more, hfire, hT, hmore, hsame⟩ := hS.exists_fire hxs hgives
  refine ⟨T, more, hfire, hT, fun x => (hmore x).trans (or_congr_right (hmem x)), ?_⟩
  intro hsub
  apply hsame
  intro x hx
  obtain ⟨l, hl, rfl⟩ := (hmem x).1 hx
  exact hsub l hl

/-- Firing the rule for longer chains adds the paths with one link more. -/
theorem exists_fire_extendRule (hrange : ∀ c : Chain links, c.InRange) :
    ∃ T more, (extendRule search scope).fire program S = .ok T ∧
      search.Derives program T links more ∧
      (∀ x, x ∈ more ↔ x ∈ paths ∨ ∃ l ∈ links, ∃ path ∈ paths, extend l path = .ok (some x)) ∧
      ((∀ c : Chain links, ∃ path ∈ paths, c.Gives path) → T = S) := by
  obtain ⟨xs, hxs, hmem⟩ := hS.exists_longers hrange
  have hgives : ∀ x ∈ xs, ∃ c : Chain links, c.Gives x := by
    intro x hx
    obtain ⟨l, hl, path, hpath, hselect⟩ := (hmem x).1 hx
    obtain ⟨c, hc⟩ := hS.sound path hpath
    have hlinked : l.target = c.source := (extend_eq_ok.1 hselect).1.trans hc.source_eq
    exact ⟨c.cons l hl hlinked, gives_extend hc hl hlinked hselect⟩
  obtain ⟨T, more, hfire, hT, hmore, hsame⟩ := hS.exists_fire hxs hgives
  refine ⟨T, more, hfire, hT, fun x => (hmore x).trans (or_congr_right (hmem x)), ?_⟩
  intro hall
  apply hsame
  intro x hx
  obtain ⟨c, hc⟩ := hgives x hx
  obtain ⟨path, hpath, hc'⟩ := hall c
  exact hc.unique hc' ▸ hpath

end Derives

/-! ## Passes -/

/-- The chains of up to `n` links have their paths. -/
def Covers (links : GrowSet Link) (paths : GrowSet Path) (n : Nat) : Prop :=
  ∀ c : Chain links, c.length ≤ n → ∃ path ∈ paths, c.Gives path

namespace Derives

variable (scope)

/-- After a pass the chains with one link more have their paths. -/
theorem exists_pass (hS : search.Derives program S links paths)
    (hrange : ∀ c : Chain links, c.InRange) {n : Nat} (hcovers : Covers links paths n) :
    ∃ T changed more,
      pass program [linkRule search scope, extendRule search scope] S = .ok (T, changed) ∧
        search.Derives program T links more ∧ Covers links more (n + 1) := by
  obtain ⟨R, mid, hlink, hR, hmid, _⟩ := hS.exists_fire_linkRule scope
  obtain ⟨T, more, hextend, hT, hmore, _⟩ := hR.exists_fire_extendRule scope hrange
  obtain ⟨_, hpass⟩ := exists_pass_cons hextend (rfl : pass program [] T = .ok (T, false))
  obtain ⟨changed, hpass⟩ := exists_pass_cons hlink hpass
  refine ⟨T, changed, more, hpass, hT, ?_⟩
  intro c hlength
  induction c using Chain.induction with
  | single l hl =>
      have hsingle : ofLink l ∈ mid := (hmid _).2 (.inr ⟨l, hl, rfl⟩)
      exact ⟨ofLink l, (hmore _).2 (.inl hsingle), Chain.gives_ofLink hl⟩
  | cons l c hl hlinked _ =>
      obtain ⟨path, hpath, hc⟩ := hcovers c (Nat.le_of_succ_le_succ hlength)
      have hpath : path ∈ mid := (hmid path).2 (.inl hpath)
      obtain ⟨outcome, hselect⟩ := exists_extend hrange hl hc
      obtain ⟨longer, rfl⟩ := exists_longer (hlinked.trans hc.source_eq.symm) hselect
      exact ⟨longer, (hmore _).2 (.inr ⟨l, hl, path, hpath, hselect⟩),
        gives_extend hc hl hlinked hselect⟩

/-- After `k` passes the chains with `k` links more have their paths. -/
theorem exists_passes (hS : search.Derives program S links paths)
    (hrange : ∀ c : Chain links, c.InRange) {n : Nat} (hcovers : Covers links paths n) (k : Nat) :
    ∃ T more, passes program [linkRule search scope, extendRule search scope] k S = .ok T ∧
      search.Derives program T links more ∧ Covers links more (n + k) := by
  induction k generalizing S paths n with
  | zero => exact ⟨S, paths, rfl, hS, hcovers⟩
  | succ k ih =>
      obtain ⟨R, changed, mid, hpass, hR, hmid⟩ := hS.exists_pass scope hrange hcovers
      obtain ⟨T, more, hpasses, hT, hmore⟩ := ih hR hmid
      refine ⟨T, more, passes_succ.2 ⟨R, changed, hpass, hpasses⟩, hT, ?_⟩
      rw [← Nat.add_right_comm] at hmore
      exact hmore

/-- Once every chain has its path, the rules are closed. -/
theorem closed_of_covers (hS : search.Derives program S links paths)
    (hall : ∀ c : Chain links, ∃ path ∈ paths, c.Gives path) :
    ∀ r ∈ [linkRule search scope, extendRule search scope], r.Closed program S := by
  have hrange : ∀ c : Chain links, c.InRange := by
    intro c
    obtain ⟨path, _, hc⟩ := hall c
    exact hc.inRange
  have hsingles : ∀ l ∈ links, ofLink l ∈ paths := by
    intro l hl
    obtain ⟨path, hpath, hc⟩ := hall (.single l hl)
    exact (Chain.gives_ofLink hl).unique hc ▸ hpath
  obtain ⟨R, _, hlink, _, _, hR⟩ := hS.exists_fire_linkRule scope
  obtain ⟨T, _, hextend, _, _, hT⟩ := hS.exists_fire_extendRule scope hrange
  obtain rfl := hR hsingles
  obtain rfl := hT hall
  exact List.forall_mem_cons.2 ⟨hlink, List.forall_mem_cons.2 ⟨hextend, nofun⟩⟩

/-- If every chain stands for the same path as one with at most `n` links, then the passes settle,
with at most one pass after the first `n`. -/
theorem exists_settle (hS : search.Derives program S links paths)
    (hrange : ∀ c : Chain links, c.InRange) {n limit : Nat}
    (hshort : ∀ c : Chain links, ∃ d : Chain links, d.length ≤ n ∧ d.Matches c)
    (hlimit : n < limit) :
    ∃ T count, settle program [linkRule search scope, extendRule search scope] limit 0 S =
      .ok (.stable T count) ∧ count ≤ n + 1 := by
  have hnone : Covers links paths 0 := fun c hc => absurd c.length_pos (Nat.not_lt.2 hc)
  obtain ⟨T, more, hpasses, hT, hcovers⟩ := hS.exists_passes scope hrange hnone n
  have hall : ∀ c : Chain links, ∃ path ∈ more, c.Gives path := by
    intro c
    obtain ⟨d, hd, hmatches⟩ := hshort c
    obtain ⟨path, hpath, hgives⟩ := hcovers d (by omega)
    exact ⟨path, hpath, hgives.of_matches hmatches⟩
  have hclosed := hT.closed_of_covers scope hall
  obtain ⟨count, hsettle, hcount⟩ : ∃ count, settle program _ limit 0 S = .ok (.stable T count) ∧
      count ≤ 0 + n + 1 := exists_settle_of_passes hpasses hclosed hlimit
  exact ⟨T, count, hsettle, by omega⟩

end Derives

/-! ## Breaking off -/

namespace Derives

/-- The rules add paths that chains give, and leave the links alone. -/
theorem of_fire (hS : search.Derives program S links paths) {r : Rule}
    (hr : r ∈ [linkRule search scope, extendRule search scope])
    (hfire : r.fire program S = .ok T) : ∃ more, search.Derives program T links more := by
  have hsound : search.Sound ⟨program, S⟩ := ⟨links, paths, hS.holds, hS.sound⟩
  have htarget : r.target = search.paths.id.slot ∧ search.Sound ⟨program, T⟩ := by
    simp only [List.mem_cons, List.not_mem_nil, or_false] at hr
    rcases hr with rfl | rfl
    · exact ⟨rfl, hsound.fire_linkRule hS.slot_ne hfire⟩
    · exact ⟨rfl, hsound.fire_extendRule hS.slot_ne hfire⟩
  obtain ⟨htarget, links', more, hholds, hgives⟩ := htarget
  obtain ⟨ds, count, hds, hall⟩ := Rule.fire_eq_ok.1 hfire
  have hkept : (Facts.mk program T).get search.links = (Facts.mk program S).get search.links := by
    refine get_of_depositAll_of_ne ?_ hall
    intro d hd
    rw [Rule.slot_of_mem_consequences hds hd, htarget]
    exact hS.slot_ne.symm
  obtain rfl : links' = links :=
    Except.ok.inj (hholds.links_eq.symm.trans (hkept.trans hS.holds.links_eq))
  exact ⟨more, hholds, hS.slot_ne, hgives⟩

/-- Firing a rule breaks off with nothing but an overflow. -/
theorem fault_of_fire (hS : search.Derives program S links paths) {r : Rule} {fault : Fault}
    (hr : r ∈ [linkRule search scope, extendRule search scope])
    (hfire : r.fire program S = .error fault) : fault = .overflow := by
  simp only [List.mem_cons, List.not_mem_nil, or_false] at hr
  rcases hr with rfl | rfl
  · obtain ⟨T, _, hok, _⟩ := hS.exists_fire_linkRule scope
    cases hfire.symm.trans hok
  · cases hselected : ((Source.of search.links).product (.of search.paths)).selected
        (fun _ row => extend row.1 row.2) ⟨program, S⟩ with
    | ok xs =>
        have hok := (Rule.fire_join (r := extendRule search scope) rfl rfl hS.holds.paths_eq).2
          ⟨xs, _, hselected, GrowSet.addAll_eq, rfl⟩
        cases hfire.symm.trans hok
    | error fault' =>
        have hconsequences : (extendRule search scope).consequences ⟨program, S⟩ =
            .error fault' := by
          rw [Rule.consequences_eq rfl, hselected]
          rfl
        have herror : (extendRule search scope).fire program S = .error fault' :=
          bind_eq_error.2 (.inl hconsequences)
        obtain rfl := Except.error.inj (hfire.symm.trans herror)
        rcases bind_eq_error.1 hselected with hrows | ⟨rows, _, hselected⟩
        · cases hrows.symm.trans (rows_links_paths hS.holds)
        · rcases bind_eq_error.1 hselected with houtcomes | ⟨_, _, heq⟩
          · obtain ⟨row, _, hrow⟩ := mapM_eq_error houtcomes
            exact extend_eq_error hrow
          · cases heq

variable (scope) in
/-- If some chain is out of range, then the passes do not settle. -/
theorem settle_of_not_inRange (hS : search.Derives program S links paths) {c : Chain links}
    (hc : ¬ c.InRange) (limit : Nat) :
    settle program [linkRule search scope, extendRule search scope] limit 0 S = .error .overflow ∨
      ∃ T, settle program [linkRule search scope, extendRule search scope] limit 0 S =
        .ok (.unstable T) := by
  have hfire : ∀ r ∈ [linkRule search scope, extendRule search scope], ∀ S T,
      (∃ paths, search.Derives program S links paths) → r.fire program S = .ok T →
        ∃ more, search.Derives program T links more := by
    rintro r hr S T ⟨paths, hS⟩ hfire
    exact hS.of_fire hr hfire
  cases hsettle : settle program [linkRule search scope, extendRule search scope] limit 0 S with
  | error fault =>
      obtain ⟨T, hT, hfault⟩ := fault_of_settle
        (fun _ _ _ hS hpass => of_pass hfire hS hpass) ⟨paths, hS⟩ hsettle
      obtain ⟨r, hr, U, ⟨more, hU⟩, hfault⟩ := fault_of_pass hfire hT hfault
      obtain rfl := hU.fault_of_fire hr hfault
      exact .inl rfl
  | ok settled =>
      cases settled with
      | unstable T => exact .inr ⟨T, rfl⟩
      | stable T count =>
          -- a closed store has a path for the chain, and the path carries its cost
          obtain ⟨_, hpasses, hclosed⟩ := passes_of_settle hsettle
          obtain ⟨more, hT⟩ := of_passes (P := fun T => ∃ more, search.Derives program T links more)
            (fun _ _ _ hS hpass => of_pass hfire hS hpass) ⟨paths, hS⟩ hpasses
          obtain ⟨hlink, hclosed⟩ := List.forall_mem_cons.1 hclosed
          obtain ⟨path, _, hgives⟩ :=
            exists_gives hT.holds hlink (hclosed _ List.mem_cons_self) c
          exact absurd hgives.inRange hc

end Derives

/-! ## Ticks -/

/-- The links are those that are stored and those that wait for the next tick. -/
def Supplied (search : ShortestPath) (p : Program) (links : GrowSet Link) : Prop :=
  ∃ stored, p.facts.get search.links = .ok stored ∧
    ∀ l, l ∈ links ↔ l ∈ stored ∨ l ∈ p.waiting search.links

namespace Serves

variable {p q : Program} {patience n : Nat} (h : search.Serves scope p) (hfit : p.AllFit)
  (hlinks : search.Supplied p links)

include h hfit hlinks

/-- The passes of a tick start with the links, and with paths from ticks before. -/
theorem exists_start : ∃ start applied paths,
    p.store.resetScratch.depositAll p.id p.pending = .ok (start, applied) ∧
      search.Derives p.id start links paths := by
  obtain ⟨stored, hstored, hlinks⟩ := hlinks
  rw [h.resetScratch_eq]
  have htotal : ∀ d ∈ p.pending, d.Fits p.id p.store ∧ d.write.type.IsTotal := by
    intro d hd
    refine ⟨hfit d hd, ?_⟩
    obtain ⟨target, ⟨_, s, hs, htype⟩, hslot⟩ := hfit d hd
    obtain ⟨_, s', hs', hread⟩ := Facts.get_eq_ok.1 hstored
    obtain ⟨htype', _⟩ := Slot.valueAs_eq_ok.1 hread
    rw [← hslot, h.pending d hd] at hs
    obtain rfl := Option.some.inj (hs.symm.trans hs')
    rw [← htype, htype']
    trivial
  obtain ⟨start, applied, hstart⟩ := Store.exists_depositAll_of_fits htotal
  obtain ⟨more, hmore, hmem⟩ := exists_get_of_depositAll hstored hstart
  obtain rfl : more = links := by
    apply GrowSet.ext_mem
    intro l
    rw [hmem, hlinks, Program.mem_waiting]
  obtain ⟨links', paths, hholds, hsound⟩ := h.sound.depositAll h.slot_ne h.pending hstart
  obtain rfl := Except.ok.inj (hmore.symm.trans hholds.links_eq)
  exact ⟨start, applied, paths, hstart, hholds, h.slot_ne, hsound⟩

/-- A tick completes if all chains are in range and short ones give all paths. -/
theorem exists_tick (hrange : ∀ c : Chain links, c.InRange)
    (hshort : ∀ c : Chain links, ∃ d : Chain links, d.length ≤ n ∧ d.Matches c)
    (hlimit : n + 1 ≤ p.passLimit.getD patience) :
    ∃ q report, p.tick patience = .ok (q, .ok report) ∧ report.passes ≤ n + 1 := by
  obtain ⟨start, applied, paths, hstart, hS⟩ := h.exists_start hfit hlinks
  obtain ⟨T, count, hsettle, hcount⟩ := hS.exists_settle scope hrange hshort hlimit
  rw [← h.sameTickRules_eq] at hsettle
  have hqueue : allConsequences ⟨p.id, T⟩ p.nextTickRules = .ok [] := by
    rw [h.nextTickRules_eq]
    rfl
  have htick := Program.tick_eq_ok.2
    ⟨start, applied, T, count, [], hstart, hsettle, hqueue, rfl, rfl⟩
  exact ⟨_, _, htick, hcount⟩

/-- If some chain is out of range, then no tick completes. -/
theorem tick_of_not_inRange {c : Chain links} (hc : ¬ c.InRange) (patience : Nat) :
    p.tick patience = .error .overflow ∨
      (p.passLimit = none ∧ p.tick patience = .error .exhausted) ∨
      ∃ q k, p.passLimit = some k ∧
        p.tick patience = .ok (q, .error (.diverged p.addr p.ticks k)) := by
  obtain ⟨start, applied, paths, hstart, hS⟩ := h.exists_start hfit hlinks
  have hsettle := hS.settle_of_not_inRange scope hc (p.passLimit.getD patience)
  rw [← h.sameTickRules_eq] at hsettle
  rcases hsettle with hsettle | ⟨T, hsettle⟩
  · exact .inl (bind_eq_error.2 (.inr ⟨_, hstart, bind_eq_error.2 (.inl hsettle)⟩))
  · refine .inr ?_
    cases hlimit : p.passLimit with
    | none =>
        refine .inl ⟨rfl, ?_⟩
        refine bind_eq_error.2 (.inr ⟨_, hstart, bind_eq_error.2 (.inr ⟨_, hsettle, ?_⟩)⟩)
        simp only [hlimit]
        rfl
    | some k =>
        refine .inr ⟨{ p with store := T, pending := [] }, k, rfl, ?_⟩
        refine bind_eq_ok.2 ⟨_, hstart, bind_eq_ok.2 ⟨_, hsettle, ?_⟩⟩
        simp only [hlimit]
        rfl

omit h hfit hlinks

/-- Nothing but links is done to the program, through a handle that it has given out. -/
theorem of_run_allFit {actions : List Action} {steps : List (Program × Outcome)}
    (hp : search.Serves scope p) (hfit : p.AllFit)
    (hactions : ∀ a ∈ actions, a.Fits p.id p.store ∧
      ∀ target, a.target? = some target → target = search.links.id)
    (hrun : p.run patience actions = .ok steps) (hq : q ∈ p :: steps.map Prod.fst) :
    search.Serves scope q ∧ q.AllFit := by
  induction actions generalizing p steps with
  | nil =>
      cases hrun
      obtain rfl := List.mem_singleton.1 hq
      exact ⟨hp, hfit⟩
  | cons action actions ih =>
      obtain ⟨p', outcome, rest, hperform, hrest, rfl⟩ := Program.run_cons.1 hrun
      obtain ⟨⟨haction, htarget⟩, hactions⟩ := List.forall_mem_cons.1 hactions
      rcases List.mem_cons.1 hq with rfl | hq
      · exact ⟨hp, hfit⟩
      · have hsame := Program.sameSetup_of_perform hperform
        have hfit' : p'.AllFit := by
          rcases hfit.of_perform haction hperform with ⟨_, htick⟩ | hfit'
          · intro d hd
            rw [hp.pending_of_tick htick] at hd
            cases hd
          · exact hfit'
        refine ih (hp.perform htarget hperform) hfit' ?_ hrest hq
        intro a ha
        obtain ⟨hfits, htarget⟩ := hactions a ha
        refine ⟨?_, htarget⟩
        rw [hsame.id_eq]
        exact hfits.of_sameShape hsame.sameShape

end Serves

/-! ## Runs -/

variable {p q : Program} {id patience : Nat} {here : String} {limit : Option Nat}

/-- Any links can be put on a fresh program. -/
theorem exists_supplied
    (hdeclared : (declare scope).runOn (.create id here limit) = (.ok search, p))
    (links : GrowSet Link) : ∃ q outcome,
      p.run patience [.merge search.links links] = .ok [(q, outcome)] ∧
        q.passLimit = limit ∧ search.Supplied q links := by
  obtain ⟨hsearch, heq⟩ := Prod.mk.inj (runOn_declare.symm.trans hdeclared)
  obtain rfl := Except.ok.inj hsearch
  have hpending : p.pending = [] := heq ▸ rfl
  have hlimit : p.passLimit = limit := heq ▸ rfl
  have hempty : p.facts.get (searchOf id).links = .ok GrowSet.empty := by
    rw [← heq]
    exact Facts.get_eq_ok.2 ⟨rfl, _, rfl, Slot.valueAs_eq_ok.2 ⟨rfl, rfl⟩⟩
  obtain ⟨s, hslot⟩ := (Handle.declared_iff.2 ⟨_, hempty⟩).exists_slot
  obtain ⟨grew, hdeposit⟩ := deposit_merge (b := links) hempty rfl
  let q : Program :=
    { p with store := p.store.assign (searchOf id).links (GrowSet.empty.union links) }
  have hperform : p.perform patience (.merge (searchOf id).links links) =
      .ok (q, .deposited grew) := by
    refine bind_eq_ok.2 ⟨(q, grew), bind_eq_ok.2 ⟨s, ?_, bind_eq_ok.2 ⟨_, hdeposit, rfl⟩⟩, rfl⟩
    rw [Program.facts, hslot]
    rfl
  refine ⟨q, .deposited grew, Program.run_cons.2 ⟨q, _, [], hperform, rfl, rfl⟩, hlimit,
    GrowSet.empty.union links, get_assign_self hempty, ?_⟩
  intro l
  have hwaiting : l ∉ q.waiting (searchOf id).links := by
    rw [Program.mem_waiting, show q.pending = [] from hpending]
    rintro ⟨d, hd, _⟩
    cases hd
  rw [or_iff_left hwaiting, GrowSet.mem_union]
  exact (or_iff_right List.not_mem_nil).symm

/-- What decides whether a path search comes to its end are the costs of the chains of its links.

If all of them are in range and no closed walk costs anything, then a tick on the links completes,
whether or not its passes are bounded, as soon as there may be two passes more than there are links.
If no chain is longer than some number of links, then there need be only one pass more than that.

A closed walk that costs something, and a chain that is out of range, keep every tick from
completing: it breaks off with an overflow, or it is still changing paths when its passes are used
up. -/
theorem run_terminates {actions : List Action} {steps : List (Program × Outcome)}
    {links : GrowSet Link}
    (hdeclared : (declare scope).runOn (.create id here limit) = (.ok search, p))
    (hactions : ∀ a ∈ actions, a.Fits p.id p.store ∧
      ∀ target, a.target? = some target → target = search.links.id)
    (hrun : p.run patience actions = .ok steps) (hq : q ∈ p :: steps.map Prod.fst)
    (hlinks : search.Supplied q links) :
    ((∀ c : Chain links, c.InRange) →
      ((∀ c : Chain links, c.target = c.source → c.cost = 0) →
        ∀ patience, links.size + 2 ≤ q.passLimit.getD patience →
          ∃ q' report, q.tick patience = .ok (q', .ok report)) ∧
      ∀ longest, (∀ c : Chain links, c.length ≤ longest) →
        ∀ patience, longest + 1 ≤ q.passLimit.getD patience →
          ∃ q' report, q.tick patience = .ok (q', .ok report) ∧ report.passes ≤ longest + 1) ∧
    ((∃ c : Chain links, c.target = c.source ∧ c.cost ≠ 0 ∨ ¬ c.InRange) →
      ∀ patience, q.tick patience = .error .overflow ∨
        (q.passLimit = none ∧ q.tick patience = .error .exhausted) ∨
        ∃ q' k, q.passLimit = some k ∧
          q.tick patience = .ok (q', .error (.diverged q.addr q.ticks k))) := by
  have hp := serves_declared hdeclared
  have hnone : p.AllFit := by
    obtain ⟨_, rfl⟩ := Prod.mk.inj (runOn_declare.symm.trans hdeclared)
    exact nofun
  obtain ⟨hserves, hfit⟩ := hp.of_run_allFit hnone hactions hrun hq
  refine ⟨fun hrange => ⟨?_, ?_⟩, ?_⟩
  · intro hzero patience hlimit
    obtain ⟨q', report, htick, _⟩ :=
      hserves.exists_tick hfit hlinks hrange (Chain.exists_short hzero) hlimit
    exact ⟨q', report, htick⟩
  · intro longest hlongest patience hlimit
    exact hserves.exists_tick hfit hlinks hrange
      (fun c => ⟨c, hlongest c, rfl, rfl, rfl, rfl⟩) hlimit
  · rintro ⟨c, ⟨hclosed, hcost⟩ | hc⟩ patience
    · obtain ⟨d, hd⟩ := Chain.exists_not_inRange hclosed hcost
      exact hserves.tick_of_not_inRange hfit hlinks hd patience
    · exact hserves.tick_of_not_inRange hfit hlinks hc patience

/-- Two links in a circle, up by three and back by some cost. -/
def circleOf (back : Int64) : GrowSet Link := .ofList [⟨"a", "b", 3⟩, ⟨"b", "a", back⟩]

/-- A circle that leads back to the same cost is searched within four passes, and no tick completes
on one that does not. -/
theorem run_terminates_circles : ∃ p q r outcome outcome',
    (declare "").runOn (.create 0 "n" (some 4)) = (.ok (searchOf 0), p) ∧
      p.run 1 [.merge (searchOf 0).links (circleOf (-3))] = .ok [(q, outcome)] ∧
      (∃ q' report, q.tick 1 = .ok (q', .ok report)) ∧
      p.run 1 [.merge (searchOf 0).links (circleOf (-2))] = .ok [(r, outcome')] ∧
      ∀ patience r' report, r.tick patience ≠ .ok (r', .ok report) := by
  obtain ⟨p, hdeclared⟩ : ∃ p,
      (declare "").runOn (.create 0 "n" (some 4)) = (.ok (searchOf 0), p) := ⟨_, runOn_declare⟩
  have hactions : ∀ links, ∀ a ∈ [Action.merge (searchOf 0).links links], a.Fits p.id p.store ∧
      ∀ target, a.target? = some target → target = (searchOf 0).links.id := by
    obtain ⟨_, rfl⟩ := Prod.mk.inj (runOn_declare.symm.trans hdeclared)
    intro links a ha
    obtain rfl := List.mem_singleton.1 ha
    exact ⟨⟨rfl, _, rfl, rfl⟩, fun target htarget => (Option.some.inj htarget).symm⟩
  obtain ⟨q, outcome, hrun, hlimit, hlinks⟩ := exists_supplied hdeclared (circleOf (-3))
  obtain ⟨r, outcome', hrun', _, hlinks'⟩ := exists_supplied hdeclared (circleOf (-2))
  have hq := (run_terminates hdeclared (hactions _) hrun (by simp) hlinks).1
  have hr := (run_terminates hdeclared (hactions _) hrun' (by simp) hlinks').2
  refine ⟨p, q, r, outcome, outcome', hdeclared, hrun, ?_, hrun', ?_⟩
  · let height : String → Int := fun node => if node = "b" then 3 else 0
    have hheight : ∀ l ∈ (circleOf (-3)).elements,
        l.cost.toInt = height l.target - height l.source := by decide +kernel
    have hcost : ∀ c : Chain (circleOf (-3)), c.cost = height c.target - height c.source :=
      Chain.cost_of_height hheight
    have hlower : Int64.minValue.toInt = -2 ^ 63 := by decide
    have hupper : Int64.maxValue.toInt = 2 ^ 63 - 1 := by decide
    refine (hq ?_).1 ?_ 1 ?_
    · intro c
      have hbetween : ∀ node, 0 ≤ height node ∧ height node ≤ 3 := by
        intro node
        dsimp only [height]
        split <;> omega
      obtain ⟨hsource, hsource'⟩ := hbetween c.source
      obtain ⟨htarget, htarget'⟩ := hbetween c.target
      have hc := hcost c
      exact ⟨by omega, by omega⟩
    · intro c hclosed
      rw [hcost, hclosed, Int.sub_self]
    · rw [hlimit]
      decide +kernel
  · have hmem : ∀ l ∈ [⟨"a", "b", 3⟩, ⟨"b", "a", -2⟩], l ∈ (circleOf (-2)).elements := by
      decide +kernel
    let back : Chain (circleOf (-2)) := ⟨⟨"a", "b", 3⟩, [⟨"b", "a", -2⟩], hmem, by decide +kernel⟩
    have hcost : back.cost = 1 := rfl
    intro patience r' report htick
    have hfails := hr ⟨back, .inl ⟨rfl, by omega⟩⟩ patience
    rw [htick] at hfails
    rcases hfails with heq | ⟨_, heq⟩ | ⟨_, _, _, heq⟩ <;> cases heq

end ShortestPath

end Ratchet

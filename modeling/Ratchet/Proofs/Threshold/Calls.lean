import Mathlib.Data.Finset.Card
import Ratchet.Proofs.Program.Immediate
import Ratchet.Proofs.Program.Total

/-!
# Votes and thresholds over time

What happens to a count of votes: votes come in, one by one or many at a time, at once or for the
next tick, the threshold is raised, and ticks are taken.  A list of such calls is the history of a
count, and all that matters of it is read off the list: the voters (`voters`), the threshold in
force (`threshold`), and whether at some tick there were enough of them (`Reached`).

A program that is called in this way has two relations that are written from outside.  Whatever the
timing of a call, what the next tick starts from has all votes and raises up to now
(`Collects.of_call`), and nothing else is different.  A tick that leaves the two relations alone
keeps that (`Collects.of_tick`).  `Keeps` carries an invariant of single calls and ticks through
whole runs.
-/

namespace Ratchet.Threshold

/-- What happens to a count of votes. -/
inductive Call (f : FactType) where
  | vote (timing : Timing) (vote : f.Carrier)
  | votes (timing : Timing) (votes : GrowSet f.Carrier)
  | raise (timing : Timing) (threshold : Int64)
  /-- A whole register is merged into the threshold. -/
  | raiseTo (timing : Timing) (threshold : MaxInt)
  | tick

namespace Call

variable {f : FactType}

/-- What is done to the program. -/
def action (votes : Handle (.set f)) (need : Handle .max) : Call f → Action
  | vote timing v => .addAt timing votes v
  | .votes timing vs => .mergeAt timing votes vs
  | raise timing n => .addAt timing need n
  | raiseTo timing n => .mergeAt timing need n
  | tick => .tick

/-- The votes that come in. -/
def ballots : Call f → List f.Carrier
  | vote _ v => [v]
  | votes _ vs => vs.elements
  | raise .. | raiseTo .. | tick => []

/-- The thresholds that are asked for. -/
def raised : Call f → List Int64
  | raise _ n => [n]
  | raiseTo _ n => [n.value]
  | vote .. | votes .. | tick => []

end Call

/-! ## Histories -/

section Histories

variable {f : FactType} {calls calls' : List (Call f)} {call : Call f}

/-- The votes of a history. -/
def ballots (calls : List (Call f)) : List f.Carrier := calls.flatMap Call.ballots

/-- The threshold in force after a history: the greatest that was asked for, and at least zero. -/
def threshold (calls : List (Call f)) : Int :=
  (calls.flatMap Call.raised).foldl (fun greatest n => max greatest n.toInt) 0

/-- The distinct voters of a history. -/
def voters (calls : List (Call .text)) : Finset String := (ballots calls).toFinset

/-- At one of the ticks there were as many voters as the threshold in force asked for. -/
def Reached (calls : List (Call .text)) : Prop :=
  ∃ earlier later, calls = earlier ++ .tick :: later ∧ threshold earlier ≤ (voters earlier).card

theorem ballots_concat : ballots (calls ++ [call]) = ballots calls ++ call.ballots := by
  simp [ballots]

theorem mem_voters {calls : List (Call .text)} {voter : String} :
    voter ∈ voters calls ↔ voter ∈ ballots calls := List.mem_toFinset

theorem threshold_append : threshold (calls ++ calls') =
    (calls'.flatMap Call.raised).foldl (fun greatest n => max greatest n.toInt)
      (threshold calls) := by
  rw [threshold, List.flatMap_append, List.foldl_append]
  rfl

theorem threshold_concat : threshold (calls ++ [call]) =
    call.raised.foldl (fun greatest n => max greatest n.toInt) (threshold calls) := by
  rw [threshold_append, List.flatMap_singleton]

/-- A history splits at a tick before its last call, or the last call is the tick. -/
theorem concat_eq_append_tick {earlier later : List (Call f)} :
    calls ++ [call] = earlier ++ .tick :: later ↔
      (∃ between, later = between ++ [call] ∧ calls = earlier ++ .tick :: between) ∨
        (later = [] ∧ earlier = calls ∧ call = .tick) := by
  constructor
  · intro h
    rcases List.eq_nil_or_concat' later with rfl | ⟨between, last, rfl⟩
    · obtain ⟨hcalls, hcall⟩ := List.append_inj' h rfl
      exact .inr ⟨rfl, hcalls.symm, List.singleton_inj.1 hcall⟩
    · rw [← List.cons_append, ← List.append_assoc] at h
      obtain ⟨hcalls, hcall⟩ := List.append_inj' h rfl
      obtain rfl := List.singleton_inj.1 hcall
      exact .inl ⟨between, rfl, hcalls⟩
  · rintro (⟨between, rfl, rfl⟩ | ⟨rfl, rfl, rfl⟩)
    · simp
    · rfl

theorem reached_concat {calls : List (Call .text)} {call : Call .text} (hcall : call ≠ .tick) :
    Reached (calls ++ [call]) ↔ Reached calls := by
  constructor
  · rintro ⟨earlier, later, hsplit, hle⟩
    rcases concat_eq_append_tick.1 hsplit with ⟨between, _, hcalls⟩ | ⟨_, _, heq⟩
    · exact ⟨earlier, between, hcalls, hle⟩
    · exact absurd heq hcall
  · rintro ⟨earlier, later, hcalls, hle⟩
    exact ⟨earlier, _, concat_eq_append_tick.2 (.inl ⟨later, rfl, hcalls⟩), hle⟩

theorem reached_concat_tick {calls : List (Call .text)} :
    Reached (calls ++ [.tick]) ↔ Reached calls ∨ threshold calls ≤ (voters calls).card := by
  constructor
  · rintro ⟨earlier, later, hsplit, hle⟩
    rcases concat_eq_append_tick.1 hsplit with ⟨between, _, hcalls⟩ | ⟨_, rfl, _⟩
    · exact .inl ⟨earlier, between, hcalls, hle⟩
    · exact .inr hle
  · rintro (⟨earlier, later, hcalls, hle⟩ | hle)
    · exact ⟨earlier, _, concat_eq_append_tick.2 (.inl ⟨later, rfl, hcalls⟩), hle⟩
    · exact ⟨calls, [], rfl, hle⟩

/-- While the threshold in force stays the same, only the last of the ticks matters, as voters do
not get fewer. -/
theorem reached_iff_of_constant {calls : List (Call .text)}
    (hconstant : ∀ earlier later, calls = earlier ++ .tick :: later →
      threshold earlier = threshold calls) :
    Reached (calls ++ [.tick]) ↔ threshold calls ≤ (voters calls).card := by
  rw [reached_concat_tick]
  refine or_iff_right_of_imp ?_
  rintro ⟨earlier, later, hcalls, hle⟩
  rw [hconstant earlier later hcalls] at hle
  have hsub : voters earlier ⊆ voters calls := by
    intro voter hvoter
    rw [mem_voters] at hvoter ⊢
    rw [hcalls, ballots, List.flatMap_append]
    exact List.mem_append_left _ hvoter
  have hcard : ((voters earlier).card : Int) ≤ (voters calls).card := by
    exact_mod_cast Finset.card_le_card hsub
  exact hle.trans hcard

end Histories

/-! ## The relations that are written from outside -/

/-- Relations of different types have slots of their own. -/
theorem slot_ne_of_type {program : Nat} {S : Store} {t u : RelationType} {h : Handle t}
    {k : Handle u} {v : t.Value} {w : u.Value} (hv : (Facts.mk program S).get h = .ok v)
    (hw : (Facts.mk program S).get k = .ok w) (htu : t ≠ u) : h.id.slot ≠ k.id.slot := by
  intro hslot
  obtain ⟨_, s, hs, htype⟩ := Handle.declared_iff.2 ⟨v, hv⟩
  obtain ⟨_, s', hs', htype'⟩ := Handle.declared_iff.2 ⟨w, hw⟩
  rw [hslot, hs'] at hs
  obtain rfl := Option.some.inj hs
  exact htu (htype.symm.trans htype')

section Collects

variable {f : FactType} {votes : Handle (.set f)} {need : Handle .max} {p q : Program}
  {S U : Store} {calls : List (Call f)} {call : Call f} {patience : Nat} {outcome : Outcome}

/-- A program without scratch relations has taken up a history: its next tick starts from all votes
and from the threshold in force. -/
structure Collects (votes : Handle (.set f)) (need : Handle .max) (p : Program) (S : Store)
    (calls : List (Call f)) : Prop where
  starts : p.StartsFrom S
  lasting : ∀ s ∈ p.store, s.scratch = false
  votes : ∃ all, (Facts.mk p.id S).get votes = .ok all ∧ ∀ v, v ∈ all ↔ v ∈ ballots calls
  need : ∃ n, (Facts.mk p.id S).get need = .ok n ∧ n.value.toInt = threshold calls

namespace Collects

/-- A program with nothing in it has taken up an empty history. -/
theorem of_empty (hlasting : ∀ s ∈ p.store, s.scratch = false) (hpending : p.pending = [])
    (hvotes : p.facts.get votes = .ok GrowSet.empty) (hneed : p.facts.get need = .ok ⟨0⟩) :
    Collects votes need p p.store [] where
  starts := Program.startsFrom_of_pending_nil hlasting hpending
  lasting := hlasting
  votes := ⟨.empty, hvotes, by simp [ballots]⟩
  need := ⟨⟨0⟩, hneed, rfl⟩

/-- A deposit that is made in what the next tick starts from is made in the program at some time. -/
theorem startsFrom_of_perform {t : RelationType} {h : Handle t} {v w : t.Value} {x : Write}
    {grew : Bool} {action : Action} (hp : Collects votes need p S calls)
    (haction : action.deposit? = some (h.id, x)) (hv : (Facts.mk p.id S).get h = .ok v)
    (hdeposit : S.deposit p.id ⟨h.id.slot, x⟩ = .ok (S.assign h w, grew))
    (hperform : p.perform patience action = .ok (q, outcome)) :
    q.StartsFrom (S.assign h w) ∧ (∀ s ∈ q.store, s.scratch = false) ∧ q.id = p.id := by
  obtain ⟨_, s', hs', _⟩ := Facts.get_eq_ok.1 hv
  obtain ⟨s, hs⟩ := Store.exists_of_length_eq hp.starts.sameShape.1.symm hs'
  have hscratch := hp.lasting s (List.mem_of_getElem? hs)
  have hsetup := Program.sameSetup_of_perform hperform
  exact ⟨hp.starts.of_perform haction hs hscratch hdeposit hperform,
    hsetup.sameShape.forall_scratch hp.lasting, hsetup.id_eq⟩

/-- More votes are in what the next tick starts from. -/
theorem of_votes {all all' : GrowSet f.Carrier} {x : Write} {grew : Bool}
    (hp : Collects votes need p S calls) (hall : (Facts.mk p.id S).get votes = .ok all)
    (hmem : ∀ v, v ∈ all' ↔ v ∈ ballots (calls ++ [call])) (hraised : call.raised = [])
    (haction : (call.action votes need).deposit? = some (votes.id, x))
    (hdeposit : S.deposit p.id ⟨votes.id.slot, x⟩ = .ok (S.assign votes all', grew))
    (hperform : p.perform patience (call.action votes need) = .ok (q, outcome)) :
    Collects votes need q (S.assign votes all') (calls ++ [call]) := by
  obtain ⟨hstarts, hlasting, hid⟩ := hp.startsFrom_of_perform haction hall hdeposit hperform
  obtain ⟨n, hn, hthreshold⟩ := hp.need
  rw [← hid] at hall hn
  refine ⟨hstarts, hlasting, ⟨all', get_assign_self hall, hmem⟩, n, ?_, ?_⟩
  · exact (get_assign_of_ne (slot_ne_of_type hall hn nofun)).trans hn
  · rw [threshold_concat, hraised, hthreshold]
    rfl

/-- A greater threshold is in what the next tick starts from. -/
theorem of_raise {n n' : MaxInt} {x : Write} {grew : Bool} (hp : Collects votes need p S calls)
    (hn : (Facts.mk p.id S).get need = .ok n)
    (hthreshold : n'.value.toInt = threshold (calls ++ [call])) (hballots : call.ballots = [])
    (haction : (call.action votes need).deposit? = some (need.id, x))
    (hdeposit : S.deposit p.id ⟨need.id.slot, x⟩ = .ok (S.assign need n', grew))
    (hperform : p.perform patience (call.action votes need) = .ok (q, outcome)) :
    Collects votes need q (S.assign need n') (calls ++ [call]) := by
  obtain ⟨hstarts, hlasting, hid⟩ := hp.startsFrom_of_perform haction hn hdeposit hperform
  obtain ⟨all, hall, hmem⟩ := hp.votes
  rw [← hid] at hall hn
  refine ⟨hstarts, hlasting, ⟨all, ?_, ?_⟩, n', get_assign_self hn, hthreshold⟩
  · exact (get_assign_of_ne (slot_ne_of_type hn hall nofun)).trans hall
  · rw [ballots_concat, hballots, List.append_nil]
    exact hmem

/-- A call that is not a tick joins the history, and nothing else changes in what the next tick
starts from. -/
theorem of_call (hp : Collects votes need p S calls) (hcall : call ≠ .tick)
    (hperform : p.perform patience (call.action votes need) = .ok (q, outcome)) :
    ∃ T, Collects votes need q T (calls ++ [call]) ∧
      ∀ {t : RelationType} {h : Handle t}, votes.id.slot ≠ h.id.slot → need.id.slot ≠ h.id.slot →
        (Facts.mk q.id T).get h = (Facts.mk p.id S).get h := by
  obtain ⟨all, hall, hmem⟩ := hp.votes
  obtain ⟨n, hn, hthreshold⟩ := hp.need
  have hid : q.id = p.id := (Program.sameSetup_of_perform hperform).id_eq
  cases call with
  | vote timing v =>
      refine ⟨_, hp.of_votes hall ?_ rfl Action.deposit?_addAt
        ((deposit_add_eq_ok hall).2 ⟨_, rfl, rfl, rfl⟩) hperform, ?_⟩
      · intro v'
        rw [ballots_concat, List.mem_append, ← hmem]
        exact GrowSet.mem_insert.trans (by simp [Call.ballots, or_comm])
      · intro t h hvotes _
        rw [hid]
        exact get_assign_of_ne hvotes
  | votes timing vs =>
      obtain ⟨grew, hdeposit⟩ := deposit_merge (b := vs) hall rfl
      refine ⟨_, hp.of_votes hall ?_ rfl Action.deposit?_mergeAt hdeposit hperform, ?_⟩
      · intro v'
        rw [ballots_concat, List.mem_append, ← hmem]
        exact GrowSet.mem_union
      · intro t h hvotes _
        rw [hid]
        exact get_assign_of_ne hvotes
  | raise timing k =>
      refine ⟨_, hp.of_raise hn ?_ rfl Action.deposit?_addAt
        ((deposit_add_eq_ok hn).2 ⟨_, rfl, rfl, rfl⟩) hperform, ?_⟩
      · rw [threshold_concat, ← hthreshold]
        exact MaxInt.toInt_add n k
      · intro t h _ hneed
        rw [hid]
        exact get_assign_of_ne hneed
  | raiseTo timing k =>
      have hjoin : Lattice.join n k = .ok (n.add k.value).1 :=
        congrArg Except.ok (MaxInt.join_eq_add n k)
      obtain ⟨grew, hdeposit⟩ := deposit_merge hn hjoin
      refine ⟨_, hp.of_raise hn ?_ rfl Action.deposit?_mergeAt hdeposit hperform, ?_⟩
      · rw [threshold_concat, ← hthreshold]
        exact MaxInt.toInt_add n k.value
      · intro t h _ hneed
        rw [hid]
        exact get_assign_of_ne hneed
  | tick => exact absurd rfl hcall

/-- Votes and raises can be deposited. -/
theorem exists_perform (hp : Collects votes need p S calls) (hcall : call ≠ .tick)
    (patience : Nat) :
    ∃ q outcome, p.perform patience (call.action votes need) = .ok (q, outcome) ∧
      ∀ result, outcome ≠ .ticked result := by
  obtain ⟨all, hall, _⟩ := hp.votes
  obtain ⟨n, hn, _⟩ := hp.need
  have hshape := hp.starts.sameShape.symm
  have hvotes := (Handle.declared_iff.2 ⟨all, hall⟩).of_sameShape hshape
  have hneed := (Handle.declared_iff.2 ⟨n, hn⟩).of_sameShape hshape
  have hdeposit : ∀ {x : Write} {h : Handle x.type}, h.Declared p.id p.store → x.type.IsTotal →
      (call.action votes need).deposit? = some (h.id, x) →
      ∃ q outcome, p.perform patience (call.action votes need) = .ok (q, outcome) := by
    intro x h hh htotal haction
    obtain ⟨s, hs⟩ := hh.exists_slot
    obtain ⟨R, grew, hR⟩ := Store.exists_deposit_of_fits (d := ⟨h.id.slot, x⟩) ⟨h, hh, rfl⟩ htotal
    exact Program.exists_perform_of_deposit? haction hs hR
  have hperform : ∃ q outcome,
      p.perform patience (call.action votes need) = .ok (q, outcome) := by
    cases call with
    | vote timing v =>
        exact hdeposit (x := .add (.set f) v) hvotes trivial Action.deposit?_addAt
    | votes timing vs =>
        exact hdeposit (x := .merge (.set f) vs) hvotes trivial Action.deposit?_mergeAt
    | raise timing k => exact hdeposit (x := .add .max k) hneed trivial Action.deposit?_addAt
    | raiseTo timing k => exact hdeposit (x := .merge .max k) hneed trivial Action.deposit?_mergeAt
    | tick => exact absurd rfl hcall
  obtain ⟨q, outcome, hq⟩ := hperform
  refine ⟨q, outcome, hq, ?_⟩
  rcases Program.perform_cases hq with ⟨_, _, _, hoffline, _⟩ | ⟨_, heq, _⟩
  · exact hoffline
  · cases call with
    | tick => exact absurd rfl hcall
    | vote timing _ | votes timing _ | raise timing _ | raiseTo timing _ =>
        cases timing <;> cases heq

section Tick

variable {changed : Bool} {report : TickReport} (hp : Collects votes need p S calls)
  (hpass : pass p.id p.sameTickRules S = .ok (U, changed))
  (hclosed : ∀ r ∈ p.sameTickRules, r.Closed p.id U) (hnext : p.nextTickRules = [])

include hp hpass hclosed hnext

/-- A tick whose first pass leaves nothing to do ends there. -/
theorem exists_tick (hpasses : 2 ≤ p.passLimit.getD patience) :
    ∃ q report, p.tick patience = .ok (q, .ok report) := by
  obtain ⟨applied, hstart⟩ := hp.starts
  have htick := Program.tick_of_pass hpasses hstart hpass hclosed
  rw [hnext] at htick
  exact ⟨_, _, htick⟩

/-- A tick that leaves votes and threshold alone joins the history. -/
theorem of_tick (hvotes : (Facts.mk p.id U).get votes = (Facts.mk p.id S).get votes)
    (hneed : (Facts.mk p.id U).get need = (Facts.mk p.id S).get need)
    (htick : p.tick patience = .ok (q, .ok report)) :
    q.id = p.id ∧ q.store = U ∧ Collects votes need q U (calls ++ [.tick]) := by
  have hsetup := Program.sameSetup_of_tick htick
  obtain ⟨start, applied, store, count, queue, hstart, hsettle, hqueue, rfl, _⟩ :=
    Program.tick_eq_ok.1 htick
  obtain ⟨applied', hstart'⟩ := hp.starts
  cases hstart'.symm.trans hstart
  obtain rfl := eq_of_settle_of_pass hpass hclosed hsettle
  rw [hnext] at hqueue
  cases hqueue
  have hlasting := hsetup.sameShape.forall_scratch hp.lasting
  obtain ⟨all, hall, hmem⟩ := hp.votes
  obtain ⟨n, hn, hthreshold⟩ := hp.need
  refine ⟨rfl, rfl, Program.startsFrom_of_pending_nil hlasting rfl, hlasting,
    ⟨all, hvotes.trans hall, ?_⟩, n, hneed.trans hn, ?_⟩
  · rw [ballots_concat, Call.ballots, List.append_nil]
    exact hmem
  · rw [threshold_concat, hthreshold]
    rfl

end Tick

end Collects

end Collects

/-! ## Runs -/

/-- `I` is kept by a program that is called, and after each tick the program has told about the
history before it. -/
structure Keeps {f : FactType} (votes : Handle (.set f)) (need : Handle .max)
    (I Told : Program → List (Call f) → Prop) : Prop where
  collects : ∀ {p calls}, I p calls → ∃ S, Collects votes need p S calls
  of_call : ∀ {p q calls call patience outcome}, I p calls → call ≠ .tick →
    p.perform patience (call.action votes need) = .ok (q, outcome) → I q (calls ++ [call])
  exists_tick : ∀ {p calls patience}, I p calls → 2 ≤ p.passLimit.getD patience →
    ∃ q report, p.tick patience = .ok (q, .ok report)
  of_tick : ∀ {p q calls patience report}, I p calls → p.tick patience = .ok (q, .ok report) →
    I q (calls ++ [.tick]) ∧ Told q calls

namespace Keeps

variable {f : FactType} {votes : Handle (.set f)} {need : Handle .max}
  {I Told : Program → List (Call f) → Prop} {p q : Program}
  {calls before after : List (Call f)} {call : Call f} {patience : Nat} {outcome : Outcome}
  {history : List (Program × Outcome)} (h : Keeps votes need I Told)

include h

theorem of_step (hp : I p calls)
    (hperform : p.perform patience (call.action votes need) = .ok (q, outcome))
    (hcomplete : ∀ result, outcome = .ticked result → ∃ report, result = .ok report) :
    I q (calls ++ [call]) ∧
      (call = .tick → Told q calls ∧ ∃ report, outcome = .ticked (.ok report)) := by
  by_cases hcall : call = .tick
  · subst hcall
    obtain ⟨⟨_, result⟩, htick, heq⟩ := bind_eq_ok.1 hperform
    cases heq
    obtain ⟨report, rfl⟩ := hcomplete result rfl
    obtain ⟨hq, htold⟩ := h.of_tick hp htick
    exact ⟨hq, fun _ => ⟨htold, report, rfl⟩⟩
  · exact ⟨h.of_call hp hcall hperform, fun heq => absurd heq hcall⟩

theorem exists_step (hp : I p calls) (hpasses : 2 ≤ p.passLimit.getD patience) (call : Call f) :
    ∃ q outcome, p.perform patience (call.action votes need) = .ok (q, outcome) ∧
      ∀ result, outcome = .ticked result → ∃ report, result = .ok report := by
  by_cases hcall : call = .tick
  · subst hcall
    obtain ⟨q, report, htick⟩ := h.exists_tick hp hpasses
    refine ⟨q, .ticked (.ok report), bind_eq_ok.2 ⟨_, htick, rfl⟩, ?_⟩
    rintro _ ⟨⟩
    exact ⟨report, rfl⟩
  · obtain ⟨S, hcollects⟩ := h.collects hp
    obtain ⟨q, outcome, hperform, hoffline⟩ := hcollects.exists_perform hcall patience
    exact ⟨q, outcome, hperform, fun result heq => absurd heq (hoffline result)⟩

/-- If ticks may make two passes, then no run breaks off, and every tick comes to its end. -/
theorem exists_run (hp : I p []) (hpasses : 2 ≤ p.passLimit.getD patience)
    (calls : List (Call f)) :
    ∃ history, p.run patience (calls.map (Call.action votes need)) = .ok history ∧
      Program.AllComplete history := by
  refine Program.exists_run_of_step
    (I := fun p calls => I p calls ∧ 2 ≤ p.passLimit.getD patience) ?_ ⟨hp, hpasses⟩ calls
  rintro p calls call ⟨hp, hpasses⟩
  obtain ⟨q, outcome, hperform, hcomplete⟩ := h.exists_step hp hpasses call
  have hlimit : q.passLimit = p.passLimit := by rw [(Program.eq_of_perform hperform).1]
  exact ⟨q, outcome, hperform, ⟨(h.of_step hp hperform hcomplete).1, hlimit ▸ hpasses⟩, hcomplete⟩

/-- After each tick of a run the program has told about the history before it. -/
theorem exists_told (hp : I p [])
    (hrun : p.run patience (calls.map (Call.action votes need)) = .ok history)
    (hticks : Program.AllComplete history) (hcalls : calls = before ++ .tick :: after) :
    ∃ q report, history[before.length]? = some (q, .ticked (.ok report)) ∧ Told q before := by
  obtain ⟨prior, q, outcome, hprior, hperform, hcomplete, hstep⟩ :=
    Program.exists_step_of_run (I := I)
      (fun _ _ _ _ _ hp hperform hcomplete => (h.of_step hp hperform hcomplete).1) hp hrun hticks
      hcalls
  have hperform' : prior.perform patience (Call.tick.action votes need) = .ok (q, outcome) :=
    hperform
  obtain ⟨htold, report, rfl⟩ := (h.of_step hprior hperform' hcomplete).2 rfl
  exact ⟨q, report, hstep, htold⟩

end Keeps

end Ratchet.Threshold

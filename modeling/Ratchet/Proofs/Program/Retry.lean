import Ratchet.Proofs.Program.Bounded
import Ratchet.Proofs.Program.RuleOrder
import Ratchet.Proofs.Program.Scratch

/-!
# Ticks that are tried again

A tick that runs out of its passes leaves the relations as the passes left them, and the next
attempt goes on from there.  But it begins like every tick: what waited is gone from the queue by
then, and scratch relations are reset once more.  So a fact that waited for a scratch relation is in
that relation in the first attempt only, and what would have followed from it later may never be
derived.

Everything else is kept.  A reset never takes a store below its scratch-free part
(`Store.resetScratch_mono`), so what an attempt starts from, scratch relations aside, is below what
all later attempts end with (`resetScratch_below_of_attempts`).  Nothing is gained either: no
attempt leaves the part of the order below a store that is closed under the rules and above the
first start (`attempts_below_closed`).

An unbounded program makes the passes of all attempts in one tick.  It is never reset in between,
which only puts it further up, so it has overtaken the attempts after as many passes as they make
together (`attempts_below_passes`).  If no fact waited for a scratch relation, then it ends with the
same relations.

## Main result

* `Program.retry_unbounded`: attempts that come to an end, and a tick of the unbounded program.
-/

namespace Ratchet

variable {program : Nat} {rs : List Rule} {frame S T U V : Store} {d : Deposit}

/-! ## Deposits that last -/

/-- The deposit is for a relation that ticks do not reset. -/
def Deposit.Lasting (d : Deposit) (S : Store) : Prop :=
  ∀ s, S[d.slot]? = some s → s.scratch = false

namespace Deposit

theorem Lasting.of_sameShape (h : d.Lasting S) (hST : S.SameShape T) : d.Lasting T := by
  intro t ht
  obtain ⟨s, hs⟩ := Store.exists_of_length_eq hST.1.symm ht
  obtain ⟨_, rfl⟩ := hST.2 _ s t hs ht
  exact h s hs

theorem Held.resetScratch (hd : d.Held S) (h : d.Lasting S) : d.Held S.resetScratch := by
  obtain ⟨s, hs, hw⟩ := hd
  refine ⟨s, ?_, hw⟩
  have hsame := Slot.restart_of_lasting s.below_refl.sameShape (h s hs)
  rw [Store.getElem?_resetScratch, hs, Option.map_some, hsame]

end Deposit

/-- Lasting deposits leave the scratch relations of a reset store at bottom. -/
theorem Store.resetScratch_of_depositAll {ds : List Deposit} {count : Nat}
    (hds : ∀ d ∈ ds, d.Lasting S)
    (h : S.resetScratch.depositAll program ds = .ok (T, count)) : T.resetScratch = T := by
  obtain ⟨hST, hheld, hleast, _⟩ := depositAll_least h
  have hshape : S.SameShape T := S.sameShape_resetScratch.trans hST.sameShape
  refine (resetScratch_below hST).antisymm (hleast _ ?_ ?_)
  · rw [← resetScratch_resetScratch]
    exact resetScratch_mono hST
  · exact fun d hd => (hheld d hd).resetScratch ((hds d hd).of_sameShape hshape)

/-! ## Failed attempts -/

/-- What the next attempt starts from after a number of failed ones, each of which makes `limit`
passes. -/
def attempts (program : Nat) (rules : List Rule) (limit : Nat) : Nat → Store → Except Fault Store
  | 0, S => .ok S
  | m + 1, S => do attempts program rules limit m (← passes program rules limit S).resetScratch

section Attempts

variable {limit m : Nat}

theorem attempts_succ : attempts program rs limit (m + 1) S = .ok U ↔
    ∃ T, passes program rs limit S = .ok T ∧
      attempts program rs limit m T.resetScratch = .ok U := bind_eq_ok

/-- What an attempt leaves is above what it is reset to. -/
theorem resetScratch_below_of_passes {n : Nat} (hS : S.resetScratch.Below S)
    (h : passes program rs n S = .ok T) : T.resetScratch.Below T :=
  Store.resetScratch_below (hS.trans (below_of_passes h))

theorem resetScratch_below_self : S.resetScratch.resetScratch.Below S.resetScratch := by
  rw [Store.resetScratch_resetScratch]
  exact S.resetScratch.below_refl

/-- Failed attempts take nothing away from relations that are not scratch. -/
theorem resetScratch_below_of_attempts (hS : S.resetScratch.Below S)
    (h : attempts program rs limit m S = .ok T) : S.resetScratch.Below T := by
  induction m generalizing S with
  | zero =>
      cases h
      exact hS
  | succ m ih =>
      obtain ⟨R, hpasses, hrest⟩ := attempts_succ.1 h
      have hSR : S.resetScratch.Below R.resetScratch :=
        Store.resetScratch_mono (below_of_passes hpasses)
      have hRT := ih resetScratch_below_self hrest
      rw [Store.resetScratch_resetScratch] at hRT
      exact hSR.trans hRT

theorem sameShape_of_attempts (hS : S.resetScratch.Below S)
    (h : attempts program rs limit m S = .ok T) : S.SameShape T :=
  S.sameShape_resetScratch.trans (resetScratch_below_of_attempts hS h).sameShape

/-- Failed attempts stay below every closed store that is above their start. -/
theorem attempts_below_closed (hmono : ∀ r ∈ rs, r.Monotone program frame)
    (hframe : frame.SameShape S) (hS : S.resetScratch.Below S) (hSU : S.Below U)
    (hU : ∀ r ∈ rs, r.Closed program U) (h : attempts program rs limit m S = .ok T) :
    T.Below U := by
  induction m generalizing S with
  | zero =>
      cases h
      exact hSU
  | succ m ih =>
      obtain ⟨R, hpasses, hrest⟩ := attempts_succ.1 h
      have hRU : R.Below U := passes_below_closed hmono hframe hSU hU hpasses
      have hR : frame.SameShape R.resetScratch :=
        (hframe.trans (below_of_passes hpasses).sameShape).trans R.sameShape_resetScratch
      exact ih hR resetScratch_below_self
        ((resetScratch_below_of_passes hS hpasses).trans hRU) hrest

/-- Failed attempts are overtaken by as many passes without a reset. -/
theorem attempts_below_passes (hmono : ∀ r ∈ rs, r.Monotone program frame)
    (hframe : frame.SameShape S) (hS : S.resetScratch.Below S) (hSU : S.Below U)
    (h : attempts program rs limit m S = .ok T)
    (hV : passes program rs (m * limit) U = .ok V) : T.Below V := by
  induction m generalizing S U with
  | zero =>
      rw [Nat.zero_mul] at hV
      cases h
      cases hV
      exact hSU
  | succ m ih =>
      rw [Nat.succ_mul, Nat.add_comm] at hV
      obtain ⟨R, hpasses, hrest⟩ := attempts_succ.1 h
      obtain ⟨W, hW, hV⟩ := passes_add.1 hV
      have hRW : R.Below W := passes_mono hmono hframe hSU hpasses hW
      have hR : frame.SameShape R.resetScratch :=
        (hframe.trans (below_of_passes hpasses).sameShape).trans R.sameShape_resetScratch
      exact ih hR resetScratch_below_self
        ((resetScratch_below_of_passes hS hpasses).trans hRW) hrest hV

/-- If scratch relations are at bottom from the start, then passes without a reset settle on what
the attempts end with. -/
theorem settle_of_attempts {tries n : Nat} {last : Store} {result : Settled}
    (hmono : ∀ r ∈ rs, r.Monotone program frame) (hframe : frame.SameShape S)
    (hS : S.resetScratch = S) (hlast : attempts program rs limit m S = .ok last) (hm : m < tries)
    (hn : n < limit) (hT : passes program rs n last = .ok T)
    (hclosed : ∀ r ∈ rs, r.Closed program T)
    (h : settle program rs (tries * limit) 0 S = .ok result) :
    ∃ count, result = .stable T count := by
  have hreset : S.resetScratch.Below S := by
    rw [hS]
    exact S.below_refl
  have hSlast : S.Below last := hS ▸ resetScratch_below_of_attempts hreset hlast
  have hST : S.Below T := hSlast.trans (below_of_passes hT)
  have hframe' : frame.SameShape last := hframe.trans hSlast.sameShape
  -- all attempts together
  have hpasses : m * limit + n < tries * limit := by
    have hle : (m + 1) * limit ≤ tries * limit := Nat.mul_le_mul_right limit hm
    rw [Nat.succ_mul] at hle
    omega
  have hovertaken : ∀ U, passes program rs (m * limit + n) S = .ok U → T.Below U := by
    intro U hU
    obtain ⟨W, hW, hU⟩ := passes_add.1 hU
    have hlastW := attempts_below_passes hmono hframe hreset S.below_refl hlast hW
    exact passes_mono hmono hframe' hlastW hT hU
  obtain ⟨count, rfl, _⟩ := settle_of_overtaken hmono hframe hST hclosed hovertaken hpasses h
  exact ⟨count, rfl⟩

end Attempts

namespace Program

variable {p q : Program} {patience tries k : Nat} {report : TickReport}

/-- Ticks until a tick comes to its end, at most `tries` times.  There is no report if none did. -/
def retry (patience : Nat) : (tries : Nat) → Program → Except Fault (Program × Option TickReport)
  | 0, p => .ok (p, none)
  | tries + 1, p => do
    match ← p.tick patience with
    | (q, .ok report) => return (q, some report)
    | (q, .error _) => retry patience tries q

/-- A failed tick uses up its passes, and leaves what they lead to and an empty queue. -/
theorem tick_eq_error {error : ProgramError} (hlimit : p.passLimit = some k)
    (h : p.tick patience = .ok (q, .error error)) :
    ∃ start applied T, p.store.resetScratch.depositAll p.id p.pending = .ok (start, applied) ∧
      passes p.id p.sameTickRules k start = .ok T ∧ q = { p with store := T, pending := [] } := by
  have hp : { p with passLimit := some k } = p := by rw [← hlimit]
  obtain ⟨_, start, applied, hstart, ⟨hpasses, _⟩, hq⟩ := tick_eq_failed.1 (hp.symm ▸ h)
  refine ⟨start, applied, q.store, hstart, hpasses, ?_⟩
  calc q = { p with passLimit := some k, store := q.store, pending := [] } := hq
    _ = { p with store := q.store, pending := [] } := by rw [← hlimit]

/-- Attempts that come to an end are a number of failed ones and one that reaches a fixpoint. -/
theorem retry_eq_ok (hlimit : p.passLimit = some k)
    (h : p.retry patience tries = .ok (q, some report)) :
    ∃ start applied m last n,
      p.store.resetScratch.depositAll p.id p.pending = .ok (start, applied) ∧ m < tries ∧
      attempts p.id p.sameTickRules k m start = .ok last ∧ n < k ∧
      passes p.id p.sameTickRules n last = .ok q.store ∧
      (∀ r ∈ p.sameTickRules, r.Closed p.id q.store) ∧
      allConsequences ⟨p.id, q.store⟩ p.nextTickRules = .ok q.pending ∧
      q = { p with store := q.store, pending := q.pending, ticks := p.ticks + 1 } := by
  induction tries generalizing p with
  | zero => cases h
  | succ tries ih =>
      obtain ⟨⟨p', result⟩, htick, h⟩ := bind_eq_ok.1 h
      cases result with
      | ok report' =>
          cases h
          obtain ⟨start, applied, store, count, queue, hstart, hsettle, hqueue, rfl, _⟩ :=
            tick_eq_ok.1 htick
          rw [hlimit] at hsettle
          obtain ⟨n, T, hn, _, ⟨hlt, hclosed, heq⟩ | ⟨_, heq⟩⟩ := settle_eq_ok hsettle
          · cases heq
            exact ⟨start, applied, 0, start, n, hstart, Nat.succ_pos tries, rfl, hlt, hn, hclosed,
              hqueue, rfl⟩
          · cases heq
      | error error =>
          obtain ⟨start, applied, T, hstart, hpasses, rfl⟩ := tick_eq_error hlimit htick
          obtain ⟨_, _, m, last, n, hrestart, hm, hlast, hn⟩ :=
            ih (p := { p with store := T, pending := [] }) hlimit h
          -- nothing waits for the next attempt
          cases hrestart
          exact ⟨start, applied, m + 1, last, n, hstart, Nat.succ_lt_succ hm,
            attempts_succ.2 ⟨T, hpasses, hlast⟩, hn⟩

/-- A channel for numbers, the numbers that were seen in it, and the pairs of a number in it with
one that was seen.  A number waits to enter the channel, and a tick is bounded to fewer passes than
that takes. -/
def relay : Program :=
  let script : Setup Unit := do
    let inbox ← Setup.channel .int "inbox"
    let seen ← Setup.declare (.set .int) "seen"
    let pairs ← Setup.declare (.set .intPair) "pairs"
    Setup.join (.product (.of inbox) (.of seen)) pairs .sameTick fun _ row => .ok (some row)
    Setup.copy inbox seen .sameTick
  { (script.runOn (create 0 "n" (some 1))).2 with pending := [⟨0, .add (.set .int) 7⟩] }

theorem monotone_of_mem_relay : ∀ r ∈ relay.rules, r.Monotone relay.id relay.store := by
  have hinbox : (Source.of (⟨⟨0, 0⟩⟩ : Handle (.set .int))).Grows relay.id := Source.grows_of _
  have hseen : (Source.of (⟨⟨0, 1⟩⟩ : Handle (.set .int))).Grows relay.id := Source.grows_of _
  rintro r (_ | ⟨_, _ | ⟨_, hr⟩⟩)
  · exact Rule.monotone_of_grows (hinbox.product hseen)
      (fun row => .ok (some (.add (.set .intPair) row))) rfl
  · exact Rule.monotone_of_grows hinbox (fun row => .ok (some (.add (.set .int) row))) rfl
  · cases hr

/-- A number that waited for a channel is lost.  The first tick fails and leaves it in the channel,
and the second tick comes to its end without it.  An unbounded program pairs it with itself. -/
theorem retry_relay :
    (∀ r ∈ relay.sameTickRules, r.Monotone relay.id relay.store) ∧ relay.passLimit = some 1 ∧
      ∃ failed q report q' report',
        relay.tick 9 = .ok (failed, .error (.diverged "n" 0 1)) ∧
        failed.tick 9 = .ok (q, .ok report) ∧
        ({ relay with passLimit := none } : Program).tick 9 = .ok (q', .ok report') ∧
        q.state.map Slot.name = ["seen"] ∧
        q'.state.map Slot.name = ["inbox", "seen", "pairs"] ∧ q.store ≠ q'.store := by
  refine ⟨fun r hr => monotone_of_mem_relay r (List.mem_filter.1 hr).1, rfl,
    _, _, _, _, _, rfl, rfl, rfl, by decide, by decide, ?_⟩
  intro heq
  have hstate := congrArg (fun S : Store => (S.filter fun s => !s.isBottom).map Slot.name) heq
  revert hstate
  decide

/-- Attempts of a bounded program against one tick of the same program without a bound.  What waited
for relations that are not scratch is in them in the end, and nothing is in any relation that is not
there in the unbounded program.  If nothing waited for scratch relations, then the unbounded
program, unless it breaks off with a fault of its own, completes its tick within the passes of all
attempts, and the two programs are the same but for the bound. -/
theorem retry_unbounded (hlimit : p.passLimit = some k)
    (hmono : ∀ r ∈ p.sameTickRules, r.Monotone p.id p.store)
    (h : p.retry patience tries = .ok (q, some report)) :
    (∀ d ∈ p.pending, d.Lasting p.store → d.Held q.store) ∧
      (∀ patience' q' report', ({ p with passLimit := none } : Program).tick patience' =
        .ok (q', .ok report') → q.store.Below q'.store) ∧
      ((∀ d ∈ p.pending, d.Lasting p.store) → (∀ r ∈ p.rules, r.Patient) →
        (∀ fault, ({ p with passLimit := none } : Program).tick (tries * k) = .error fault →
          fault = .exhausted) →
        ∃ report', ({ p with passLimit := none } : Program).tick (tries * k) =
          .ok ({ q with passLimit := none }, .ok report')) := by
  obtain ⟨start, applied, m, last, n, hstart, hm, hlast, hn, hpasses, hclosed, hqueue, hq⟩ :=
    retry_eq_ok hlimit h
  obtain ⟨habove, hheld, _⟩ := Store.depositAll_least hstart
  have hframe : p.store.SameShape start := sameShape_start hstart
  have hreset : start.resetScratch.Below start := Store.resetScratch_below habove
  refine ⟨?_, ?_, ?_⟩
  · intro d hd hlasting
    have hkept := (hheld d hd).resetScratch (hlasting.of_sameShape hframe)
    exact (hkept.mono (resetScratch_below_of_attempts hreset hlast)).mono (below_of_passes hpasses)
  · intro patience' q' report' htick
    obtain ⟨start', _, store, _, _, hstart', hsettle, _, rfl, _⟩ := tick_eq_ok.1 htick
    cases hstart.symm.trans hstart'
    obtain ⟨hbelow, hclosed', _⟩ := leastClosed_of_settle hmono hframe hsettle
    have hlastBelow := attempts_below_closed hmono hframe hreset hbelow hclosed' hlast
    have hframe' : p.store.SameShape last := hframe.trans (sameShape_of_attempts hreset hlast)
    exact passes_below_closed hmono hframe' hlastBelow hclosed' hpasses
  · intro hlasting hpatient hfault
    have hsame : start.resetScratch = start := Store.resetScratch_of_depositAll hlasting hstart
    obtain ⟨result, hsettle⟩ :=
      exists_settle_of_tick (p := { p with passLimit := none }) rfl hpatient hstart hfault
    obtain ⟨count, rfl⟩ :=
      settle_of_attempts hmono hframe hsame hlast hm hn hpasses hclosed hsettle
    rw [hq]
    exact ⟨_, tick_eq_ok.2 ⟨start, applied, _, count, _, hstart, hsettle, hqueue, rfl, rfl⟩⟩

/-- The copying of `chain` with a bound of one pass.  The third attempt comes to an end. -/
theorem retry_unbounded_chain :
    ∃ q report report',
      ({ chain with passLimit := some 1 } : Program).retry 9 3 = .ok (q, some report) ∧
      chain.tick (3 * 1) = .ok ({ q with passLimit := none }, .ok report') := by
  obtain ⟨q, report, h⟩ : ∃ q report,
      ({ chain with passLimit := some 1 } : Program).retry 9 3 = .ok (q, some report) :=
    ⟨_, _, rfl⟩
  obtain ⟨_, _, hcompletes⟩ := exists_tick_of_completes (by decide : chain.completes (3 * 1))
  obtain ⟨_, _, hsame⟩ := retry_unbounded (p := { chain with passLimit := some 1 }) rfl
    (fun r hr => monotone_of_mem_chain r (List.mem_filter.1 hr).1) h
  have hlasting : ∀ d ∈ chain.pending, d.Lasting chain.store := by
    rintro d (_ | ⟨_, hd⟩) s hs
    · cases hs
      rfl
    · cases hd
  obtain ⟨report', h'⟩ :=
    hsame hlasting patient_of_mem_chain fun fault hfault => nomatch hcompletes.symm.trans hfault
  exact ⟨q, report, report', h, h'⟩

end Program

end Ratchet

import Ratchet.Proofs.Program.Queue
import Ratchet.Proofs.Program.Requests
import Ratchet.Proofs.Program.Scratch
import Ratchet.Proofs.Program.Stages

/-!
# Deposits at once and for the next tick

A fact can be deposited at once, or it can wait for the next tick.  To that tick it makes no
difference, unless the relation is scratch.

A tick begins with a reset, and a deposit into a relation that is not reset can be made before it or
after it (`Store.deposit_resetScratch`).  So the deposit that was made at once is one that is made
before all that waited, and the one that was queued is made after all that waited.  Whether there is
a fault does not depend on the order, nor do the relations that the passes start from.  The only
trace is in the number of waiting deposits that had an effect.

A scratch relation loses at the reset what was deposited at once (`Store.agreesBut_of_deposit`).
It loses everything else as well: relations that differ in what scratch relations hold are the same
after the reset (`Store.resetScratch_congr`), and so are the ticks.  Channels are scratch in every
program that was set up by requests (`Program.channelsReset_of_serveAll`).

## Main result

* `Program.tick_deposit`: ticks after deposits at once and after deposits for the next tick.
-/

namespace Ratchet

variable {program : Nat} {S T U V : Store} {d : Deposit} {ds : List Deposit} {grew : Bool}

/-! ## The reset -/

/-- The same slots, with values that may differ in relations that are `free` to. -/
def Store.AgreesBut (free : Slot → Bool) (S T : Store) : Prop :=
  S.SameShape T ∧ ∀ (i : Nat) (s t : Slot), S[i]? = some s → T[i]? = some t → free s = false → t = s

theorem Store.agreesBut_assign {t : RelationType} {h : Handle t} {v : t.Value} {free : Slot → Bool}
    {s : Slot} (hs : S[h.id.slot]? = some s) (hfree : free s = true) :
    S.AgreesBut free (S.assign h v) := by
  have hshape : s.SameShape (s.assign t v) := by
    unfold Slot.assign
    split
    · exact ⟨_, rfl⟩
    · exact s.below_refl.sameShape
  refine ⟨⟨(List.length_modify ..).symm, ?_⟩, ?_⟩
  · intro i a b ha hb
    by_cases hi : h.id.slot = i
    · subst hi
      rw [Store.assign, List.getElem?_modify_eq, hs] at hb
      cases hs.symm.trans ha
      cases hb
      exact hshape
    · rw [Store.assign, List.getElem?_modify_ne _ _ hi] at hb
      cases ha.symm.trans hb
      exact a.below_refl.sameShape
  · intro i a b ha hb hlasting
    have hi : h.id.slot ≠ i := by
      rintro rfl
      rw [Option.some.inj (ha.symm.trans hs), hfree] at hlasting
      cases hlasting
    rw [Store.assign, List.getElem?_modify_ne _ _ hi] at hb
    exact Option.some.inj (hb.symm.trans ha)

/-- The reset forgets what scratch relations held. -/
theorem Store.resetScratch_congr (h : S.AgreesBut Slot.scratch T) :
    T.resetScratch = S.resetScratch := by
  obtain ⟨⟨hlength, hshape⟩, hagree⟩ := h
  apply List.ext_getElem?
  intro i
  rw [Store.getElem?_resetScratch, Store.getElem?_resetScratch]
  cases hs : S[i]? with
  | none =>
      rw [List.getElem?_eq_none_iff, hlength, ← List.getElem?_eq_none_iff] at hs
      rw [hs]
  | some s =>
      obtain ⟨t, ht⟩ := Store.exists_of_length_eq hlength hs
      rw [ht, Option.map_some, Option.map_some]
      cases hscratch : s.scratch with
      | true =>
          have hst := hshape i s t hs ht
          rw [Slot.restart_of_scratch hst hscratch,
            Slot.restart_of_scratch s.below_refl.sameShape hscratch]
      | false => rw [hagree i s t hs ht hscratch]

/-- A deposit into a relation that is not scratch can be made before the reset or after it. -/
theorem Store.deposit_resetScratch (program : Nat) {s : Slot} (hs : S[d.slot]? = some s)
    (hscratch : s.scratch = false) : S.resetScratch.deposit program d =
      (S.deposit program d).map fun r => (r.1.resetScratch, r.2) := by
  have hreset : S.resetScratch[d.slot]? = some s := by
    rw [Store.getElem?_resetScratch, hs, Option.map_some,
      Slot.restart_of_lasting s.below_refl.sameShape hscratch]
  unfold Store.deposit
  rw [hs, hreset]
  dsimp only
  cases happly : s.apply d.write with
  | error fault => rfl
  | ok r =>
      obtain ⟨t, grew⟩ := r
      have ht : t.restart = t :=
        Slot.restart_of_lasting (Slot.apply_least happly).1.sameShape hscratch
      have hset : Store.resetScratch (S.set d.slot t) = S.resetScratch.set d.slot t := by
        unfold Store.resetScratch
        rw [List.map_set]
        exact congrArg _ ht
      exact congrArg (fun R => Except.ok (R, grew)) hset.symm

/-- A deposit into a scratch relation changes nothing else. -/
theorem Store.agreesBut_of_deposit {s : Slot} (hs : S[d.slot]? = some s)
    (hscratch : s.scratch = true) (hdeposit : S.deposit program d = .ok (T, grew)) :
    S.AgreesBut Slot.scratch T := by
  refine ⟨(Store.deposit_least hdeposit).1.sameShape, ?_⟩
  intro i a b ha hb hlasting
  have hne : d.slot ≠ i := by
    rintro rfl
    rw [Option.some.inj (ha.symm.trans hs), hscratch] at hlasting
    cases hlasting
  rw [Store.getElem?_of_deposit hne hdeposit] at hb
  exact Option.some.inj (hb.symm.trans ha)

/-! ## First or last -/

/-- On a greater store fewer deposits have an effect. -/
theorem Store.count_anti {a b : Nat} (hSU : S.Below U)
    (hT : S.depositAll program ds = .ok (T, a)) (hV : U.depositAll program ds = .ok (V, b)) :
    b ≤ a := by
  induction ds generalizing S U a b with
  | nil =>
      cases hT
      cases hV
      exact Nat.le_refl 0
  | cons d ds ih =>
      obtain ⟨R, grewR, a, hR, hrestR, rfl⟩ := Store.depositAll_cons hT
      obtain ⟨W, grewW, b, hW, hrestW, rfl⟩ := Store.depositAll_cons hV
      obtain ⟨_, hdR, hleast, hgrewR⟩ := Store.deposit_least hR
      obtain ⟨hUW, hdW, hleastW, hgrewW⟩ := Store.deposit_least hW
      have hba : b ≤ a := ih (hleast W (hSU.trans hUW) hdW) hrestR hrestW
      -- a store below that is not changed by the deposit holds it, and then so does the greater one
      have hgrew : grewW = true → grewR = true := by
        intro hw
        refine hgrewR.2 ?_
        rintro rfl
        have hheld : d.Held U := hdR.mono hSU
        exact hgrewW.1 hw ((hleastW U U.below_refl hheld).antisymm hUW)
      cases grewW with
      | true =>
          rw [hgrew rfl]
          exact Nat.succ_le_succ hba
      | false =>
          cases grewR with
          | true => exact Nat.le_succ_of_le hba
          | false => exact hba

/-- One more deposit does not lower the count of those that have an effect. -/
theorem Store.count_append {es : List Deposit} {a b : Nat}
    (hT : S.depositAll program ds = .ok (T, a))
    (hU : S.depositAll program (ds ++ es) = .ok (U, b)) : a ≤ b := by
  induction ds generalizing S a b with
  | nil =>
      cases hT
      exact Nat.zero_le b
  | cons d ds ih =>
      obtain ⟨R, grew, a, hR, hrest, rfl⟩ := Store.depositAll_cons hT
      obtain ⟨R', grew', b, hR', hrest', rfl⟩ := Store.depositAll_cons hU
      obtain ⟨rfl, rfl⟩ := Prod.mk.inj (Except.ok.inj (hR.symm.trans hR'))
      have hab := ih hrest hrest'
      cases grew with
      | true => exact Nat.succ_le_succ hab
      | false => exact hab

/-- A deposit that cannot be made first cannot be made last. -/
theorem Store.exists_fault_last {fault : Fault} (h : S.deposit program d = .error fault)
    (ds : List Deposit) : ∃ fault', S.depositAll program (ds ++ [d]) = .error fault' :=
  have hfirst : S.depositAll program (d :: ds) = .error fault := bind_eq_error.2 (.inl h)
  Store.exists_fault_congr (by simp [or_comm]) hfirst

/-- A deposit that can be made first can as well be made last: either way there is a fault later on,
or the deposits lead to the same store. -/
theorem Store.depositAll_first_or_last (h : S.deposit program d = .ok (T, grew))
    (ds : List Deposit) :
    (∃ fault fault', T.depositAll program ds = .error fault ∧
        S.depositAll program (ds ++ [d]) = .error fault') ∨
      ∃ U a b, T.depositAll program ds = .ok (U, a) ∧
        S.depositAll program (ds ++ [d]) = .ok (U, b) ∧ a ≤ b := by
  have hmem : ∀ e, e ∈ d :: ds ↔ e ∈ ds ++ [d] := by simp [or_comm]
  cases hds : T.depositAll program ds with
  | error fault =>
      have hfirst : S.depositAll program (d :: ds) = .error fault :=
        bind_eq_error.2 (.inr ⟨_, h, bind_eq_error.2 (.inl hds)⟩)
      obtain ⟨fault', hlast⟩ := Store.exists_fault_congr hmem hfirst
      exact .inl ⟨fault, fault', rfl, hlast⟩
  | ok r =>
      obtain ⟨U, a⟩ := r
      have hfirst : S.depositAll program (d :: ds) = .ok (U, if grew then a + 1 else a) :=
        bind_eq_ok.2 ⟨_, h, bind_eq_ok.2 ⟨_, hds, rfl⟩⟩
      obtain ⟨b, hlast⟩ := Store.exists_depositAll_congr hmem hfirst
      -- without the deposit before them, the others have an effect at least as often
      obtain ⟨hSU, hheld, _⟩ := Store.depositAll_least hlast
      obtain ⟨R, c, hR⟩ := Store.exists_depositAll program hSU fun e he =>
        hheld e (List.mem_append_left _ he)
      have hca : a ≤ c := Store.count_anti (Store.deposit_least h).1 hR hds
      exact .inr ⟨U, a, b, rfl, hlast, Nat.le_trans hca (Store.count_append hR hlast)⟩

namespace Program

variable {p q : Program} {patience : Nat} {id : RelationId} {w : Write} {s : Slot}

/-! ## Lasting relations -/

/-- Ticks that end alike: both break off, both fail with the same error, or both complete and tell
the same, but that more of the deposits that waited for the second may have had an effect. -/
inductive TicksLater :
    (a b : Except Fault (Program × Except ProgramError TickReport)) → Prop where
  /-- Both break off, or both are given up for lack of patience. -/
  | faulted {a b : Fault} (h : a = .exhausted ↔ b = .exhausted) : TicksLater (.error a) (.error b)
  | failed (q : Program) (error : ProgramError) :
    TicksLater (.ok (q, .error error)) (.ok (q, .error error))
  | completed (q : Program) {a b : TickReport} (hreport : b = { a with applied := b.applied })
    (happlied : a.applied ≤ b.applied) : TicksLater (.ok (q, .ok a)) (.ok (q, .ok b))

/-- Ticks that start their passes from the same relations end alike. -/
theorem ticksLater_of_start {queue : List Deposit} {start : Store} {a b : Nat}
    (hp : T.resetScratch.depositAll p.id p.pending = .ok (start, a))
    (hq : p.store.resetScratch.depositAll p.id queue = .ok (start, b)) (hab : a ≤ b) :
    TicksLater (({ p with store := T } : Program).tick patience)
      (({ p with pending := queue } : Program).tick patience) := by
  have hsame (R ds) : ({ p with store := R, pending := ds } : Program).sameTickRules =
    p.sameTickRules := rfl
  have hnext (R ds) : ({ p with store := R, pending := ds } : Program).nextTickRules =
    p.nextTickRules := rfl
  unfold Program.tick
  simp only [hp, hq, hsame, hnext, bind, Except.bind]
  cases settle p.id p.sameTickRules (p.passLimit.getD patience) 0 start with
  | error fault => exact .faulted Iff.rfl
  | ok settled =>
      cases settled with
      | stable store count =>
          dsimp only
          cases allConsequences ⟨p.id, store⟩ p.nextTickRules with
          | error fault => exact .faulted Iff.rfl
          | ok next => exact .completed _ rfl hab
      | unstable store =>
          cases p.passLimit with
          | none => exact .faulted Iff.rfl
          | some limit => exact .failed _ _

/-- A tick whose waiting deposits cannot be made breaks off, and that is not for lack of
patience. -/
theorem tick_of_start_error {fault : Fault} (patience : Nat)
    (h : p.store.resetScratch.depositAll p.id p.pending = .error fault) :
    p.tick patience = .error fault ∧ fault ≠ .exhausted :=
  ⟨bind_eq_error.2 (.inl h), fun heq => Store.depositAll_ne_exhausted (heq ▸ h)⟩

/-- Into a relation that is not scratch, it makes no difference to the next tick whether a deposit
was made at once or waited. -/
theorem ticksLater_depositNow (patience : Nat) (hs : p.store[id.slot]? = some s)
    (hscratch : s.scratch = false) :
    TicksLater (do let (q, _) ← p.depositNow id w; q.tick patience)
      (do let q ← p.depositNext id w; q.tick patience) := by
  unfold depositNow depositNext
  cases p.facts.slot id with
  | error e => exact .faulted Iff.rfl
  | ok _ =>
      simp only [bind, Except.bind, Except.mapError, pure, Except.pure]
      have hreset := Store.deposit_resetScratch (d := ⟨id.slot, w⟩) p.id hs hscratch
      cases hnow : p.store.deposit p.id ⟨id.slot, w⟩ with
      | error fault =>
          rw [hnow] at hreset
          obtain ⟨fault', hlast⟩ := Store.exists_fault_last hreset p.pending
          obtain ⟨htick, hpatient⟩ := tick_of_start_error patience
            (p := { p with pending := p.pending ++ [⟨id.slot, w⟩] }) hlast
          dsimp only
          rw [htick]
          refine .faulted (iff_of_false ?_ hpatient)
          rintro rfl
          have hall : p.store.depositAll p.id [⟨id.slot, w⟩] = .error .exhausted :=
            bind_eq_error.2 (.inl hnow)
          exact Store.depositAll_ne_exhausted hall
      | ok r =>
          obtain ⟨T, grew⟩ := r
          rw [hnow] at hreset
          rcases Store.depositAll_first_or_last hreset p.pending with
            ⟨fault, fault', hfirst, hlast⟩ | ⟨start, a, b, hfirst, hlast, hab⟩
          · obtain ⟨htick, hpatient⟩ := tick_of_start_error patience
              (p := { p with store := T }) hfirst
            obtain ⟨htick', hpatient'⟩ := tick_of_start_error patience
              (p := { p with pending := p.pending ++ [⟨id.slot, w⟩] }) hlast
            dsimp only
            rw [htick, htick']
            exact .faulted (iff_of_false hpatient hpatient')
          · exact ticksLater_of_start hfirst hlast hab

/-- The relations that the passes of the next tick start from, if nothing comes before it. -/
def StartsFrom (p : Program) (S : Store) : Prop :=
  ∃ applied, p.store.resetScratch.depositAll p.id p.pending = .ok (S, applied)

theorem StartsFrom.sameShape (h : p.StartsFrom S) : p.store.SameShape S := by
  obtain ⟨_, hstart⟩ := h
  exact sameShape_start hstart

/-- Without scratch relations and without a queue, the next tick starts from the relations as they
are. -/
theorem startsFrom_of_pending_nil (hlasting : ∀ s ∈ p.store, s.scratch = false)
    (hpending : p.pending = []) : p.StartsFrom p.store := by
  refine ⟨0, ?_⟩
  rw [Store.resetScratch_of_forall hlasting, hpending]
  rfl

/-- What the next tick starts from takes up a deposit into a relation that is not scratch, whether
that is made at once or waits. -/
theorem StartsFrom.of_perform {action : Action} {outcome : Outcome} (h : p.StartsFrom S)
    (haction : action.deposit? = some (id, w)) (hs : p.store[id.slot]? = some s)
    (hscratch : s.scratch = false) (hdeposit : S.deposit p.id ⟨id.slot, w⟩ = .ok (T, grew))
    (hperform : p.perform patience action = .ok (q, outcome)) : q.StartsFrom T := by
  obtain ⟨applied, hstart⟩ := h
  have hone : S.depositAll p.id [⟨id.slot, w⟩] = .ok (T, if grew then 1 else 0) :=
    bind_eq_ok.2 ⟨_, hdeposit, rfl⟩
  obtain ⟨count, hlast⟩ := Store.exists_depositAll_append hstart hone
  rcases perform_cases hperform with ⟨_, _, heq, _, ⟨_, hnow⟩ | hnext⟩ | ⟨_, rfl, _⟩
  · cases haction.symm.trans heq
    obtain ⟨_, _, hnow⟩ := bind_eq_ok.1 hnow
    obtain ⟨⟨R, grew'⟩, hnow, heq⟩ := bind_eq_ok.1 hnow
    cases heq
    have hreset := Store.deposit_resetScratch (d := ⟨id.slot, w⟩) p.id hs hscratch
    rw [hnow] at hreset
    rcases Store.depositAll_first_or_last hreset p.pending with
      ⟨_, _, _, hfault⟩ | ⟨U, a, _, hfirst, hlast', _⟩
    · cases hlast.symm.trans hfault
    · cases hlast.symm.trans hlast'
      exact ⟨a, hfirst⟩
  · cases haction.symm.trans heq
    obtain ⟨_, _, heq⟩ := bind_eq_ok.1 hnext
    cases heq
    exact ⟨count, hlast⟩
  · cases haction

/-! ## Scratch relations and channels -/

/-- A tick does not see what scratch relations held. -/
theorem tick_congr (patience : Nat) (h : p.store.AgreesBut Slot.scratch S) :
    ({ p with store := S } : Program).tick patience = p.tick patience := by
  have hreset : S.resetScratch = p.store.resetScratch := Store.resetScratch_congr h
  have hsame : ({ p with store := S } : Program).sameTickRules = p.sameTickRules := rfl
  have hnext : ({ p with store := S } : Program).nextTickRules = p.nextTickRules := rfl
  unfold Program.tick
  simp only [hreset, hsame, hnext]

/-- What is deposited at once into a scratch relation is lost to the next tick. -/
theorem tick_of_depositNow (patience : Nat) (hs : p.store[id.slot]? = some s)
    (hscratch : s.scratch = true) (h : p.depositNow id w = .ok (q, grew)) :
    q.tick patience = p.tick patience := by
  obtain ⟨_, _, h⟩ := bind_eq_ok.1 h
  obtain ⟨_, hdeposit, heq⟩ := bind_eq_ok.1 h
  cases heq
  exact tick_congr patience (Store.agreesBut_of_deposit hs hscratch hdeposit)

/-- Every channel is scratch. -/
def ChannelsReset (p : Program) : Prop := ∀ s ∈ p.store, s.channel = true → s.scratch = true

namespace ChannelsReset

variable {t : RelationType} {name : String}

theorem of_sameShape (h : p.ChannelsReset) (hpq : p.store.SameShape q.store) :
    q.ChannelsReset := by
  intro t ht
  obtain ⟨i, hi⟩ := List.mem_iff_getElem?.1 ht
  obtain ⟨s, hs⟩ := Store.exists_of_length_eq hpq.1.symm hi
  obtain ⟨_, rfl⟩ := hpq.2 i s t hs hi
  exact h s (List.mem_of_getElem? hs)

theorem of_declare {k : Handle t} (h : p.ChannelsReset)
    (hdeclare : p.declare t name = .ok (q, k)) : q.ChannelsReset := by
  obtain ⟨_, rfl, _⟩ := declare_eq_ok.1 hdeclare
  intro s hs
  rcases List.mem_append.1 hs with hs | hs
  · exact h s hs
  · obtain rfl := List.mem_singleton.1 hs
    exact nofun

theorem of_mark {k : Handle t} {m : Mark} (h : p.ChannelsReset) (hmark : p.mark m k = .ok q) :
    q.ChannelsReset := by
  obtain ⟨marked, hslot, rfl⟩ := mark_eq_ok.1 hmark
  have hmarked := h marked (List.mem_of_getElem? (Facts.slot_eq_ok.1 hslot).2)
  intro s hs
  rcases List.mem_or_eq_of_mem_set hs with hs | rfl
  · exact h s hs
  · cases m with
    | scratch | channel => exact fun _ => rfl
    | input | output => exact hmarked

theorem of_addRule {sources : List RelationId} {target : RelationId} {mode : WriteMode}
    {timing : Timing} {evaluate : Facts → Except Fault (List Write)} (h : p.ChannelsReset)
    (hrule : p.addRule sources target mode timing evaluate = .ok q) : q.ChannelsReset := by
  obtain ⟨_, _, hrule⟩ := bind_eq_ok.1 hrule
  obtain ⟨_, _, heq⟩ := bind_eq_ok.1 hrule
  cases heq
  exact h

end ChannelsReset

/-- What is declared is declared in one step, or the program stays as it was. -/
theorem of_answered {α : Type} {answer : α → Response} {response : Response} {P : Program → Prop}
    {step : Program → Except ProgramError (Program × α)} (hp : P p)
    (hstep : ∀ q a, step p = .ok (q, a) → P q)
    (h : answered answer ((Setup.extend step).runOn p) = (q, response)) : P q := by
  rw [Setup.runOn_extend] at h
  cases hresult : step p with
  | error e =>
      rw [hresult] at h
      cases h
      exact hp
  | ok r =>
      rw [hresult] at h
      cases h
      exact hstep _ _ hresult

theorem ChannelsReset.of_declaration {declaration : Declaration} {response : Response}
    (h : p.ChannelsReset) (hrun : declaration.runOn p = (q, response)) : q.ChannelsReset := by
  cases declaration with
  | relation t name => exact of_answered h (fun _ _ hdeclare => h.of_declare hdeclare) hrun
  | channel facts name =>
      refine of_answered h (fun _ _ hchannel => ?_) hrun
      obtain ⟨⟨_, _⟩, hdeclare, hchannel⟩ := bind_eq_ok.1 hchannel
      obtain ⟨_, hmark, heq⟩ := bind_eq_ok.1 hchannel
      cases heq
      exact (h.of_declare hdeclare).of_mark hmark
  | mark m k =>
      refine of_answered h (fun _ _ hstep => ?_) hrun
      obtain ⟨_, hmark, heq⟩ := bind_eq_ok.1 hstep
      cases heq
      exact h.of_mark hmark
  | join source target timing select | joinMerge source target timing select =>
      refine of_answered h (fun _ _ hstep => ?_) hrun
      obtain ⟨_, hrule, heq⟩ := bind_eq_ok.1 hstep
      cases heq
      exact h.of_addRule hrule

theorem ChannelsReset.of_serve {request : Request} {answer : Response} (h : p.ChannelsReset)
    (hserve : p.serve patience request = .ok (q, answer)) : q.ChannelsReset := by
  cases request with
  | declare declaration => exact h.of_declaration (Except.ok.inj hserve)
  | lookUp t name =>
      unfold serve at hserve
      dsimp only at hserve
      split at hserve <;> cases hserve <;> exact h
  | act action =>
      rcases serve_act_cases hserve with ⟨_, hperform, _⟩ | ⟨_, rfl, _⟩
      · exact h.of_sameShape (sameSetup_of_perform hperform).sameShape
      · exact h

/-- Whatever is asked of a program, its channels are scratch. -/
theorem channelsReset_of_serveAll {requests : List Request} {answers : List Response}
    (h : p.ChannelsReset) (hserve : p.serveAll patience requests = .ok (q, answers)) :
    q.ChannelsReset := by
  induction requests generalizing p answers with
  | nil =>
      cases hserve
      exact h
  | cons request requests ih =>
      obtain ⟨_, _, _, hfirst, hrest, _⟩ := serveAll_cons.1 hserve
      exact ih (h.of_serve hfirst) hrest

theorem ChannelsReset.agreesBut (h : p.ChannelsReset)
    (hagree : p.store.AgreesBut (fun s => s.scratch || s.channel) S) :
    p.store.AgreesBut Slot.scratch S := by
  refine ⟨hagree.1, fun i s t hs ht hscratch => hagree.2 i s t hs ht ?_⟩
  cases hchannel : s.channel with
  | true => cases (h s (List.mem_of_getElem? hs) hchannel).symm.trans hscratch
  | false => simp [hscratch, hchannel]

/-! ## Ticks after deposits -/

/-- A handle to the map of values of `relayRequests`. -/
def relayValues : Handle .dynamicMap := ⟨⟨0, 0⟩⟩

/-- A handle to the set of numbers of `relayRequests`. -/
def relaySeen : Handle (.set .int) := ⟨⟨0, 1⟩⟩

/-- A handle to the channel of `relayRequests`. -/
def relayInbox : Handle (.set .int) := ⟨⟨0, 2⟩⟩

/-- A map, a set and a channel.  The set takes over what comes by the channel, and a zero as long as
the map is empty, which is not monotone; it is sent on by the channel.  A number stands in the
channel, and another one waits. -/
def relayRequests : List Request :=
  [.declare (.relation .dynamicMap "values"), .declare (.relation (.set .int) "seen"),
    .declare (.channel .int "inbox"),
    .declare (.join .unit relaySeen .sameTick (zeroUnlessFilled relayValues)),
    .declare (.join (.of relayInbox) relaySeen .sameTick fun _ number => .ok (some number)),
    .declare (.join (.of relaySeen) relayInbox .nextTick fun _ number => .ok (some number)),
    .act (.add relayInbox 7), .act (.addNext relayInbox 8)]

/-- A value that is deposited in the map of `relayRequests`. -/
def relayEntry : StringMap Dynamic := .singleton "k" (.ofMaxInt ⟨3⟩)

/-- It makes no difference to the next tick whether a deposit was made at once or was queued.
Whatever the rules and the relations of a program are and whatever waits for it: if the relation is
not scratch, then a tick after the deposit at once and a tick after the queued deposit both break
off, both fail, or both complete; where they do not break off, they leave the same program, with the
same relations and the same queue, and report the same, but for how many of the waiting deposits had
an effect of their own.  If the relation is scratch, then the tick after a deposit at once is the
tick without the deposit.  It does not see at all what scratch relations held before it, and in a
program that was set up by requests this goes for channels as well. -/
theorem tick_deposit (p : Program) (patience : Nat) :
    (∀ {t : RelationType} (h : Handle t), h.Resets p.store false →
      (∀ tuple, TicksLater (do let (q, _) ← p.add h tuple; q.tick patience)
          (do let q ← p.addNext h tuple; q.tick patience)) ∧
        ∀ value, TicksLater (do let (q, _) ← p.merge h value; q.tick patience)
          (do let q ← p.mergeNext h value; q.tick patience)) ∧
      (∀ {t : RelationType} (h : Handle t), h.Resets p.store true →
        (∀ tuple q grew, p.add h tuple = .ok (q, grew) → q.tick patience = p.tick patience) ∧
          ∀ value q grew, p.merge h value = .ok (q, grew) → q.tick patience = p.tick patience) ∧
      (∀ S, p.store.AgreesBut Slot.scratch S →
        ({ p with store := S } : Program).tick patience = p.tick patience) ∧
      ∀ id addr limit waited requests answers,
        (create id addr limit).serveAll waited requests = .ok (p, answers) →
          ∀ S, p.store.AgreesBut (fun s => s.scratch || s.channel) S →
            ({ p with store := S } : Program).tick patience = p.tick patience := by
  refine ⟨?_, ?_, fun S hagree => tick_congr patience hagree, ?_⟩
  · rintro t h ⟨s, hs, hscratch⟩
    exact ⟨fun _ => ticksLater_depositNow patience hs hscratch,
      fun _ => ticksLater_depositNow patience hs hscratch⟩
  · rintro t h ⟨s, hs, hscratch⟩
    exact ⟨fun _ _ _ hadd => tick_of_depositNow patience hs hscratch hadd,
      fun _ _ _ hmerge => tick_of_depositNow patience hs hscratch hmerge⟩
  · intro id addr limit waited requests answers hserve S hagree
    have hfresh : (create id addr limit).ChannelsReset := nofun
    exact tick_congr patience ((channelsReset_of_serveAll hfresh hserve).agreesBut hagree)

theorem tick_deposit_relay :
    ∃ p answers, (create 0 "n" none).serveAll 3 relayRequests = .ok (p, answers) ∧
      (∃ q a b, (do let (q, _) ← p.merge relayValues relayEntry; q.tick 3) = .ok (q, .ok a) ∧
        (do let q ← p.mergeNext relayValues relayEntry; q.tick 3) = .ok (q, .ok b) ∧
        b = { a with applied := b.applied } ∧ a.applied = 1 ∧ b.applied = 2 ∧ a.queued = 1) ∧
      (∃ q, p.add relayInbox 9 = .ok (q, true) ∧ q.tick 3 = p.tick 3) ∧
      ({ p with store := p.store.assign relayInbox .empty } : Program).tick 3 = p.tick 3 ∧
      p.facts.get relayInbox ≠ .ok .empty := by
  obtain ⟨p, answers, hserve, ⟨q, a, hnow, ha, hqueued⟩, ⟨q', b, hnext, hb⟩, ⟨r, hadd⟩, hlasting,
      hscratch, v, hv, hfilled⟩ : ∃ p answers,
      (create 0 "n" none).serveAll 3 relayRequests = .ok (p, answers) ∧
      (∃ q a, (do let (q, _) ← p.merge relayValues relayEntry; q.tick 3) = .ok (q, .ok a) ∧
        a.applied = 1 ∧ a.queued = 1) ∧
      (∃ q b, (do let q ← p.mergeNext relayValues relayEntry; q.tick 3) = .ok (q, .ok b) ∧
        b.applied = 2) ∧
      (∃ q, p.add relayInbox 9 = .ok (q, true)) ∧ relayValues.Resets p.store false ∧
      relayInbox.Resets p.store true ∧ ∃ v, p.facts.get relayInbox = .ok v ∧ v ≠ .empty :=
    ⟨_, _, rfl, ⟨_, _, rfl, by decide, by decide⟩, ⟨_, _, rfl, by decide⟩, ⟨_, rfl⟩, ⟨_, rfl, rfl⟩,
      ⟨_, rfl, rfl⟩, _, rfl, by decide⟩
  obtain ⟨hsoon, hlost, _, hmail⟩ := tick_deposit p 3
  have halike := (hsoon relayValues hlasting).2 relayEntry
  rw [hnow, hnext] at halike
  have hagree : p.store.AgreesBut (fun s => s.scratch || s.channel)
      (p.store.assign relayInbox .empty) := by
    obtain ⟨s, hs, hresets⟩ := hscratch
    exact Store.agreesBut_assign hs (by simp [hresets])
  refine ⟨p, answers, hserve, ?_, ⟨r, hadd, (hlost relayInbox hscratch).1 9 r true hadd⟩,
    hmail _ _ _ _ _ _ hserve _ hagree, ?_⟩
  · cases halike with
    | completed _ hreport _ => exact ⟨q, a, b, hnow, hnext, hreport, ha, hb, hqueued⟩
  · rw [hv]
    exact fun heq => hfilled (Except.ok.inj heq)

end Program

end Ratchet

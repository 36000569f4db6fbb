import Ratchet.Proofs.Program.Fixpoint

/-!
# Ticks with and without a bound on their passes

A program can bound the passes of its ticks.  Passes are made one after the other in either case, so
the bound decides only where they are cut off: going on from there is what an unbounded tick does
(`settle_add`).

A tick that settles needs one pass in which nothing happens, and that one counts.  So a bound of `k`
is kept by the ticks that settle after at most `k` passes.  It is hit if each of the first `k`
passes changes something (`StillChanging`), also if the last of them has come to the fixpoint and a
further one would have told; with a bound of zero it is always hit.  What breaks off a tick does so
with or without a bound, unless the bound is hit before.

## Main result

* `Program.tick_bounded`: what a tick with a bound does, from what the tick without one does.
-/

namespace Ratchet

variable {program k n done count : Nat} {rs : List Rule} {S T : Store}

/-! ## Cutting off the passes -/

/-- Goes on after passes that were cut off. -/
def Settled.goOn (next : Store → Except Fault Settled) : Settled → Except Fault Settled
  | .stable store passes => .ok (.stable store passes)
  | .unstable store => next store

/-- Passes can be cut off anywhere and gone on with. -/
theorem settle_add : settle program rs (k + n) done S =
    settle program rs k done S >>= Settled.goOn fun T => settle program rs n (done + k) T := by
  induction k generalizing done S with
  | zero =>
      rw [Nat.zero_add]
      rfl
  | succ k ih =>
      rw [Nat.succ_add, settle, settle]
      cases pass program rs S with
      | error fault => rfl
      | ok r =>
          obtain ⟨R, changed⟩ := r
          cases changed with
          | false => rfl
          | true =>
              have hdone : done + 1 + k = done + (k + 1) := by omega
              simp only [bind, Except.bind, if_true]
              rw [ih, hdone]
              rfl

theorem le_of_settle (h : settle program rs k done S = .ok (.stable T count)) :
    done < count ∧ count ≤ done + k := by
  obtain ⟨n, _, _, _, ⟨hlt, _, heq⟩ | ⟨_, heq⟩⟩ := settle_eq_ok h
  · cases heq
    omega
  · cases heq

/-- Passes that settle do so within every limit that leaves room for them. -/
theorem settle_of_le (h : settle program rs n done S = .ok (.stable T count))
    (hcount : count ≤ done + k) : settle program rs k done S = .ok (.stable T count) := by
  rcases Nat.le_total n k with hle | hle
  · rw [← Nat.add_sub_cancel' hle, settle_add, h]
    rfl
  · rw [← Nat.add_sub_cancel' hle, settle_add] at h
    obtain ⟨settled, hsettled, hrest⟩ := bind_eq_ok.1 h
    cases settled with
    | stable T' count' =>
        cases hrest
        exact hsettled
    | unstable T' =>
        -- all the passes up to the limit are behind, and at least one more is to come
        have hmore := (le_of_settle hrest).1
        omega

/-- The first `k` passes lead from `S` to `T`, and each of them changes something. -/
def StillChanging (program : Nat) (rs : List Rule) (k : Nat) (S T : Store) : Prop :=
  passes program rs k S = .ok T ∧
    ∀ m < k, ∃ U V, passes program rs m S = .ok U ∧ pass program rs U = .ok (V, true)

theorem settle_eq_unstable_iff :
    settle program rs k done S = .ok (.unstable T) ↔ StillChanging program rs k S T := by
  constructor
  · intro h
    obtain ⟨n, T', hn, hchanging, ⟨_, _, heq⟩ | ⟨rfl, heq⟩⟩ := settle_eq_ok h
    · cases heq
    · cases heq
      exact ⟨hn, hchanging⟩
  · intro h
    induction k generalizing done S with
    | zero =>
        obtain ⟨hpasses, _⟩ := h
        cases hpasses
        rfl
    | succ k ih =>
        obtain ⟨hpasses, hchanging⟩ := h
        obtain ⟨_, R, ⟨⟩, hpass⟩ := hchanging 0 (Nat.succ_pos k)
        obtain ⟨R', changed, hpass', hrest⟩ := passes_succ.1 hpasses
        cases hpass.symm.trans hpass'
        have hstill : StillChanging program rs k R T := by
          refine ⟨hrest, fun m hm => ?_⟩
          obtain ⟨U, V, hU, hV⟩ := hchanging (m + 1) (by omega)
          obtain ⟨_, _, hpass', hU⟩ := passes_succ.1 hU
          cases hpass.symm.trans hpass'
          exact ⟨U, V, hU, hV⟩
        exact bind_eq_ok.2 ⟨_, hpass, ih hstill⟩

/-! ## Ticks -/

namespace Program

variable {p q : Program} {patience : Nat} {report : TickReport} {fault : Fault}
  {e : ProgramError}

/-- How a tick fails: each of the passes that it may take changes something. -/
theorem tick_eq_failed : { p with passLimit := some k }.tick patience = .ok (q, .error e) ↔
    e = .diverged p.addr p.ticks k ∧ ∃ start applied,
      p.store.resetScratch.depositAll p.id p.pending = .ok (start, applied) ∧
      StillChanging p.id p.sameTickRules k start q.store ∧
      q = { p with passLimit := some k, store := q.store, pending := [] } := by
  constructor
  · intro h
    obtain ⟨⟨start, applied⟩, hstart, h⟩ := bind_eq_ok.1 h
    obtain ⟨settled, hsettle, h⟩ := bind_eq_ok.1 h
    cases settled with
    | stable store count =>
        obtain ⟨_, _, heq⟩ := bind_eq_ok.1 h
        cases heq
    | unstable store =>
        cases h
        exact ⟨rfl, start, applied, hstart, settle_eq_unstable_iff.1 hsettle, rfl⟩
  · rintro ⟨rfl, start, applied, hstart, hchanging, hq⟩
    rw [hq]
    exact bind_eq_ok.2 ⟨_, hstart, bind_eq_ok.2 ⟨_, settle_eq_unstable_iff.2 hchanging, rfl⟩⟩

/-- A tick keeps its bound just if it comes to its end without one, in no more passes. -/
theorem tick_eq_kept : { p with passLimit := some k }.tick patience = .ok (q, .ok report) ↔
    q.passLimit = some k ∧ report.passes ≤ k ∧
      ∃ n, { p with passLimit := none }.tick n =
        .ok ({ q with passLimit := none }, .ok report) := by
  constructor
  · intro h
    obtain ⟨start, applied, store, count, queue, hstart, hsettle, hqueue, rfl, rfl⟩ :=
      tick_eq_ok.1 h
    have hcount : count ≤ k := by
      have hle := (le_of_settle hsettle).2
      simpa using hle
    exact ⟨rfl, hcount, k, tick_eq_ok.2
      ⟨start, applied, store, count, queue, hstart, hsettle, hqueue, rfl, rfl⟩⟩
  · rintro ⟨hbound, hcount, n, h⟩
    obtain ⟨start, applied, store, count, queue, hstart, hsettle, hqueue, hq, rfl⟩ :=
      tick_eq_ok.1 h
    have hsettle' : settle p.id p.sameTickRules k 0 start = .ok (.stable store count) :=
      settle_of_le hsettle (by simpa using hcount)
    refine tick_eq_ok.2 ⟨start, applied, store, count, queue, hstart, hsettle', hqueue, ?_, rfl⟩
    calc q = { { q with passLimit := none } with passLimit := some k } := by rw [← hbound]
      _ = _ := by rw [hq]

/-- What breaks off a tick within its bound breaks it off without one. -/
theorem fault_of_bounded (h : { p with passLimit := some k }.tick patience = .error fault)
    (hn : k ≤ n) : { p with passLimit := none }.tick n = .error fault := by
  rcases bind_eq_error.1 h with hstart | ⟨⟨start, applied⟩, hstart, h⟩
  · exact bind_eq_error.2 (.inl hstart)
  · refine bind_eq_error.2 (.inr ⟨_, hstart, ?_⟩)
    have hadd : settle p.id p.sameTickRules n 0 start =
        settle p.id p.sameTickRules k 0 start >>= Settled.goOn fun T =>
          settle p.id p.sameTickRules (n - k) (0 + k) T := by
      rw [← settle_add, Nat.add_sub_cancel' hn]
    rcases bind_eq_error.1 h with hsettle | ⟨settled, hsettle, h⟩
    · refine bind_eq_error.2 (.inl (hadd.trans ?_))
      exact bind_eq_error.2 (.inl hsettle)
    · cases settled with
      | unstable store => cases h
      | stable store count =>
          -- the passes have settled, so it was a rule of the next tick
          rcases bind_eq_error.1 h with hqueue | ⟨_, _, heq⟩
          · refine bind_eq_error.2 (.inr ⟨.stable store count, hadd.trans ?_, ?_⟩)
            · exact bind_eq_ok.2 ⟨_, hsettle, rfl⟩
            · exact bind_eq_error.2 (.inl hqueue)
          · cases heq

/-- A tick that hits its bound has made passes that the tick without one makes as well, and that one
goes on from there. -/
theorem settle_of_failed (h : { p with passLimit := some k }.tick patience = .ok (q, .error e)) :
    ∃ start applied, p.store.resetScratch.depositAll p.id p.pending = .ok (start, applied) ∧
      ∀ n, settle p.id p.sameTickRules (k + n) 0 start =
        settle p.id p.sameTickRules n k q.store := by
  obtain ⟨_, start, applied, hstart, hchanging, _⟩ := tick_eq_failed.1 h
  refine ⟨start, applied, hstart, fun n => ?_⟩
  rw [settle_add, settle_eq_unstable_iff.2 hchanging, Nat.zero_add]
  rfl

/-- A tick with a bound of `k` passes ends like the tick without one, if that comes to its end
within `k` passes: with the same report, the same relations and the same queue.  Otherwise it fails.
Then it names the address, the number of the tick and `k`; nothing waits, the tick does not count,
and the relations are as the first `k` passes of the tick without a bound leave them, each of which
changes something.  The rules of the next tick are not asked.

It breaks off only if the tick without a bound breaks off, and in the same way. -/
theorem tick_bounded (p : Program) (k patience : Nat) :
    (∀ q report, { p with passLimit := some k }.tick patience = .ok (q, .ok report) ↔
      q.passLimit = some k ∧ report.passes ≤ k ∧ ∃ n,
        { p with passLimit := none }.tick n = .ok ({ q with passLimit := none }, .ok report)) ∧
    (∀ q e, { p with passLimit := some k }.tick patience = .ok (q, .error e) ↔
      e = .diverged p.addr p.ticks k ∧ ∃ start applied,
        p.store.resetScratch.depositAll p.id p.pending = .ok (start, applied) ∧
        StillChanging p.id p.sameTickRules k start q.store ∧
        q = { p with passLimit := some k, store := q.store, pending := [] }) ∧
    (∀ q e, { p with passLimit := some k }.tick patience = .ok (q, .error e) →
      (∃ start applied, p.store.resetScratch.depositAll p.id p.pending = .ok (start, applied) ∧
        ∀ n, settle p.id p.sameTickRules (k + n) 0 start =
          settle p.id p.sameTickRules n k q.store) ∧
      ∀ rules : List Rule, (rules.filter fun r => r.timing = .sameTick) = p.sameTickRules →
        { p with passLimit := some k, rules := rules }.tick patience =
          .ok ({ q with rules := rules }, .error e)) ∧
    ∀ fault, { p with passLimit := some k }.tick patience = .error fault →
      ∀ n, k ≤ n → { p with passLimit := none }.tick n = .error fault := by
  refine ⟨fun q report => tick_eq_kept, fun q e => tick_eq_failed, fun q e h => ?_,
    fun fault h n hn => fault_of_bounded h hn⟩
  refine ⟨settle_of_failed h, fun rules hrules => ?_⟩
  obtain ⟨rfl, start, applied, hstart, hchanging, hq⟩ := tick_eq_failed.1 h
  refine tick_eq_failed (p := { p with rules := rules }).2 ⟨rfl, start, applied, hstart, ?_, ?_⟩
  · rw [show Program.sameTickRules { p with rules := rules } = p.sameTickRules from hrules]
    exact hchanging
  · rw [hq]

/-- The chain needs three passes.  With a bound of three it takes them, with a bound of two its
relations are as the second pass has left them, and with a bound of zero no pass is made. -/
theorem tick_bounded_chain :
    (∃ q report n, { chain with passLimit := some 3 }.tick 0 = .ok (q, .ok report) ∧
      chain.tick n = .ok ({ q with passLimit := none }, .ok report)) ∧
    (∃ q start applied, { chain with passLimit := some 2 }.tick 0 =
        .ok (q, .error (.diverged "n" 0 2)) ∧ q.pending = [] ∧ q.ticks = 0 ∧
      chain.store.resetScratch.depositAll chain.id chain.pending = .ok (start, applied) ∧
      passes chain.id chain.sameTickRules 2 start = .ok q.store) ∧
    ∃ q applied, { chain with passLimit := some 0 }.tick 0 = .ok (q, .error (.diverged "n" 0 0)) ∧
      chain.store.resetScratch.depositAll chain.id chain.pending = .ok (q.store, applied) := by
  have hfailed : ∀ k < 3, ∃ q e, { chain with passLimit := some k }.tick 0 = .ok (q, .error e) := by
    intro k hk
    have hend : ∀ k < 3, (({ chain with passLimit := some k }.tick 0).toOption.map
        fun r : Program × Except ProgramError TickReport => r.2.toOption.isNone) = some true := by
      decide
    have hk := hend k hk
    cases htick : { chain with passLimit := some k }.tick 0 with
    | error fault => simp [htick, Except.toOption] at hk
    | ok r =>
        obtain ⟨q, e | report⟩ := r
        · exact ⟨q, e, rfl⟩
        · simp [htick, Except.toOption] at hk
  refine ⟨?_, ?_, ?_⟩
  · obtain ⟨q, report, htick⟩ :=
      exists_tick_of_completes (by decide : { chain with passLimit := some 3 }.completes 0)
    obtain ⟨_, _, n, hn⟩ := ((tick_bounded chain 3 0).1 q report).1 htick
    exact ⟨q, report, n, htick, hn⟩
  · obtain ⟨q, e, htick⟩ := hfailed 2 (by decide)
    obtain ⟨rfl, start, applied, hstart, ⟨hpasses, _⟩, hq⟩ :=
      ((tick_bounded chain 2 0).2.1 q e).1 htick
    exact ⟨q, start, applied, htick, hq ▸ rfl, hq ▸ rfl, hstart, hpasses⟩
  · obtain ⟨q, e, htick⟩ := hfailed 0 (by decide)
    obtain ⟨rfl, start, applied, hstart, ⟨hpasses, _⟩, _⟩ :=
      ((tick_bounded chain 0 0).2.1 q e).1 htick
    cases hpasses
    exact ⟨q, applied, htick, hstart⟩

end Program

end Ratchet

import Ratchet.Proofs.Election.Tick

/-!
# Leaders through a tick

Why the leaders that a member knows of were elected.  A member is *crowned* in a term if it is known
to be `elected`, or if it is the member itself and its own state says that it has won.

A member takes note of leaders from two sides.  As the winner of a term it enters itself, and when a
message of a leader is meant for it, it enters the sender.  The entries of one term are joined, and
a join of two names is one of them, so a name that is found was entered (`Follows.update_leaders`).
What was won stays won, so whoever was crowned is still crowned at the end of the tick.

The messages of a leader are queued at the end of the tick, by a rule that reads the term and the
mark of the leader apart from each other.  That the mark is about this term is what `Sound.leads`
says of the state in which the passes end: the term does not move once the mark is set.  So the
sender of such a message is crowned in the term of the message (`crowned_of_announce`).
-/

namespace Ratchet.Election

/-- Which members are known to be elected: by term and address. -/
abbrev Elected := String → String → Prop

/-- The member is known to be elected, or it is this one and has won. -/
def Crowned (elected : Elected) (here : String) (σ : State) (key leader : String) : Prop :=
  elected key leader ∨ leader = here ∧ (σ .won).get? key = some ⟨true⟩

/-- The sender of the message is elected in the term of the message. -/
def Legitimate (elected : Elected) (m : AppendRequest) : Prop :=
  elected (termKey m.leaderTerm) m.leaderAddr

/-- Whom the member hears from is elected, and whom it takes for a leader is crowned. -/
structure Follows (elected : Elected) (here : String) (σ : State) : Prop where
  heard : ∀ m ∈ σ .appendRequest, Legitimate elected m
  leaders : ∀ key leader, (σ .leaders).get? key = some ⟨leader⟩ →
    Crowned elected here σ key leader

/-- What is won in the one state is won in the other one. -/
def KeepsWins (σ τ : State) : Prop :=
  ∀ key, (σ .won).get? key = some ⟨true⟩ → (τ .won).get? key = some ⟨true⟩

variable {elected elected' : Elected} {known : Ballots} {here key leader : String} {quorum id : Nat}
  {scope : String} {S T : Store} {σ τ υ origin : State}

theorem KeepsWins.trans (hστ : KeepsWins σ τ) (hτυ : KeepsWins τ υ) : KeepsWins σ υ :=
  fun key h => hτυ key (hστ key h)

theorem Crowned.of_keepsWins (h : Crowned elected here σ key leader) (hστ : KeepsWins σ τ) :
    Crowned elected here τ key leader :=
  h.imp_right fun ⟨hhere, hwon⟩ => ⟨hhere, hστ key hwon⟩

/-- More may become known of elections. -/
theorem Follows.mono (h : Follows elected here σ)
    (hknown : ∀ key leader, elected key leader → elected' key leader) :
    Follows elected' here σ where
  heard m hm := hknown _ _ (h.heard m hm)
  leaders key leader hleader := (h.leaders key leader hleader).imp_left (hknown key leader)

/-! ## Updates -/

/-- Entries for crowned members leave only crowned members. -/
theorem Follows.update_leaders {leaders : StringMap MaxText} {entries : List (MapEntry MaxText)}
    (h : Follows elected here σ) (hadd : Relation.addAll (σ .leaders) entries = .ok leaders)
    (hcrowned : ∀ e ∈ entries, Crowned elected here σ e.key e.value.value) :
    Follows elected here (Function.update σ .leaders leaders) where
  heard := h.heard
  leaders key leader hleader := by
    have hor : ∀ a b c : MaxText, Lattice.join a b = .ok c → c = ⟨leader⟩ →
        a = ⟨leader⟩ ∨ b = ⟨leader⟩ := by
      rintro a b _ ⟨⟩ hc
      unfold MaxText.join at hc
      split at hc
      · exact .inr hc
      · exact .inl hc
    rcases StringMap.mem_of_addAll hor hadd hleader rfl with ⟨_, hold, rfl⟩ | ⟨e, he, rfl, hvalue⟩
    · exact h.leaders key leader hold
    · have hnew := hcrowned e he
      rw [hvalue] at hnew
      exact hnew

theorem Follows.update_won {won : StringMap Flag} (h : Follows elected here σ)
    (hkept : KeepsWins σ (Function.update σ .won won)) :
    Follows elected here (Function.update σ .won won) where
  heard := h.heard
  leaders key leader hleader := (h.leaders key leader hleader).of_keepsWins hkept

theorem Follows.update_other {c : Cell} {v : c.type.Value} (h : Follows elected here σ)
    (hc : c ∉ [Cell.appendRequest, .won, .leaders]) :
    Follows elected here (Function.update σ c v) ∧ KeepsWins σ (Function.update σ c v) := by
  simp only [List.mem_cons, List.not_mem_nil, or_false, not_or] at hc
  obtain ⟨hrequest, hwon, hleaders⟩ := hc
  have hsame : Function.update σ c v .won = σ .won := Function.update_of_ne (Ne.symm hwon) v σ
  refine ⟨⟨?_, ?_⟩, ?_⟩
  · rw [Function.update_of_ne (Ne.symm hrequest)]
    exact h.heard
  · unfold Crowned
    rw [Function.update_of_ne (Ne.symm hleaders), hsame]
    exact h.leaders
  · unfold KeepsWins
    rw [hsame]
    exact fun _ hkey => hkey

/-! ## Rules -/

/-- The store has a state that follows elected members and keeps what is won at `origin`. -/
def Loyal (elected : Elected) (here : String) (id : Nat) (origin : State) (S : Store) : Prop :=
  ∃ σ, Reads id S σ ∧ Follows elected here σ ∧ KeepsWins origin σ

section Rules

variable {c : Cell} {sources : List Cell} {ρ : Type} {source : Source ρ}
  (h : Loyal elected here id origin S)

include h

theorem Loyal.of_other {select : Facts → ρ → Except Fault (Option c.type.Tuple)}
    (hc : c ∉ [Cell.appendRequest, .won, .leaders])
    (hfire : (rule scope sources c .sameTick id source select).fire id S = .ok T) :
    Loyal elected here id origin T := by
  obtain ⟨σ, hσ, hfollows, hkept⟩ := h
  obtain ⟨_, value, _, _, hT⟩ := hσ.exists_of_fire hfire
  obtain ⟨hfollows, hkept'⟩ := hfollows.update_other hc
  exact ⟨_, hT, hfollows, hkept.trans hkept'⟩

theorem Loyal.of_won {select : Facts → ρ → Except Fault (Option (MapEntry Flag))}
    (hfire : (rule scope sources .won .sameTick id source select).fire id S = .ok T) :
    Loyal elected here id origin T := by
  obtain ⟨σ, hσ, hfollows, hkept⟩ := h
  obtain ⟨_, won, _, hadd, hT⟩ := hσ.exists_of_fire hfire
  have hkept' : KeepsWins σ (Function.update σ .won won) := fun _ hkey => won_of_addAll hadd hkey
  exact ⟨_, hT, hfollows.update_won hkept', hkept.trans hkept'⟩

/-- A rule that takes note of leaders must only enter crowned ones. -/
theorem Loyal.of_leaders
    {select : Facts → c.type.Tuple → Except Fault (Option (MapEntry MaxText))}
    (hfire : (rule scope sources .leaders .sameTick id (.of (Cell.handle id c)) select).fire id S =
      .ok T)
    (hcrowned : ∀ σ, Follows elected here σ → ∀ row ∈ Relation.tuples (σ c), ∀ e,
      select ⟨id, S⟩ row = .ok (some e) → Crowned elected here σ e.key e.value.value) :
    Loyal elected here id origin T := by
  obtain ⟨σ, hσ, hfollows, hkept⟩ := h
  obtain ⟨entries, leaders, hentries, hadd, hT⟩ := hσ.exists_of_fire hfire
  refine ⟨_, hT, hfollows.update_leaders hadd fun e he => ?_, hkept⟩
  obtain ⟨row, hrow, hselect⟩ := (hσ.mem_selected hentries).1 he
  exact hcrowned σ hfollows row hrow e hselect

theorem Loyal.recordOwnLead (hfire : (recordOwnLeadRule id here scope).fire id S = .ok T) :
    Loyal elected here id origin T := by
  refine h.of_leaders hfire fun σ _ victory hvictory e hselect => ?_
  unfold Election.recordOwnLead at hselect
  simp only [Except.ok.injEq, Option.ite_none_right_eq_some, Option.some.injEq] at hselect
  obtain ⟨hvalue, rfl⟩ := hselect
  obtain ⟨key, ⟨flag⟩⟩ := victory
  obtain rfl : flag = true := hvalue
  exact .inr ⟨rfl, StringMap.mem_tuples.1 hvictory⟩

theorem Loyal.recordLeader (hfire : (recordLeaderRule id here scope).fire id S = .ok T) :
    Loyal elected here id origin T := by
  refine h.of_leaders hfire fun σ hfollows request hrequest e hselect => ?_
  unfold Election.recordLeader at hselect
  simp only [Except.ok.injEq, Option.ite_none_right_eq_some, Option.some.injEq] at hselect
  obtain ⟨_, rfl⟩ := hselect
  exact .inl (hfollows.heard request hrequest)

end Rules

theorem loyal_of_fire : ∀ r ∈ followRules id scope ++ countRules id here scope, ∀ S T,
    Loyal elected here id origin S → r.fire id S = .ok T → Loyal elected here id origin T := by
  simp only [followRules, countRules, List.cons_append, List.nil_append, List.forall_mem_cons]
  exact ⟨fun _ _ h => h.of_other (by decide), fun _ _ h => h.of_other (by decide),
    fun _ _ h => h.of_other (by decide), fun _ _ h => h.of_other (by decide),
    fun _ _ h => h.of_other (by decide), fun _ _ h => h.of_other (by decide),
    fun _ _ h => h.of_other (by decide), fun _ _ h => h.of_won,
    fun _ _ h => h.recordOwnLead, fun _ _ h => h.of_other (by decide),
    fun _ _ h => h.recordLeader, List.forall_mem_nil _⟩

/-! ## Deposits -/

/-- The messages of leaders that the deposit brings are from elected members. -/
def Proper (elected : Elected) (d : Deposit) : Prop :=
  ∀ m ∈ d.write.factsOf (.message .appendRequest), Legitimate elected m

theorem Proper.mono {d : Deposit} (h : Proper elected d)
    (hknown : ∀ key leader, elected key leader → elected' key leader) : Proper elected' d :=
  fun m hm => hknown _ _ (h m hm)

theorem proper_add {c : Cell} {x : c.type.Tuple} (hne : c ≠ .appendRequest) :
    Proper elected ⟨c.slot, .add c.type x⟩ := by
  cases c <;> first | exact absurd rfl hne | nofun

/-- A tick starts with the messages that waited for it, and with the leaders that were known. -/
theorem follows_start {pending : List Deposit} {applied : Nat}
    (hS : (memberSlots scope).SameShape S) (hσ : Reads id S σ)
    (htame : ∀ d ∈ pending, Tame known d) (hproper : ∀ d ∈ pending, Proper elected d)
    (hstart : S.resetScratch.depositAll id pending = .ok (T, applied))
    (h : Follows elected here σ) : Loyal elected here id σ T := by
  obtain ⟨τ, hτ, hsame, _, _⟩ := exists_start hS hσ htame hstart
  have hwon : τ .won = σ .won := hsame .won (by decide)
  have hleaders : τ .leaders = σ .leaders := hsame .leaders (by decide)
  obtain ⟨requests, hrequests, hmem⟩ :=
    exists_get_of_depositAll ((hσ.resetScratch hS) .appendRequest) hstart
  obtain rfl := Except.ok.inj (hrequests.symm.trans (hτ .appendRequest))
  refine ⟨τ, hτ, ⟨?_, ?_⟩, ?_⟩
  · intro m hm
    rcases (hmem m).1 hm with hold | ⟨d, hd, _, hm⟩
    · -- the channel was empty after the reset
      exact absurd hold List.not_mem_nil
    · exact hproper d hd m hm
  · unfold Crowned
    rw [hleaders, hwon]
    exact h.leaders
  · unfold KeepsWins
    rw [hwon]
    exact fun _ hkey => hkey

/-- A member only announces itself in a term that it has won. -/
theorem crowned_of_announce {row : Bool × String} {m : AppendRequest} (hσ : Reads id S σ)
    (hsound : Sound known here quorum σ) (hrow : row.1 = (σ .isLeader).value)
    (h : announce (memberOf id) here ⟨id, S⟩ row = .ok (some m)) :
    Legitimate (Crowned elected here σ) m := by
  unfold announce at h
  rw [hσ.currentTerm] at h
  split at h
  · next hleads =>
      cases h
      exact .inr ⟨rfl, (hsound.leads (hrow ▸ hleads)).1⟩
  · cases h

theorem proper_of_send {r : Rule} {ds : List Deposit} {d : Deposit} (hσ : Reads id S σ)
    (hsound : Sound known here quorum σ) (hr : r ∈ sendRules id here scope)
    (hds : r.consequences ⟨id, S⟩ = .ok ds) (hd : d ∈ ds) :
    Proper (Crowned elected here σ) d := by
  simp only [sendRules, List.mem_cons, List.not_mem_nil, or_false] at hr
  rcases hr with rfl | rfl | rfl | rfl | rfl | rfl
  case inr.inr.inr.inr.inl =>
    -- the only rule that queues messages of a leader
    obtain ⟨requests, hrequests, request, hrequest, rfl⟩ := exists_of_consequences hds hd
    obtain ⟨rows, hrows, row, hrow, hselect⟩ := (mem_selected hrequests).1 hrequest
    obtain ⟨flags, hflags, hflag⟩ := Source.exists_of_mem_product hrows hrow
    obtain rfl := Except.ok.inj (hσ.rows.symm.trans hflags)
    intro m hm
    obtain rfl := List.mem_singleton.1 hm
    exact crowned_of_announce hσ hsound (List.mem_singleton.1 hflag) hselect
  all_goals
    obtain ⟨_, _, _, _, rfl⟩ := exists_of_consequences hds hd
    exact proper_add (by decide)

/-! ## Ticks -/

/-- A tick keeps a member following elected members, and what it queues speaks of crowned ones only.
The state that the tick ends in is known to be sound. -/
theorem follows_of_tick {p q : Program} {patience : Nat} {result : Except ProgramError TickReport}
    (hrules : p.rules = memberRules p.id here scope) (hp : (memberSlots scope).SameShape p.store)
    (hσ : Reads p.id p.store σ) (h : Follows elected here σ)
    (htame : ∀ d ∈ p.pending, Tame known d) (hproper : ∀ d ∈ p.pending, Proper elected d)
    (htick : p.tick patience = .ok (q, result)) (hτ : Reads q.id q.store τ)
    {known' : Ballots} (hsound : Sound known' here quorum τ) :
    Follows elected here τ ∧ KeepsWins σ τ ∧
      ∀ d ∈ q.pending, Proper (Crowned elected here τ) d := by
  obtain ⟨start, applied, n, hstart, hpasses, hqueue, hq⟩ := Program.passes_of_tick htick
  have hid : q.id = p.id := by rw [hq]
  rw [hid] at hτ
  rw [Program.sameTickRules, hrules, filter_sameTick_memberRules] at hpasses
  have hloyal := follows_start hp hσ htame hproper hstart h
  obtain ⟨υ, hυ, hfollows, hkept⟩ : Loyal elected here p.id σ q.store :=
    of_passes (fun _ _ _ hS hpass => of_pass loyal_of_fire hS hpass) hloyal hpasses
  obtain rfl := hτ.unique hυ
  refine ⟨hfollows, hkept, ?_⟩
  intro d hd
  rcases hqueue with hqueue | hnone
  · rw [Program.nextTickRules, hrules, filter_nextTick_memberRules] at hqueue
    obtain ⟨r, hr, ds, hds, hd⟩ := mem_of_allConsequences hqueue hd
    exact proper_of_send hτ hsound hr hds hd
  · rw [hnone] at hd
    cases hd

end Ratchet.Election

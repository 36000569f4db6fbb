import Ratchet.Proofs.Election.Safety
import Ratchet.Proofs.Election.TwoPasses

/-!
# Terms are bounded by timeouts

Terms spread in many ways: through three types of messages, a register, a set of campaigns and what
is queued for them.  But all of these only pass terms on.  A new term comes from a timeout, and it
is one more than the term that the member has got to by the end of the tick, whatever it has heard
in that tick.  So the number of ticks that found a timeout, at any member, bounds all terms that
there are, and as long as that is not the greatest integer no tick of a member overflows.

The argument looks at facts only.  `Cell.terms` are the terms that a fact of a relation speaks of.
Registers and sets make no facts up, and the facts of other relations speak of no terms, so a state
stays within a bound as long as it is given facts within it (`State.Within.of_depositAll`,
`holdsWithin_of_fire`).  The bound moves only when a tick queues its facts (`exists_of_send`), and
only if there was a timeout.

Nothing is asked of the network or of the members.  A message can be delivered to anyone, any number
of times, members need not have addresses of their own, and a member ticks whether or not it knows
of the others.

## Main result

* `World.play_bounded`: the bound on all terms, and ticks that do not overflow.
-/

namespace Ratchet.Election

/-! ## Moves -/

/-- What is deposited into a member from outside. -/
inductive Stimulus where
  /-- The address of a peer. -/
  | peer (addr : String)
  | peers (addrs : GrowSet String)
  /-- Whether the member has waited too long for a leader. -/
  | timeout (fired : Bool)
  | timeouts (fired : Flag)

namespace Stimulus

/-- The relation that is deposited into. -/
def cell : Stimulus → Cell
  | peer _ | peers _ => .peers
  | timeout _ | timeouts _ => .electionTimeout

/-- The deposit, at once or for the next tick. -/
def action (m : Member) (timing : Timing) : Stimulus → Action
  | peer addr => .addAt timing m.peers addr
  | peers addrs => .mergeAt timing m.peers addrs
  | timeout fired => .addAt timing m.electionTimeout fired
  | timeouts fired => .mergeAt timing m.electionTimeout fired

end Stimulus

/-- What happens to the member at a place. -/
inductive Move where
  | stimulate (place : Nat) (timing : Timing) (stimulus : Stimulus)
  /-- It receives one of the messages that were sent, whoever that is addressed to. -/
  | deliver (place : Nat) (message : Nat)
  /-- It ticks, whether or not it knows of the other members. -/
  | tick (place : Nat) (patience : Nat)

/-- Whether the last tick of the member found that it had waited too long.  No rule writes the flag,
so it says at the end of a tick what it said when the passes started. -/
def Seat.timedOut (s : Seat) : Bool :=
  (s.program.facts.get s.member.electionTimeout).toOption.any Flag.value

namespace World

/-- The world after a move. -/
def move (w : World) : Move → Option World
  | .stimulate place timing stimulus => do
    let s ← w.seats[place]?
    let (p, _) ← (s.program.perform 0 (stimulus.action s.member timing)).toOption
    return w.put place { s with program := p } []
  | .deliver place message => do
    let s ← w.seats[place]?
    let m ← w.sent[message]?
    let channel ← s.member.channels.channel? m.type
    let p ← (s.program.send channel m.content).toOption
    return w.put place { s with program := p } []
  | .tick place patience => do
    let s ← w.seats[place]?
    let (p, _) ← (s.program.tick patience).toOption
    return w.put place { s with program := p } (p.pending.filterMap messageOf?)

/-- How many timeouts a move has found, given the world after it: one or none. -/
def found (w : World) : Move → Nat
  | .tick place _ => (w.seats[place]?.any Seat.timedOut).toNat
  | _ => 0

/-- The world after a list of moves, and how many of them were ticks that found a timeout. -/
def play : World → List Move → Option (World × Nat)
  | w, [] => some (w, 0)
  | w, move :: moves => do
    let v ← w.move move
    let (w', n) ← play v moves
    return (w', v.found move + n)

end World

/-! ## Terms -/

/-- The terms that a message speaks of. -/
def Message.terms : Message → List Int64
  | ⟨.voteRequest, request⟩ => [request.candidateTerm, request.lastLogTerm]
  | ⟨.voteReply, reply⟩ => [reply.term]
  | ⟨.appendRequest, request⟩ => [request.leaderTerm, request.prevLogTerm]
  | ⟨.appendReply, reply⟩ => [reply.term]
  | _ => []

/-- The terms that a fact of a relation speaks of. -/
def Cell.terms : (c : Cell) → c.type.Tuple → List Int64
  | .voteRequest, request => Message.terms ⟨.voteRequest, request⟩
  | .voteReply, reply => Message.terms ⟨.voteReply, reply⟩
  | .appendRequest, request => Message.terms ⟨.appendRequest, request⟩
  | .appendReply, reply => Message.terms ⟨.appendReply, reply⟩
  | .term, current => [current]
  | .campaigns, stood => [stood]
  | _, _ => []

/-- The term is not below zero and not above the bound. -/
def Within (n : Nat) (term : Int64) : Prop := 0 ≤ term.toInt ∧ term.toInt ≤ n

/-- The term of the member, its campaigns and the messages in its channels are within the bound,
and so is all that waits for them. -/
structure Seat.TermsWithin (n : Nat) (s : Seat) : Prop where
  term : ∃ term, s.member.termOf s.program = .ok term ∧ Within n term
  queuedTerm : ∀ term, s.program.Awaits s.member.term term → Within n term
  campaigns : ∃ campaigns, s.program.facts.get s.member.campaigns = .ok campaigns ∧
    ∀ term ∈ campaigns, Within n term
  queuedCampaigns : ∀ term, s.program.Awaits s.member.campaigns term → Within n term
  messages : ∀ type channel, s.member.channels.channel? type = some channel →
    ∃ messages, s.program.facts.get channel = .ok messages ∧
      ∀ content ∈ messages, ∀ term ∈ (Message.mk type content).terms, Within n term
  queuedMessages : ∀ type channel, s.member.channels.channel? type = some channel →
    ∀ content, s.program.Awaits channel content →
      ∀ term ∈ (Message.mk type content).terms, Within n term

theorem Within.mono {n n' : Nat} {term : Int64} (h : Within n term) (hle : n ≤ n') :
    Within n' term :=
  ⟨h.1, h.2.trans (by omega)⟩

theorem within_zero (n : Nat) : Within n 0 := ⟨by decide, by simp⟩

theorem Within.of_checkedAdd {n : Nat} {term next : Int64} (h : Within n term)
    (hnext : checkedAdd term 1 = .ok next) : Within (n + 1) next := by
  have hone : (1 : Int64).toInt = 1 := by decide
  have hsum := checkedAdd_eq_ok.1 hnext
  obtain ⟨hzero, hle⟩ := h
  constructor <;> omega

theorem Within.ne_maxValue {n : Nat} {term : Int64} (h : Within n term) (hn : n < 2 ^ 63 - 1) :
    term ≠ Int64.maxValue := by
  have hmax : Int64.maxValue.toInt = 2 ^ 63 - 1 := by decide
  rintro rfl
  have hle := h.2
  omega

/-! ## Facts -/

/-- The facts of a relation are gathered if they speak of terms. -/
theorem Cell.gathers_or (c : Cell) : c.type.Gathers ∨ ∀ x, c.terms x = [] := by
  cases c
  case voteRequest | voteReply | appendRequest | appendReply | campaigns => exact .inl gathers_set
  case term => exact .inl gathers_max
  all_goals exact .inr fun _ => rfl

/-- What the facts of the relations speak of is within the bound. -/
def State.Within (n : Nat) (σ : State) : Prop :=
  ∀ c, ∀ x ∈ Relation.tuples (σ c), ∀ term ∈ c.terms x, Election.Within n term

/-- What the deposit carries into a relation is within the bound. -/
def CarriesWithin (n : Nat) (d : Deposit) : Prop :=
  ∀ c : Cell, d.slot = c.slot → ∀ x, d.write.Carries x → ∀ term ∈ c.terms x, Within n term

variable {n n' id : Nat} {here scope : String} {S T : Store} {σ τ : State} {c : Cell}

theorem State.Within.mono (h : σ.Within n) (hle : n ≤ n') : σ.Within n' :=
  fun c x hx term hterm => (h c x hx term hterm).mono hle

theorem CarriesWithin.mono {d : Deposit} (h : CarriesWithin n d) (hle : n ≤ n') :
    CarriesWithin n' d :=
  fun c hslot x hx term hterm => (h c hslot x hx term hterm).mono hle

theorem carriesWithin_add {x : c.type.Tuple} (h : ∀ term ∈ c.terms x, Within n term) :
    CarriesWithin n ⟨c.slot, .add c.type x⟩ := by
  intro d hslot y hy
  obtain rfl := Cell.slot_injective hslot
  obtain rfl := Write.carries_add.1 hy
  exact h

/-- A message speaks of the terms that it speaks of in its channel. -/
theorem terms_of_messageOf? {x : c.type.Tuple} {m : Message}
    (h : messageOf? ⟨c.slot, .add c.type x⟩ = some m) : m.terms = c.terms x := by
  cases c <;> cases h <;> rfl

/-- A deposit into a relation that does not speak of terms is within any bound. -/
theorem carriesWithin_of_terms {w : Write} (hc : ∀ x, c.terms x = []) :
    CarriesWithin n ⟨c.slot, w⟩ := by
  intro d hslot x _ term hterm
  obtain rfl := Cell.slot_injective hslot
  rw [hc] at hterm
  cases hterm

/-- The facts of a member that was just declared speak of the term zero at most. -/
theorem within_bottom : State.Within n fun c => c.type.bottom := by
  intro c x hx term hterm
  cases c
  case term =>
    obtain rfl := List.mem_singleton.1 hx
    obtain rfl := List.mem_singleton.1 hterm
    exact within_zero n
  case voteRequest | voteReply | appendRequest | appendReply | campaigns => cases hx
  all_goals cases hterm

theorem State.Within.reset (h : σ.Within n) : σ.reset.Within n := by
  intro c x hx
  unfold State.reset at hx
  split at hx
  · exact within_bottom c x hx
  · exact h c x hx

/-- Deposits within the bound keep a state within it. -/
theorem State.Within.of_depositAll {ds : List Deposit} {count : Nat} (h : σ.Within n)
    (hσ : Reads id S σ) (hds : ∀ d ∈ ds, CarriesWithin n d)
    (hall : S.depositAll id ds = .ok (T, count)) (hτ : Reads id T τ) : τ.Within n := by
  intro c x hx term hterm
  rcases c.gathers_or with hgathers | hnone
  · rcases hgathers.of_depositAll (hσ c) hall (hτ c) hx with hx | ⟨d, hd, hslot, hcarries⟩
    · exact h c x hx term hterm
    · exact hds d hd c hslot x hcarries term hterm
  · rw [hnone] at hterm
    cases hterm

theorem State.Within.update {w : c.type.Value} {xs : List c.type.Tuple} (h : σ.Within n)
    (hadd : Relation.addAll (σ c) xs = .ok w)
    (hxs : ∀ x ∈ xs, ∀ term ∈ c.terms x, Election.Within n term) :
    State.Within n (Function.update σ c w) := by
  intro d x hx
  by_cases hd : d = c
  · subst hd
    rw [Function.update_self] at hx
    rcases d.gathers_or with hgathers | hnone
    · rcases hgathers.of_addAll hadd hx with hx | hx
      · exact h d x hx
      · exact hxs x hx
    · rw [hnone]
      exact nofun
  · rw [Function.update_of_ne hd] at hx
    exact h d x hx

/-! ## Rules -/

/-- The store has a state within the bound. -/
def HoldsWithin (n id : Nat) (S : Store) : Prop := ∃ σ, Reads id S σ ∧ σ.Within n

section Rules

variable {sources : List Cell} {ρ : Type} {source : Source ρ}

theorem HoldsWithin.of_fire {select : Facts → ρ → Except Fault (Option c.type.Tuple)}
    (h : HoldsWithin n id S)
    (hfire : (rule scope sources c .sameTick id source select).fire id S = .ok T)
    (hselect : ∀ σ xs, Reads id S σ → σ.Within n → source.selected select ⟨id, S⟩ = .ok xs →
      ∀ x ∈ xs, ∀ term ∈ c.terms x, Within n term) : HoldsWithin n id T := by
  obtain ⟨σ, hσ, hwithin⟩ := h
  obtain ⟨xs, w, hxs, hadd, hT⟩ := hσ.exists_of_fire hfire
  exact ⟨_, hT, hwithin.update hadd (hselect σ xs hσ hwithin hxs)⟩

theorem HoldsWithin.of_other {select : Facts → ρ → Except Fault (Option c.type.Tuple)}
    (h : HoldsWithin n id S) (hc : ∀ x, c.terms x = [])
    (hfire : (rule scope sources c .sameTick id source select).fire id S = .ok T) :
    HoldsWithin n id T := by
  refine h.of_fire hfire fun _ _ _ _ _ x _ => ?_
  rw [hc]
  exact nofun

/-- A member that follows messages gets to a term that a message speaks of. -/
theorem HoldsWithin.of_follow {termOf : c.type.Tuple → Int64} (h : HoldsWithin n id S)
    (hterm : ∀ message, termOf message ∈ c.terms message)
    (hfire : (rule scope sources .term .sameTick id (.of (Cell.handle id c))
      fun _ message => .ok (some (termOf message))).fire id S = .ok T) : HoldsWithin n id T := by
  refine h.of_fire hfire fun σ xs hσ hwithin hxs x hx term hmem => ?_
  obtain rfl := List.mem_singleton.1 hmem
  obtain ⟨message, hmessage, heq⟩ := (hσ.mem_selected hxs).1 hx
  cases heq
  exact hwithin c message hmessage _ (hterm message)

/-- The rules of the same tick keep a state within the bound. -/
theorem holdsWithin_of_fire : ∀ r ∈ followRules id scope ++ countRules id here scope, ∀ S T,
    HoldsWithin n id S → r.fire id S = .ok T → HoldsWithin n id T := by
  have hother : ∀ c : Cell, Cell.campaigns.slot < c.slot → ∀ x, c.terms x = [] := by
    intro c hc x
    cases c <;> first | rfl | exact absurd hc (by decide)
  simp only [followRules, countRules, List.cons_append, List.nil_append, List.forall_mem_cons]
  exact ⟨fun _ _ h => h.of_follow (c := .voteRequest) fun _ => List.mem_cons_self,
    fun _ _ h => h.of_follow (c := .voteReply) fun _ => List.mem_cons_self,
    fun _ _ h => h.of_follow (c := .appendRequest) fun _ => List.mem_cons_self,
    fun _ _ h => h.of_other (hother _ (by decide)), fun _ _ h => h.of_other (hother _ (by decide)),
    fun _ _ h => h.of_other (hother _ (by decide)), fun _ _ h => h.of_other (hother _ (by decide)),
    fun _ _ h => h.of_other (hother _ (by decide)), fun _ _ h => h.of_other (hother _ (by decide)),
    fun _ _ h => h.of_other (hother _ (by decide)), fun _ _ h => h.of_other (hother _ (by decide)),
    List.forall_mem_nil _⟩

end Rules

/-! ## The queue -/

section Send

variable (hσ : Reads id S σ) (hwithin : σ.Within n)

include hwithin

theorem State.Within.current : Election.Within n (σ .term).value :=
  hwithin .term _ List.mem_cons_self _ List.mem_cons_self

include hσ

/-- The next term is asked for only if there was a timeout. -/
theorem within_of_advanceTerm {fired : Bool} {next : Int64}
    (h : advanceTerm (memberOf id) ⟨id, S⟩ fired = .ok (some next)) :
    Within (n + fired.toNat) next := by
  unfold advanceTerm at h
  rw [hσ.currentTerm] at h
  cases fired with
  | false => cases h
  | true =>
      obtain ⟨_, ⟨⟩, h⟩ := bind_eq_ok.1 h
      obtain ⟨next, hnext, heq⟩ := bind_eq_ok.1 h
      cases heq
      exact hwithin.current.of_checkedAdd hnext

theorem within_of_campaign {fired : Bool} {next : Int64}
    (h : campaign (memberOf id) ⟨id, S⟩ fired = .ok (some next)) :
    Within (n + fired.toNat) next := by
  unfold campaign at h
  rw [hσ.currentTerm] at h
  obtain ⟨_, ⟨⟩, h⟩ := bind_eq_ok.1 h
  obtain ⟨next, hnext, heq⟩ := bind_eq_ok.1 h
  cases fired with
  | false => cases heq
  | true =>
      cases heq
      exact hwithin.current.of_checkedAdd hnext

/-- A message speaks of the current term. -/
theorem within_of_requestVote {row : Int64 × String} {request : VoteRequest}
    (h : requestVote (memberOf id) here ⟨id, S⟩ row = .ok (some request)) :
    ∀ term ∈ Cell.voteRequest.terms request, Within n term := by
  unfold requestVote at h
  rw [hσ.currentTerm] at h
  obtain ⟨_, ⟨⟩, h⟩ := bind_eq_ok.1 h
  obtain ⟨leaders, _, h⟩ := bind_eq_ok.1 h
  split at h
  · next hcurrent =>
      cases h
      have hterms : Within n row.1 := hcurrent.1 ▸ hwithin.current
      exact List.forall_mem_cons.2 ⟨hterms, List.forall_mem_singleton.2 (within_zero n)⟩
  · cases h

theorem within_of_answerVoteRequest {request : VoteRequest} {reply : VoteReply}
    (h : answerVoteRequest (memberOf id) here ⟨id, S⟩ request = .ok (some reply)) :
    ∀ term ∈ Cell.voteReply.terms reply, Within n term := by
  unfold answerVoteRequest at h
  rw [hσ.currentTerm] at h
  split at h
  · obtain ⟨_, ⟨⟩, h⟩ := bind_eq_ok.1 h
    obtain ⟨_, _, heq⟩ := bind_eq_ok.1 h
    cases heq
    exact List.forall_mem_singleton.2 hwithin.current
  · cases h

theorem within_of_announce {row : Bool × String} {request : AppendRequest}
    (h : announce (memberOf id) here ⟨id, S⟩ row = .ok (some request)) :
    ∀ term ∈ Cell.appendRequest.terms request, Within n term := by
  unfold announce at h
  rw [hσ.currentTerm] at h
  split at h
  · obtain ⟨_, ⟨⟩, heq⟩ := bind_eq_ok.1 h
    cases heq
    exact List.forall_mem_cons.2
      ⟨hwithin.current, List.forall_mem_singleton.2 (within_zero n)⟩
  · cases h

theorem within_of_answerLeader {request : AppendRequest} {reply : AppendReply}
    (h : answerLeader (memberOf id) here ⟨id, S⟩ request = .ok (some reply)) :
    ∀ term ∈ Cell.appendReply.terms reply, Within n term := by
  unfold answerLeader at h
  rw [hσ.currentTerm] at h
  split at h
  · obtain ⟨_, ⟨⟩, heq⟩ := bind_eq_ok.1 h
    cases heq
    exact List.forall_mem_singleton.2 hwithin.current
  · cases h

/-- What the rules of the next tick queue is within the bound, which moves by one if there was a
timeout. -/
theorem exists_of_send {r : Rule} {ds : List Deposit} {d : Deposit}
    (hr : r ∈ sendRules id here scope) (hds : r.consequences ⟨id, S⟩ = .ok ds) (hd : d ∈ ds) :
    ∃ (c : Cell) (x : c.type.Tuple), d = ⟨c.slot, .add c.type x⟩ ∧
      ∀ term ∈ c.terms x, Within (n + (σ .electionTimeout).value.toNat) term := by
  have hmore : ∀ term, Within n term → Within (n + (σ .electionTimeout).value.toNat) term :=
    fun _ hterm => hterm.mono (Nat.le_add_right _ _)
  simp only [sendRules, List.mem_cons, List.not_mem_nil, or_false] at hr
  rcases hr with rfl | rfl | rfl | rfl | rfl | rfl <;>
    obtain ⟨xs, hxs, x, hx, rfl⟩ := exists_of_consequences hds hd
  · refine ⟨_, x, rfl, List.forall_mem_singleton.2 ?_⟩
    obtain ⟨fired, hfired, hselect⟩ := (hσ.mem_selected hxs).1 hx
    obtain rfl := List.mem_singleton.1 hfired
    exact within_of_advanceTerm hσ hwithin hselect
  · refine ⟨_, x, rfl, List.forall_mem_singleton.2 ?_⟩
    obtain ⟨fired, hfired, hselect⟩ := (hσ.mem_selected hxs).1 hx
    obtain rfl := List.mem_singleton.1 hfired
    exact within_of_campaign hσ hwithin hselect
  · obtain ⟨_, _, row, _, hselect⟩ := (mem_selected hxs).1 hx
    exact ⟨_, x, rfl, fun term hterm =>
      hmore term (within_of_requestVote hσ hwithin hselect term hterm)⟩
  · obtain ⟨request, _, hselect⟩ := (hσ.mem_selected hxs).1 hx
    exact ⟨_, x, rfl, fun term hterm =>
      hmore term (within_of_answerVoteRequest hσ hwithin hselect term hterm)⟩
  · obtain ⟨_, _, row, _, hselect⟩ := (mem_selected hxs).1 hx
    exact ⟨_, x, rfl, fun term hterm =>
      hmore term (within_of_announce hσ hwithin hselect term hterm)⟩
  · obtain ⟨request, _, hselect⟩ := (hσ.mem_selected hxs).1 hx
    exact ⟨_, x, rfl, fun term hterm =>
      hmore term (within_of_answerLeader hσ hwithin hselect term hterm)⟩

end Send

/-! ## Members -/

namespace Stimulus

theorem exists_deposit (stimulus : Stimulus) (id : Nat) (timing : Timing) :
    ∃ w, (stimulus.action (memberOf id) timing).deposit? =
      some ((Cell.handle id stimulus.cell).id, w) := by
  cases stimulus with
  | peer | timeout => exact ⟨_, Action.deposit?_addAt⟩
  | peers | timeouts => exact ⟨_, Action.deposit?_mergeAt⟩

theorem fits (stimulus : Stimulus) (timing : Timing) (hS : (memberSlots scope).SameShape S) :
    (stimulus.action (memberOf id) timing).Fits id S := by
  cases stimulus <;> cases timing <;> exact Cell.declared_handle _ hS

/-- Peers and timeouts do not speak of terms. -/
theorem terms_cell (stimulus : Stimulus) : ∀ x, stimulus.cell.terms x = [] := by
  cases stimulus <;> exact fun _ => rfl

end Stimulus

/-- What holds of the four channels holds of whichever is the channel for messages of a type. -/
theorem channel_cases {motive : (type : MessageType) → Handle (.set (.message type)) → Prop}
    (hvoteRequest : motive .voteRequest (Cell.handle id .voteRequest))
    (hvoteReply : motive .voteReply (Cell.handle id .voteReply))
    (happendRequest : motive .appendRequest (Cell.handle id .appendRequest))
    (happendReply : motive .appendReply (Cell.handle id .appendReply)) :
    ∀ type channel, (memberOf id).channels.channel? type = some channel →
      motive type channel := by
  intro type channel h
  cases type
  case voteRequest => exact Option.some.inj h ▸ hvoteRequest
  case voteReply => exact Option.some.inj h ▸ hvoteReply
  case appendRequest => exact Option.some.inj h ▸ happendRequest
  case appendReply => exact Option.some.inj h ▸ happendReply
  all_goals cases h

theorem Seat.timedOut_eq {s : Seat} (hmember : s.member = memberOf s.program.id)
    (hσ : Reads s.program.id s.program.store σ) :
    s.timedOut = (σ .electionTimeout).value := by
  have hread : s.program.facts.get s.member.electionTimeout = .ok (σ .electionTimeout) := by
    rw [hmember]
    exact hσ .electionTimeout
  unfold timedOut
  rw [hread]
  rfl

/-- A tick has found a timeout just if one waited for it. -/
theorem Seat.timedOut_iff_awaits {s : Seat} {p : Program} {patience : Nat}
    {result : Except ProgramError TickReport} (hmember : s.member = memberOf s.program.id)
    (hhosts : Hosts scope s.program) (htick : s.program.tick patience = .ok (p, result)) :
    Seat.timedOut { s with program := p } ↔
      s.program.Awaits s.member.electionTimeout true := by
  have hid : p.id = s.program.id := (Program.sameSetup_of_tick htick).id_eq
  obtain ⟨start, applied, k, hstart, hpasses, _⟩ := Program.passes_of_tick htick
  rw [Program.sameTickRules, hhosts.rules, filter_sameTick_memberRules] at hpasses
  obtain ⟨υ, hυ⟩ := exists_reads (hhosts.shape.trans (Program.sameShape_start hstart))
  -- no clause writes the flag
  have hpass : ∀ S T changed,
      (∃ σ, Reads s.program.id S σ ∧ σ .electionTimeout = υ .electionTimeout) →
      pass s.program.id (followRules s.program.id scope ++
        countRules s.program.id s.program.addr scope) S = .ok (T, changed) →
      ∃ σ, Reads s.program.id T σ ∧ σ .electionTimeout = υ .electionTimeout := by
    rintro S T changed ⟨σ, hσ, hsame⟩ hpass
    obtain ⟨_, _, τ, hclosed, hτ, hsteps, _⟩ := exists_closed_pass s.program.addr scope hσ
    cases hpass.symm.trans hclosed
    exact ⟨τ, hτ, (hsteps.of_spare rfl).trans hsame⟩
  obtain ⟨τ, hτ, hsame⟩ := of_passes hpass ⟨υ, hυ, rfl⟩ hpasses
  have hmember' : s.member = memberOf p.id := by rw [hid, hmember]
  rw [Seat.timedOut_eq hmember' (hid ▸ hτ), hsame, hmember, hhosts.awaits_iff_fired hstart hυ]

/-- A member whose relations, and what waits for them, are within the bound. -/
structure Seat.Bounded (n : Nat) (s : Seat) : Prop where
  member : s.member = memberOf s.program.id
  hosts : ∃ scope, Hosts scope s.program
  facts : HoldsWithin n s.program.id s.program.store
  pending : ∀ d ∈ s.program.pending, CarriesWithin n d

namespace Seat.Bounded

variable {s : Seat} {p : Program} {patience : Nat}

theorem mono (h : s.Bounded n) (hle : n ≤ n') : s.Bounded n' where
  member := h.member
  hosts := h.hosts
  facts := by
    obtain ⟨σ, hσ, hwithin⟩ := h.facts
    exact ⟨σ, hσ, hwithin.mono hle⟩
  pending d hd := (h.pending d hd).mono hle

theorem of_fresh (hs : s.Fresh) : s.Bounded n := by
  obtain ⟨_, scope, id, addr, limit, hdeclare⟩ := hs
  obtain ⟨hmember, hhosts⟩ := hosts_declared hdeclare
  rw [runOn_declare] at hdeclare
  obtain ⟨-, hp⟩ := Prod.mk.inj hdeclare
  refine ⟨hmember, ⟨scope, hhosts⟩, ?_, ?_⟩
  · rw [← hp]
    exact ⟨_, reads_memberSlots, within_bottom⟩
  · rw [← hp]
    exact nofun

/-- A deposit within the bound keeps a member within it, whether it is made at once or waits. -/
theorem of_deposit {action : Action} {outcome : Outcome} {w : Write} (h : s.Bounded n)
    (haction : action.deposit? = some ((Cell.handle s.program.id c).id, w))
    (hfits : action.Fits s.program.id s.program.store) (hw : CarriesWithin n ⟨c.slot, w⟩)
    (hp : s.program.perform patience action = .ok (p, outcome)) :
    Seat.Bounded n { s with program := p } := by
  obtain ⟨scope, hhosts⟩ := h.hosts
  have hhosts' := hhosts.of_perform hfits hp
  have hid : p.id = s.program.id := (Program.sameSetup_of_perform hp).id_eq
  have hmember : s.member = memberOf p.id := by rw [hid, h.member]
  rcases Program.perform_cases hp with ⟨_, _, heq, _, ⟨_, hnow⟩ | hnext⟩ | ⟨_, rfl, _⟩
  · cases haction.symm.trans heq
    obtain ⟨_, _, hnow⟩ := bind_eq_ok.1 hnow
    obtain ⟨⟨store, grew⟩, hdeposit, heq⟩ := bind_eq_ok.1 hnow
    cases heq
    obtain ⟨σ, hσ, hwithin⟩ := h.facts
    obtain ⟨τ, hτ⟩ := exists_reads hhosts'.shape
    have hall : s.program.store.depositAll s.program.id [⟨c.slot, w⟩] = .ok (store, _) :=
      bind_eq_ok.2 ⟨_, hdeposit, rfl⟩
    refine ⟨hmember, ⟨scope, hhosts'⟩, ⟨τ, hτ, ?_⟩, h.pending⟩
    exact hwithin.of_depositAll hσ (List.forall_mem_singleton.2 hw) hall hτ
  · cases haction.symm.trans heq
    obtain ⟨_, _, heq⟩ := bind_eq_ok.1 hnext
    cases heq
    refine ⟨hmember, ⟨scope, hhosts'⟩, h.facts, ?_⟩
    exact List.forall_mem_append.2 ⟨h.pending, List.forall_mem_singleton.2 hw⟩
  · cases haction

theorem of_stimulus {timing : Timing} {stimulus : Stimulus} {outcome : Outcome} (h : s.Bounded n)
    (hp : s.program.perform patience (stimulus.action s.member timing) = .ok (p, outcome)) :
    Seat.Bounded n { s with program := p } := by
  obtain ⟨scope, hhosts⟩ := h.hosts
  rw [h.member] at hp
  obtain ⟨w, hdeposit⟩ := stimulus.exists_deposit s.program.id timing
  exact h.of_deposit hdeposit (stimulus.fits timing hhosts.shape)
    (carriesWithin_of_terms stimulus.terms_cell) hp

/-- A message that is delivered waits in the queue, with the terms that it speaks of. -/
theorem of_delivery {m : Message} {channel : Handle (.set (.message m.type))} (h : s.Bounded n)
    (hm : ∀ term ∈ m.terms, Within n term)
    (hchannel : s.member.channels.channel? m.type = some channel)
    (hp : s.program.send channel m.content = .ok p) :
    Seat.Bounded n { s with program := p } := by
  obtain ⟨scope, hhosts⟩ := h.hosts
  have hsend : ∀ (c : Cell) (x : c.type.Tuple), (∀ term ∈ c.terms x, Within n term) →
      s.program.addNext (Cell.handle s.program.id c) x = .ok p →
      Seat.Bounded n { s with program := p } := by
    intro c x hterms hadd
    have hfits : (Action.addNext (Cell.handle s.program.id c) x).Fits s.program.id
        s.program.store := c.declared_handle hhosts.shape
    have hperform : s.program.perform 0 (.addNext (Cell.handle s.program.id c) x) =
        .ok (p, .queued) := bind_eq_ok.2 ⟨p, hadd, rfl⟩
    exact h.of_deposit rfl hfits (carriesWithin_add hterms) hperform
  rw [h.member] at hchannel
  have hqueued : ∀ type channel, (memberOf s.program.id).channels.channel? type = some channel →
      ∀ x : type.Carrier, (∀ term ∈ (Message.mk type x).terms, Within n term) →
        s.program.send channel x = .ok p → Seat.Bounded n { s with program := p } :=
    channel_cases (hsend .voteRequest) (hsend .voteReply) (hsend .appendRequest)
      (hsend .appendReply)
  exact hqueued m.type channel hchannel m.content hm hp

/-- The passes of a tick start within the bound. -/
theorem exists_start {start : Store} {applied : Nat} (h : s.Bounded n)
    (hstart : s.program.store.resetScratch.depositAll s.program.id s.program.pending =
      .ok (start, applied)) : HoldsWithin n s.program.id start := by
  obtain ⟨scope, hhosts⟩ := h.hosts
  obtain ⟨σ, hσ, hwithin⟩ := h.facts
  obtain ⟨τ, hτ⟩ := exists_reads (hhosts.shape.trans (Program.sameShape_start hstart))
  exact ⟨τ, hτ, hwithin.reset.of_depositAll (hσ.resetScratch hhosts.shape) h.pending hstart hτ⟩

/-- A tick keeps a member within the bound, and what it sends as well.  The bound moves by one if
the tick found a timeout. -/
theorem of_tick {result : Except ProgramError TickReport} (h : s.Bounded n)
    (htick : s.program.tick patience = .ok (p, result)) :
    Seat.Bounded (n + (Seat.timedOut { s with program := p }).toNat) { s with program := p } ∧
      ∀ m ∈ p.pending.filterMap messageOf?, ∀ term ∈ m.terms,
        Within (n + (Seat.timedOut { s with program := p }).toNat) term := by
  obtain ⟨scope, hhosts⟩ := h.hosts
  have hid : p.id = s.program.id := (Program.sameSetup_of_tick htick).id_eq
  obtain ⟨start, applied, k, hstart, hpasses, hqueue, _⟩ := Program.passes_of_tick htick
  rw [Program.sameTickRules, hhosts.rules, filter_sameTick_memberRules] at hpasses
  obtain ⟨τ, hτ, hwithin⟩ := of_passes
    (fun _ _ _ hS hpass => of_pass holdsWithin_of_fire hS hpass) (h.exists_start hstart) hpasses
  have hmember : s.member = memberOf p.id := by rw [hid, h.member]
  have hfired : Seat.timedOut { s with program := p } = (τ .electionTimeout).value :=
    Seat.timedOut_eq hmember (hid ▸ hτ)
  rw [hfired]
  have hsent : ∀ d ∈ p.pending, ∃ (c : Cell) (x : c.type.Tuple), d = ⟨c.slot, .add c.type x⟩ ∧
      ∀ term ∈ c.terms x, Within (n + (τ .electionTimeout).value.toNat) term := by
    intro d hd
    rcases hqueue with hqueue | hnone
    · rw [Program.nextTickRules, hhosts.rules, filter_nextTick_memberRules] at hqueue
      obtain ⟨r, hr, ds, hds, hd⟩ := mem_of_allConsequences hqueue hd
      exact exists_of_send hτ hwithin hr hds hd
    · rw [hnone] at hd
      cases hd
  refine ⟨⟨hmember, ⟨scope, hhosts.of_tick htick⟩, ?_, fun d hd => ?_⟩, fun m hm => ?_⟩
  · rw [hid]
    exact ⟨τ, hτ, hwithin.mono (Nat.le_add_right _ _)⟩
  · obtain ⟨c, x, rfl, hterms⟩ := hsent d hd
    exact carriesWithin_add hterms
  · obtain ⟨d, hd, hmessage⟩ := List.mem_filterMap.1 hm
    obtain ⟨c, x, rfl, hterms⟩ := hsent d hd
    rw [terms_of_messageOf? hmessage]
    exact hterms

/-- A tick does not overflow as long as the bound is not the greatest integer.  If two passes are
waited for, then it does not break off at all. -/
theorem exists_tick (h : s.Bounded n) (hn : n < 2 ^ 63 - 1) (patience : Nat) :
    s.program.tick patience ≠ .error .overflow ∧
      (2 ≤ patience → ∃ q result, s.program.tick patience = .ok (q, result)) := by
  obtain ⟨scope, hhosts⟩ := h.hosts
  obtain ⟨start, applied, T, changed, τ, hstart, hpass, hclosed, hτ, _⟩ := hhosts.exists_pass
  have hwithin : τ.Within n := by
    have hpass' := hpass
    rw [Program.sameTickRules, hhosts.rules, filter_sameTick_memberRules] at hpass'
    obtain ⟨υ, hυ, hwithin⟩ := of_pass holdsWithin_of_fire (h.exists_start hstart) hpass'
    rwa [hτ.unique hυ]
  have hterm : (τ .term).value ≠ Int64.maxValue := hwithin.current.ne_maxValue hn
  obtain ⟨queue, hqueue⟩ :
      ∃ queue, allConsequences ⟨s.program.id, T⟩ s.program.nextTickRules = .ok queue := by
    rw [Program.nextTickRules, hhosts.rules, filter_nextTick_memberRules]
    exact exists_queue_of_advanceTerm hτ (exists_advanceTerm_of_term hτ hterm) hterm
  constructor
  · intro htick
    cases Program.fault_of_pass hstart hpass hclosed hqueue htick
  · intro hpatience
    obtain ⟨q, result, htick, _⟩ :=
      Program.exists_result_of_pass hpatience hstart hpass hclosed hqueue
    exact ⟨q, result, htick⟩

/-- What waits for a relation is within the bound. -/
theorem of_awaits {x : c.type.Tuple} (h : s.Bounded n)
    (hx : s.program.Awaits (Cell.handle s.program.id c) x) : ∀ term ∈ c.terms x, Within n term := by
  obtain ⟨d, hd, hslot, hcarries⟩ := hx
  exact h.pending d hd c hslot x hcarries

theorem termsWithin (h : s.Bounded n) : s.TermsWithin n := by
  obtain ⟨σ, hσ, hwithin⟩ := h.facts
  constructor
  all_goals rw [h.member]
  · exact ⟨_, hσ.currentTerm, hwithin.current⟩
  · exact fun term hterm => h.of_awaits (c := .term) hterm _ List.mem_cons_self
  · exact ⟨_, hσ .campaigns, fun term hterm =>
      hwithin .campaigns term hterm _ List.mem_cons_self⟩
  · exact fun term hterm => h.of_awaits (c := .campaigns) hterm _ List.mem_cons_self
  · exact channel_cases ⟨_, hσ .voteRequest, hwithin .voteRequest⟩
      ⟨_, hσ .voteReply, hwithin .voteReply⟩ ⟨_, hσ .appendRequest, hwithin .appendRequest⟩
      ⟨_, hσ .appendReply, hwithin .appendReply⟩
  · exact channel_cases (fun _ => h.of_awaits (c := .voteRequest))
      (fun _ => h.of_awaits (c := .voteReply)) (fun _ => h.of_awaits (c := .appendRequest))
      (fun _ => h.of_awaits (c := .appendReply))

end Seat.Bounded

/-! ## Worlds -/

namespace World

variable {w w' : World} {place : Nat} {s : Seat} {sent : List Message}

/-- All members, and all messages that were sent, are within the bound. -/
structure Bounded (n : Nat) (w : World) : Prop where
  seats : ∀ s ∈ w.seats, s.Bounded n
  sent : ∀ m ∈ w.sent, ∀ term ∈ m.terms, Within n term

theorem Bounded.mono (hw : w.Bounded n) (hle : n ≤ n') : w.Bounded n' where
  seats s hs := (hw.seats s hs).mono hle
  sent m hm term hterm := (hw.sent m hm term hterm).mono hle

theorem Bounded.put (hw : w.Bounded n) (hs : s.Bounded n)
    (hsent : ∀ m ∈ sent, ∀ term ∈ m.terms, Within n term) : (w.put place s sent).Bounded n where
  seats t ht := by
    rcases List.mem_or_eq_of_mem_set ht with ht | rfl
    · exact hw.seats t ht
    · exact hs
  sent := List.forall_mem_append.2 ⟨hw.sent, hsent⟩

theorem found_put {patience : Nat} {t : Seat} (ht : w.seats[place]? = some t) :
    (w.put place s sent).found (.tick place patience) = s.timedOut.toNat := by
  obtain ⟨hlt, _⟩ := List.getElem?_eq_some_iff.1 ht
  change ((w.seats.set place s)[place]?.any Seat.timedOut).toNat = s.timedOut.toNat
  rw [List.getElem?_set_self hlt]
  rfl

/-- A move keeps a world within the bound, which moves by one if it was a tick that found a
timeout. -/
theorem Bounded.move {move : Move} (hw : w.Bounded n) (h : w.move move = some w') :
    w'.Bounded (n + w'.found move) := by
  cases move with
  | stimulate place timing stimulus =>
      obtain ⟨s, hs, h⟩ := Option.bind_eq_some_iff.1 h
      obtain ⟨⟨p, outcome⟩, hp, heq⟩ := Option.bind_eq_some_iff.1 h
      cases heq
      have hseat := hw.seats s (List.mem_of_getElem? hs)
      exact hw.put (hseat.of_stimulus (toOption_eq_some.1 hp)) nofun
  | deliver place message =>
      obtain ⟨s, hs, h⟩ := Option.bind_eq_some_iff.1 h
      obtain ⟨m, hm, h⟩ := Option.bind_eq_some_iff.1 h
      obtain ⟨channel, hchannel, h⟩ := Option.bind_eq_some_iff.1 h
      obtain ⟨p, hp, heq⟩ := Option.bind_eq_some_iff.1 h
      cases heq
      have hseat := hw.seats s (List.mem_of_getElem? hs)
      have hterms := hw.sent m (List.mem_of_getElem? hm)
      exact hw.put (hseat.of_delivery hterms hchannel (toOption_eq_some.1 hp)) nofun
  | tick place patience =>
      obtain ⟨s, hs, h⟩ := Option.bind_eq_some_iff.1 h
      obtain ⟨⟨p, result⟩, htick, heq⟩ := Option.bind_eq_some_iff.1 h
      cases heq
      rw [found_put hs]
      have hseat := hw.seats s (List.mem_of_getElem? hs)
      obtain ⟨hnext, hsent⟩ := hseat.of_tick (toOption_eq_some.1 htick)
      exact (hw.mono (Nat.le_add_right _ _)).put hnext hsent

theorem Bounded.play {moves : List Move} {found : Nat} (hw : w.Bounded n)
    (h : w.play moves = some (w', found)) : w'.Bounded (n + found) := by
  induction moves generalizing w n found with
  | nil =>
      cases h
      exact hw
  | cons move moves ih =>
      obtain ⟨v, hv, h⟩ := Option.bind_eq_some_iff.1 h
      obtain ⟨⟨_, later⟩, hlater, heq⟩ := Option.bind_eq_some_iff.1 h
      cases heq
      have hbounded := ih (hw.move hv) hlater
      rwa [Nat.add_assoc] at hbounded

theorem bounded_of_fresh (hfresh : ∀ s ∈ w.seats, s.Fresh) (hsent : w.sent = []) :
    w.Bounded 0 where
  seats s hs := Seat.Bounded.of_fresh (hfresh s hs)
  sent := by
    rw [hsent]
    exact nofun

/-- Two members stand for election, the second one in the tick in which it hears of the first.  One
of the timeouts is deposited too early, and one says that there was none. -/
def rivalry : List Move :=
  [.stimulate 0 .sameTick (.peers (.ofList ["b", "c"])), .stimulate 1 .nextTick (.peer "a"),
    .stimulate 1 .sameTick (.timeout true), .tick 1 9, .stimulate 0 .nextTick (.timeouts ⟨true⟩),
    .stimulate 2 .nextTick (.timeout false), .tick 0 9, .tick 2 9, .tick 0 9, .deliver 2 0,
    .deliver 1 0, .deliver 1 0, .stimulate 1 .nextTick (.timeout true), .tick 1 9, .tick 1 9]

/-- Terms are bounded by timeouts.  Fresh members get nothing from outside but peers and timeouts,
and exchange messages that they have sent, in any order, any number of times or never.  Then all
terms of members, all that are queued and all that messages speak of are at least zero, and at most
the number of ticks so far, at any member, that found a timeout.  As long as this number is not the
greatest integer no tick of a member overflows, and none breaks off if two passes are waited for. -/
theorem play_bounded {moves : List Move} (hfresh : ∀ s ∈ w.seats, s.Fresh) (hsent : w.sent = [])
    (h : w.play moves = some (w', n)) :
    (∀ s ∈ w'.seats, s.TermsWithin n) ∧ (∀ m ∈ w'.sent, ∀ term ∈ m.terms, Within n term) ∧
      (n < 2 ^ 63 - 1 → ∀ s ∈ w'.seats, ∀ patience,
        s.program.tick patience ≠ .error .overflow ∧
          (2 ≤ patience → ∃ q result, s.program.tick patience = .ok (q, result))) := by
  have hbounded : w'.Bounded n := by
    have hplayed := (bounded_of_fresh hfresh hsent).play h
    rwa [Nat.zero_add] at hplayed
  exact ⟨fun s hs => (hbounded.seats s hs).termsWithin, hbounded.sent,
    fun hn s hs => (hbounded.seats s hs).exists_tick hn⟩

/-- The bound is reached: the second member is in the second term after two timeouts. -/
theorem play_bounded_rivalry : ∃ w s, trio.play rivalry = some (w, 2) ∧ w.seats[1]? = some s ∧
    s.member.termOf s.program = .ok 2 ∧ s.TermsWithin 2 ∧
    s.program.tick 9 ≠ .error .overflow := by
  have hsome : (trio.play rivalry).any (fun r => r.2 == 2 && r.1.seats[1]?.any fun s =>
      (s.member.termOf s.program).toOption == some 2) = true := by decide +kernel
  obtain ⟨⟨w, n⟩, hplay, hsome⟩ := (Option.any_eq_true _ _).1 hsome
  obtain ⟨hn, hsome⟩ := Bool.and_eq_true_iff.1 hsome
  obtain ⟨s, hs, hterm⟩ := (Option.any_eq_true _ _).1 hsome
  obtain rfl : n = 2 := beq_iff_eq.1 hn
  obtain ⟨hseats, _, hticks⟩ := play_bounded initial_trio.fresh initial_trio.sent hplay
  have hmem := List.mem_of_getElem? hs
  exact ⟨w, s, hplay, hs, toOption_eq_some.1 (beq_iff_eq.1 hterm), hseats s hmem,
    (hticks (by decide) s hmem 9).1⟩

end World

end Ratchet.Election

import Mathlib.Logic.Function.Basic
import Ratchet.Protocol.Election
import Ratchet.Proofs.Program.Setup

/-!
# What members declare

The relations and the rules that a program holds once a member was declared on it.  The relations
are called by the names in `Cell`, and the values that a store has for them are its `State`.

A store is read as a state (`Reads`), and what is done to the store is an update of the state at one
cell (`Reads.assign`, `reads_of_fire`).
-/

namespace Ratchet.Election

/-! ## Cells -/

/-- The relations of a member. -/
inductive Cell where
  | voteRequest
  | voteReply
  | appendRequest
  | appendReply
  | peers
  | electionTimeout
  | term
  | campaigns
  | voted
  | granted
  | won
  | leaders
  | isLeader
  deriving DecidableEq

namespace Cell

/-- The type of a relation. -/
@[reducible]
def type : Cell → RelationType
  | voteRequest => .set (.message .voteRequest)
  | voteReply => .set (.message .voteReply)
  | appendRequest => .set (.message .appendRequest)
  | appendReply => .set (.message .appendReply)
  | peers => .set .text
  | electionTimeout => .flag
  | term => .max
  | campaigns => .set .int
  | voted => .map .maxText
  | granted => .map (.set .text)
  | won => .map .flag
  | leaders => .map .maxText
  | isLeader => .flag

/-- The number of the slot of a relation. -/
def slot : Cell → Nat
  | voteRequest => 0
  | voteReply => 1
  | appendRequest => 2
  | appendReply => 3
  | peers => 4
  | electionTimeout => 5
  | term => 6
  | campaigns => 7
  | voted => 8
  | granted => 9
  | won => 10
  | leaders => 11
  | isLeader => 12

/-- Whether a relation starts every tick from bottom. -/
def scratch : Cell → Bool
  | voteRequest | voteReply | appendRequest | appendReply | electionTimeout | isLeader => true
  | _ => false

/-- The name of a relation under its scope. -/
def name : Cell → String
  | voteRequest => "RaftVoteRequest"
  | voteReply => "RaftVoteResponse"
  | appendRequest => "RaftAppendEntryRequest"
  | appendReply => "RaftAppendEntryResponse"
  | peers => "raftPeers"
  | electionTimeout => "raftElectionTimeout"
  | term => "raftTerm"
  | campaigns => "raftCampaigns"
  | voted => "raftVoted"
  | granted => "raftGranted"
  | won => "raftWon"
  | leaders => "raftLeaders"
  | isLeader => "RaftIsLeader"

/-- All relations in the order of their slots. -/
def all : List Cell :=
  [voteRequest, voteReply, appendRequest, appendReply, peers, electionTimeout, term, campaigns,
    voted, granted, won, leaders, isLeader]

/-- The slot of a relation when it is declared. -/
def fresh (scope : String) (c : Cell) : Slot where
  name := scope ++ c.name
  type := c.type
  value := c.type.bottom
  scratch := c.scratch
  channel := c matches voteRequest | voteReply | appendRequest | appendReply
  input := c matches peers | electionTimeout
  output := c matches isLeader

theorem slot_injective {c d : Cell} (h : c.slot = d.slot) : c = d := by
  cases c <;> cases d <;> first | rfl | cases h

/-- The handle of a relation on a program of its own. -/
def handle (id : Nat) (c : Cell) : Handle c.type := ⟨⟨id, c.slot⟩⟩

end Cell

/-- The handles of a member on a program of its own. -/
def memberOf (id : Nat) : Member where
  channels := ⟨Cell.handle id .voteRequest, Cell.handle id .voteReply,
    Cell.handle id .appendRequest, Cell.handle id .appendReply⟩
  peers := Cell.handle id .peers
  electionTimeout := Cell.handle id .electionTimeout
  term := Cell.handle id .term
  campaigns := Cell.handle id .campaigns
  voted := Cell.handle id .voted
  granted := Cell.handle id .granted
  won := Cell.handle id .won
  leaders := Cell.handle id .leaders
  isLeader := Cell.handle id .isLeader

/-! ## Declarations -/

/-- The relations of a member. -/
def memberSlots (scope : String) : Store := Cell.all.map (Cell.fresh scope)

theorem getElem?_memberSlots {scope : String} (c : Cell) :
    (memberSlots scope)[c.slot]? = some (c.fresh scope) := by
  cases c <;> rfl

/-- A rule that adds facts to a relation of a member. -/
def rule {ρ : Type} (scope : String) (sources : List Cell) (target : Cell) (timing : Timing)
    (id : Nat) (source : Source ρ)
    (select : Facts → ρ → Except Fault (Option target.type.Tuple)) : Rule :=
  joinRule (sources.map fun c => scope ++ c.name) (scope ++ target.name) source
    (target.handle id) timing select

section Rules

variable (id : Nat) (here scope : String)

/-! The rules carry the names of their selectors. -/

def advanceTermRule : Rule :=
  rule scope [.electionTimeout] .term .nextTick id (.of (Cell.handle id .electionTimeout))
    (advanceTerm (memberOf id))

def campaignRule : Rule :=
  rule scope [.electionTimeout] .campaigns .nextTick id (.of (Cell.handle id .electionTimeout))
    (campaign (memberOf id))

def followVoteRequestRule : Rule :=
  rule scope [.voteRequest] .term .sameTick id (.of (Cell.handle id .voteRequest))
    fun _ request => .ok (some request.candidateTerm)

def followVoteReplyRule : Rule :=
  rule scope [.voteReply] .term .sameTick id (.of (Cell.handle id .voteReply))
    fun _ reply => .ok (some reply.term)

def followAppendRequestRule : Rule :=
  rule scope [.appendRequest] .term .sameTick id (.of (Cell.handle id .appendRequest))
    fun _ request => .ok (some request.leaderTerm)

def voteForSelfRule : Rule :=
  rule scope [.campaigns] .voted .sameTick id (.of (Cell.handle id .campaigns))
    (voteForSelf (memberOf id) here)

def countOwnVoteRule : Rule :=
  rule scope [.campaigns] .granted .sameTick id (.of (Cell.handle id .campaigns))
    (countOwnVote (memberOf id) here)

def requestVoteRule : Rule :=
  rule scope [.campaigns, .peers] .voteRequest .nextTick id
    (.product (.of (Cell.handle id .campaigns)) (.of (Cell.handle id .peers)))
    (requestVote (memberOf id) here)

def recordVoteRule : Rule :=
  rule scope [.voteRequest] .voted .sameTick id (.of (Cell.handle id .voteRequest))
    (recordVote (memberOf id) here)

def answerVoteRequestRule : Rule :=
  rule scope [.voteRequest] .voteReply .nextTick id (.of (Cell.handle id .voteRequest))
    (answerVoteRequest (memberOf id) here)

def countVoteRule : Rule :=
  rule scope [.voteReply] .granted .sameTick id (.of (Cell.handle id .voteReply))
    fun _ reply => .ok (countVote here reply)

def declareVictoryRule : Rule :=
  rule scope [.granted] .won .sameTick id (.of (Cell.handle id .granted))
    (declareVictory (memberOf id))

def recordOwnLeadRule : Rule :=
  rule scope [.won] .leaders .sameTick id (.of (Cell.handle id .won))
    fun _ victory => .ok (recordOwnLead here victory)

def leadsCurrentTermRule : Rule :=
  rule scope [] .isLeader .sameTick id .unit fun facts () =>
    leadsCurrentTerm (memberOf id) facts

def announceRule : Rule :=
  rule scope [.isLeader, .peers] .appendRequest .nextTick id
    (.product (.of (Cell.handle id .isLeader)) (.of (Cell.handle id .peers)))
    (announce (memberOf id) here)

def recordLeaderRule : Rule :=
  rule scope [.appendRequest] .leaders .sameTick id (.of (Cell.handle id .appendRequest))
    fun _ request => .ok (recordLeader here request)

def answerLeaderRule : Rule :=
  rule scope [.appendRequest] .appendReply .nextTick id (.of (Cell.handle id .appendRequest))
    (answerLeader (memberOf id) here)

/-- The rules of a member in the order of their declaration. -/
def memberRules : List Rule :=
  [advanceTermRule id scope, campaignRule id scope, followVoteRequestRule id scope,
    followVoteReplyRule id scope, followAppendRequestRule id scope,
    voteForSelfRule id here scope, countOwnVoteRule id here scope,
    requestVoteRule id here scope, recordVoteRule id here scope,
    answerVoteRequestRule id here scope, countVoteRule id here scope,
    declareVictoryRule id scope, recordOwnLeadRule id here scope,
    leadsCurrentTermRule id scope, announceRule id here scope, recordLeaderRule id here scope,
    answerLeaderRule id here scope]

end Rules

/-- Declaring the relations of a member on a fresh program succeeds. -/
theorem runOn_declareRelations {scope here : String} {id : Nat} {limit : Option Nat} :
    (Member.declareRelations scope).runOn (.create id here limit) =
      (.ok (memberOf id), { Program.create id here limit with store := memberSlots scope }) := by
  simp only [Member.declareRelations, Channels.declare, Setup.channel, Setup.declare, Setup.mark,
    Setup.extendOnly, Setup.runOn_bind, Setup.runOn_extend, Setup.runOn_pure]
  simp [Program.create, Program.declareChannel, Program.declare, Program.mark, Program.slotOf,
    Program.facts, Facts.slot, bind, Except.bind, pure, Except.pure, Slot.fresh, Slot.mark]
  and_intros <;> rfl

/-- Declaring a member on a fresh program succeeds. -/
theorem runOn_declare {scope here : String} {id : Nat} {limit : Option Nat} :
    (Member.declare scope).runOn (.create id here limit) =
      (.ok (memberOf id), { Program.create id here limit with
        store := memberSlots scope
        rules := memberRules id here scope }) := by
  simp only [Member.declare, Member.addRules, runOn_declareRelations, Setup.join,
    Setup.extendOnly, Setup.runOn_bind, Setup.runOn_extend, Setup.runOn_pure, Setup.runOn_addr]
  simp [Program.create, Program.join, Program.addRule, Program.nameOf, Program.facts, Facts.slot,
    bind, Except.bind, pure, Except.pure, Source.of, Source.unit, Source.product, memberSlots,
    memberOf, Cell.handle, Cell.slot, Cell.all]
  rfl

/-! ## States -/

/-- The values of the relations of a member. -/
abbrev State := (c : Cell) → c.type.Value

variable {id : Nat} {scope : String} {S T : Store} {σ τ : State} {c : Cell}

/-- The store has the values of the state. -/
def Reads (id : Nat) (S : Store) (σ : State) : Prop :=
  ∀ c, (Facts.mk id S).get (Cell.handle id c) = .ok (σ c)

theorem Cell.declared_handle (c : Cell) (h : (memberSlots scope).SameShape S) :
    (c.handle id).Declared id S := by
  have hdeclared : (c.handle id).Declared id (memberSlots scope) :=
    ⟨rfl, _, getElem?_memberSlots c, rfl⟩
  exact hdeclared.of_sameShape h

theorem exists_reads (h : (memberSlots scope).SameShape S) : ∃ σ, Reads id S σ := by
  have hread : ∀ c : Cell, ∃ v, (Facts.mk id S).get (Cell.handle id c) = .ok v := fun c =>
    Handle.declared_iff.1 (c.declared_handle h)
  exact ⟨fun c => (hread c).choose, fun c => (hread c).choose_spec⟩

theorem reads_memberSlots : Reads id (memberSlots scope) fun c => c.type.bottom :=
  fun c => Facts.get_eq_ok.2 ⟨rfl, _, getElem?_memberSlots c, Slot.valueAs_eq_ok.2 ⟨rfl, rfl⟩⟩

theorem Reads.unique (hσ : Reads id S σ) (hτ : Reads id S τ) : σ = τ :=
  funext fun c => Except.ok.inj ((hσ c).symm.trans (hτ c))

/-- The values that a tick starts from, before the deposits that wait for it. -/
def State.reset (σ : State) : State := fun c => if c.scratch then c.type.bottom else σ c

theorem Reads.resetScratch (h : Reads id S σ) (hS : (memberSlots scope).SameShape S) :
    Reads id S.resetScratch σ.reset := by
  intro c
  obtain ⟨s, hs⟩ := Store.exists_of_length_eq hS.1 (getElem?_memberSlots c)
  obtain ⟨v, rfl⟩ := hS.2 _ _ s (getElem?_memberSlots c) hs
  exact get_resetScratch hs (h c)

theorem Reads.assign (h : Reads id S σ) (v : c.type.Value) :
    Reads id (S.assign (Cell.handle id c) v) (Function.update σ c v) := by
  intro d
  by_cases hd : d = c
  · subst hd
    rw [Function.update_self]
    exact get_assign_self (h d)
  · have hslot : (Cell.handle id c).id.slot ≠ (Cell.handle id d).id.slot := fun heq =>
      hd (Cell.slot_injective heq).symm
    rw [Function.update_of_ne hd, get_assign_of_ne hslot]
    exact h d

theorem Reads.exists_of_deposit {d : Deposit} {grew : Bool} (h : Reads id S σ)
    (hslot : d.slot = c.slot) (hd : S.deposit id d = .ok (T, grew)) :
    ∃ v, Reads id T (Function.update σ c v) := by
  obtain ⟨v, hv, _⟩ := Facts.exists_get (Store.deposit_least hd).1 (h c)
  refine ⟨v, ?_⟩
  intro e
  by_cases he : e = c
  · subst he
    rw [Function.update_self]
    exact hv
  · have hne : d.slot ≠ (Cell.handle id e).id.slot := fun heq =>
      he (Cell.slot_injective (hslot.symm.trans heq)).symm
    rw [Function.update_of_ne he, get_of_deposit_of_ne hne hd]
    exact h e

theorem Reads.rows (h : Reads id S σ) :
    (Source.of (Cell.handle id c)).rows ⟨id, S⟩ = .ok (Relation.tuples (σ c)) :=
  Source.rows_of (h c)

theorem Reads.mem_selected {α : Type} {select : Facts → c.type.Tuple → Except Fault (Option α)}
    {xs : List α} {x : α} (h : Reads id S σ)
    (hxs : (Source.of (Cell.handle id c)).selected select ⟨id, S⟩ = .ok xs) :
    x ∈ xs ↔ ∃ row ∈ Relation.tuples (σ c), select ⟨id, S⟩ row = .ok (some x) := by
  rw [Ratchet.mem_selected hxs, h.rows]
  constructor
  · rintro ⟨rows, heq, hx⟩
    cases heq
    exact hx
  · exact fun hx => ⟨_, rfl, hx⟩

/-- Firing a rule updates the cell of its target by what the selector gives. -/
theorem Reads.exists_of_fire {ρ : Type} {sources : List Cell} {timing : Timing}
    {source : Source ρ} {select : Facts → ρ → Except Fault (Option c.type.Tuple)}
    (h : Reads id S σ) (hfire : (rule scope sources c timing id source select).fire id S = .ok T) :
    ∃ xs w, source.selected select ⟨id, S⟩ = .ok xs ∧ Relation.addAll (σ c) xs = .ok w ∧
      Reads id T (Function.update σ c w) := by
  obtain ⟨xs, w, hxs, hw, rfl⟩ := (Rule.fire_join rfl rfl (h c)).1 hfire
  exact ⟨xs, w, hxs, hw, h.assign w⟩

/-- What a rule asks for are facts for its target that the selector gives. -/
theorem exists_of_consequences {ρ : Type} {sources : List Cell} {timing : Timing}
    {source : Source ρ} {select : Facts → ρ → Except Fault (Option c.type.Tuple)} {facts : Facts}
    {ds : List Deposit} {d : Deposit}
    (h : (rule scope sources c timing id source select).consequences facts = .ok ds)
    (hd : d ∈ ds) : ∃ xs, source.selected select facts = .ok xs ∧
      ∃ x ∈ xs, d = ⟨c.slot, .add c.type x⟩ := by
  rw [Rule.consequences_eq rfl] at h
  cases hxs : source.selected select facts with
  | error fault =>
      rw [hxs] at h
      cases h
  | ok xs =>
      rw [hxs] at h
      cases h
      obtain ⟨x, hx, rfl⟩ := List.mem_map.1 hd
      exact ⟨xs, rfl, x, hx, rfl⟩

theorem Reads.currentTerm (h : Reads id S σ) :
    currentTerm (memberOf id) ⟨id, S⟩ = .ok (σ .term).value := by
  change (do return (← (Facts.mk id S).get (Cell.handle id .term)).value) = _
  rw [h .term]
  rfl

theorem Reads.votedFor (h : Reads id S σ) (term : Int64) :
    votedFor (memberOf id) ⟨id, S⟩ term =
      .ok (((σ .voted).get? (termKey term)).map MaxText.value) := by
  change (do
    let voted ← (Facts.mk id S).get (Cell.handle id .voted)
    return (voted.get? (termKey term)).map MaxText.value) = _
  rw [h .voted]
  rfl

end Ratchet.Election

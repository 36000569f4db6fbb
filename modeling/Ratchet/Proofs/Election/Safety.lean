import Mathlib.Data.List.Nodup
import Ratchet.Proofs.Election.Tick
import Ratchet.Proofs.Election.World

/-!
# At most one member wins a term

The votes on the records of all members are what is known in a world (`World.ballots`).  They are
never taken back, and a member has at most one of them for a term.

In every world that is reached, all members are sound with respect to these votes, and every reply
on its way that grants a vote is for one of them (`World.Good`).  An event concerns one member only.
What it does to that member keeps it sound, and to the others more votes become known at most.  So
two members that won one term both have votes of a majority, and the voter that they share voted for
both of them, which means that they are the same.
-/

namespace Ratchet.Election

/-! ## Members -/

/-- The member voted for the candidate in the term. -/
def Seat.Voted (s : Seat) (key candidate : String) : Prop :=
  ∃ votes, s.program.facts.get s.member.voted = .ok votes ∧ votes.get? key = some ⟨candidate⟩

/-- The member has won the term. -/
def Seat.Won (s : Seat) (key : String) : Prop :=
  ∃ won, s.program.facts.get s.member.won = .ok won ∧ won.get? key = some ⟨true⟩

theorem Seat.hasWon_iff {s : Seat} {term : Int64} :
    s.member.hasWon s.program term = .ok true ↔ s.Won (termKey term) := by
  unfold Member.hasWon Seat.Won
  rw [bind_eq_ok]
  constructor
  · rintro ⟨won, hwon, hany⟩
    obtain ⟨⟨_⟩, hkey, rfl⟩ := (Option.any_eq_true _ _).1 (Except.ok.inj hany)
    exact ⟨won, hwon, hkey⟩
  · rintro ⟨won, hwon, hkey⟩
    refine ⟨won, hwon, ?_⟩
    rw [hkey]
    rfl

/-- A member with a sound state whose waiting deposits are tame, and that knows what it was told. -/
structure Seat.Good (quorum : Nat) (known : Ballots) (s : Seat) (σ : State) : Prop where
  member : s.member = memberOf s.program.id
  setup : ∃ scope, s.program.rules = memberRules s.program.id s.program.addr scope ∧
    (memberSlots scope).SameShape s.program.store
  reads : Reads s.program.id s.program.store σ
  sound : Sound known s.program.addr quorum σ
  pending : ∀ d ∈ s.program.pending, Tame known d
  told : ∀ x ∈ s.told, x ∈ σ .peers ∨
    ∃ d ∈ s.program.pending, d.slot = Cell.peers.slot ∧ x ∈ d.write.factsOf .text

namespace Seat.Good

variable {quorum : Nat} {known known' : Ballots} {s : Seat} {p : Program} {σ : State}
  {key candidate : String}

theorem mono (h : s.Good quorum known σ)
    (hknown : ∀ voter key candidate, known voter key candidate → known' voter key candidate) :
    s.Good quorum known' σ where
  member := h.member
  setup := h.setup
  reads := h.reads
  sound := h.sound.of_backed fun _ _ _ hbacked => hbacked.imp (hknown _ _ _) id
  pending d hd := (h.pending d hd).mono hknown
  told := h.told

theorem voted_iff (h : s.Good quorum known σ) :
    s.Voted key candidate ↔ (σ .voted).get? key = some ⟨candidate⟩ := by
  have hvoted : s.program.facts.get s.member.voted = .ok (σ .voted) := by
    rw [h.member]
    exact h.reads .voted
  unfold Seat.Voted
  rw [hvoted]
  constructor
  · rintro ⟨votes, heq, hvote⟩
    cases heq
    exact hvote
  · exact fun hvote => ⟨_, rfl, hvote⟩

theorem won_iff (h : s.Good quorum known σ) :
    s.Won key ↔ (σ .won).get? key = some ⟨true⟩ := by
  have hwon : s.program.facts.get s.member.won = .ok (σ .won) := by
    rw [h.member]
    exact h.reads .won
  unfold Seat.Won
  rw [hwon]
  constructor
  · rintro ⟨won, heq, hkey⟩
    cases heq
    exact hkey
  · exact fun hkey => ⟨_, rfl, hkey⟩

theorem hasWon_iff {term : Int64} (h : s.Good quorum known σ) :
    s.member.hasWon s.program term = .ok true ↔ (σ .won).get? (termKey term) = some ⟨true⟩ :=
  Seat.hasWon_iff.trans h.won_iff

/-- Who leads has won the term. -/
theorem hasWon_of_leads {term : Int64} (h : s.Good quorum known σ)
    (hleads : s.member.leads s.program = .ok true)
    (hterm : s.member.termOf s.program = .ok term) :
    s.member.hasWon s.program term = .ok true := by
  rw [h.hasWon_iff]
  unfold Member.leads at hleads
  unfold Member.termOf at hterm
  rw [h.member] at hleads hterm
  obtain ⟨isLeader, hisLeader, hvalue⟩ := bind_eq_ok.1 hleads
  obtain rfl := Except.ok.inj ((h.reads .isLeader).symm.trans hisLeader)
  obtain rfl := Except.ok.inj (h.reads.currentTerm.symm.trans hterm)
  exact (h.sound.leads (Except.ok.inj hvalue)).1

/-- Queueing a tame deposit changes nothing for a member, and may tell it about peers. -/
theorem of_depositNext {id : RelationId} {write : Write} {told : List String}
    (h : s.Good quorum known σ) (htame : Tame known ⟨id.slot, write⟩)
    (hp : s.program.depositNext id write = .ok p)
    (htold : ∀ x ∈ told, x ∈ s.told ∨ id.slot = Cell.peers.slot ∧ x ∈ write.factsOf .text) :
    Seat.Good quorum known { s with program := p, told := told } σ := by
  obtain ⟨_, _, heq⟩ := bind_eq_ok.1 hp
  cases heq
  refine ⟨h.member, h.setup, h.reads, h.sound, ?_, ?_⟩
  · intro d hd
    rcases List.mem_append.1 hd with hd | hd
    · exact h.pending d hd
    · obtain rfl := List.mem_singleton.1 hd
      exact htame
  · intro x hx
    rcases htold x hx with hx | ⟨hslot, hx⟩
    · refine (h.told x hx).imp_right ?_
      rintro ⟨d, hd, hslot, hx⟩
      exact ⟨d, List.mem_append_left _ hd, hslot, hx⟩
    · exact .inr ⟨_, List.mem_append_right _ (List.mem_singleton_self _), hslot, hx⟩

theorem factsOf_introduction (peers : Introduction) :
    peers.write.factsOf .text = peers.addrs := by
  cases peers <;> rfl

theorem tame_introduction (peers : Introduction) : Tame known ⟨Cell.peers.slot, peers.write⟩ := by
  refine ⟨by simp [Cell.slot], ?_⟩
  intro m hm
  cases peers <;> cases hm

/-- A member that is told about peers at once stays good. -/
theorem of_introduceNow {peers : Introduction} {grew : Bool} (h : s.Good quorum known σ)
    (hp : s.program.depositNow s.member.peers.id peers.write = .ok (p, grew)) :
    ∃ τ, Seat.Good quorum known { s with program := p, told := s.told ++ peers.addrs } τ ∧
      τ .voted = σ .voted := by
  rw [h.member] at hp
  obtain ⟨_, _, hp⟩ := bind_eq_ok.1 hp
  obtain ⟨⟨store, grew'⟩, hdeposit, heq⟩ := bind_eq_ok.1 hp
  cases heq
  obtain ⟨v, hv⟩ := h.reads.exists_of_deposit (c := .peers) rfl hdeposit
  obtain ⟨w, hw, hmem⟩ := exists_get_of_deposit (h.reads .peers) hdeposit
  obtain rfl : w = v := Except.ok.inj (hw.symm.trans (hv .peers))
  obtain ⟨scope, hrules, hshape⟩ := h.setup
  refine ⟨_, ⟨h.member, ⟨scope, hrules, ?_⟩, hv, h.sound.update_peers, h.pending, ?_⟩, rfl⟩
  · exact hshape.trans (Store.deposit_least hdeposit).1.sameShape
  · intro x hx
    rcases List.mem_append.1 hx with hx | hx
    · exact (h.told x hx).imp_left fun hx => (hmem x).2 (.inl hx)
    · exact .inl ((hmem x).2 (.inr ⟨rfl, by rwa [factsOf_introduction]⟩))

/-- A member that knows of all others stays good when it ticks.  What becomes known is what it has
on record then, and what it queues is tame with respect to that. -/
theorem of_tick {addrs : List String} {patience : Nat} {result : Except ProgramError TickReport}
    (h : s.Good (addrs.length / 2 + 1) known σ) (hnodup : addrs.Nodup)
    (hready : ∀ x ∈ addrs, x ≠ s.program.addr → x ∈ s.told)
    (htick : s.program.tick patience = .ok (p, result)) :
    ∃ τ, Seat.Good (addrs.length / 2 + 1) (Backed known s.program.addr τ)
        { s with program := p } τ ∧
      p.addr = s.program.addr ∧
      ∀ key vote, (σ .voted).get? key = some vote → (τ .voted).get? key = some vote := by
  obtain ⟨scope, hrules, hshape⟩ := h.setup
  -- majorities are counted from the peers, and these are all other members at least
  have hquorum : ∀ peers : GrowSet String, (∀ x, x ∈ peers ↔ x ∈ σ .peers ∨
      ∃ d ∈ s.program.pending, d.slot = Cell.peers.slot ∧ x ∈ d.write.factsOf .text) →
        addrs.length / 2 + 1 ≤ majority peers.size := by
    intro peers hpeers
    have hsubset : addrs.erase s.program.addr ⊆ peers.elements := by
      intro x hx
      obtain ⟨hne, hx⟩ := hnodup.mem_erase_iff.1 hx
      exact (hpeers x).2 (h.told x (hready x hx hne))
    have hle := ((hnodup.erase s.program.addr).subperm hsubset).length_le
    have hlength : addrs.length - 1 ≤ (addrs.erase s.program.addr).length := List.le_length_erase
    unfold majority GrowSet.size
    omega
  obtain ⟨τ, hτ, hsound, hvoted, hpeers, hqueue⟩ :=
    sound_of_tick hrules hshape h.reads h.sound h.pending hquorum htick
  have hsetup := Program.sameSetup_of_tick htick
  refine ⟨τ, ⟨?_, ⟨scope, ?_, hshape.trans hsetup.sameShape⟩, hτ, ?_, fun d hd => (hqueue d hd).1,
    fun x hx => ?_⟩, hsetup.addr_eq, hvoted⟩
  · rw [h.member, hsetup.id_eq]
  · rw [hsetup.rules_eq, hrules, hsetup.id_eq, hsetup.addr_eq]
  · rw [hsetup.addr_eq]
    exact hsound.of_backed fun _ _ _ hbacked => .inl hbacked
  · exact .inl ((hpeers x).2 (h.told x hx))

/-- A message that is received is queued, and tame if the vote that it grants, if any, is known. -/
theorem exists_of_receive {m : Message} (h : s.Good quorum known σ)
    (hm : ∀ reply : VoteReply, m = ⟨.voteReply, reply⟩ → reply.granted →
      known reply.senderAddr (termKey reply.term) reply.addr)
    (hp : s.receive? m = some p) :
    ∃ (c : Cell) (x : c.type.Tuple), s.program.addNext (c.handle s.program.id) x = .ok p ∧
      Tame known ⟨c.slot, .add c.type x⟩ := by
  unfold Seat.receive? at hp
  rw [h.member] at hp
  split at hp
  · obtain ⟨type, content⟩ := m
    cases type
    case voteRequest =>
      obtain ⟨_, ⟨⟩, hp⟩ := Option.bind_eq_some_iff.1 hp
      exact ⟨.voteRequest, content, toOption_eq_some.1 hp, tame_add (by decide) (by decide)⟩
    case voteReply =>
      obtain ⟨_, ⟨⟩, hp⟩ := Option.bind_eq_some_iff.1 hp
      refine ⟨.voteReply, content, toOption_eq_some.1 hp, by simp [Cell.slot], ?_⟩
      intro reply hreply hgrants
      obtain rfl := List.mem_singleton.1 hreply
      exact hm reply rfl hgrants
    case appendRequest =>
      obtain ⟨_, ⟨⟩, hp⟩ := Option.bind_eq_some_iff.1 hp
      exact ⟨.appendRequest, content, toOption_eq_some.1 hp, tame_add (by decide) (by decide)⟩
    case appendReply =>
      obtain ⟨_, ⟨⟩, hp⟩ := Option.bind_eq_some_iff.1 hp
      exact ⟨.appendReply, content, toOption_eq_some.1 hp, tame_add (by decide) (by decide)⟩
    all_goals cases hp
  · cases hp

/-- A member that was just declared is good. -/
theorem of_fresh (h : s.Fresh) : ∃ σ, s.Good quorum known σ := by
  obtain ⟨member, program, told⟩ := s
  obtain ⟨rfl, scope, id, addr, limit, hdeclare⟩ := h
  rw [runOn_declare] at hdeclare
  cases hdeclare
  exact ⟨fun c => c.type.bottom, rfl, ⟨scope, rfl, (Store.below_refl _).sameShape⟩,
    reads_memberSlots, ⟨nofun, nofun, nofun, nofun⟩, nofun, nofun⟩

end Seat.Good

/-- A member on a program without a bound on its passes. -/
def declared (id : Nat) (addr : String) : Seat where
  member := memberOf id
  program := { Program.create id addr none with
    store := memberSlots ""
    rules := memberRules id addr "" }
  told := []

theorem fresh_declared {id : Nat} {addr : String} : (declared id addr).Fresh :=
  ⟨rfl, "", id, addr, none, runOn_declare⟩

/-! ## Worlds -/

/-- The votes that members have on record. -/
def World.ballots (w : World) : Ballots := fun voter key candidate =>
  ∃ s ∈ w.seats, s.program.addr = voter ∧ s.Voted key candidate

/-- All members are good with respect to the votes on record, and what is on its way grants only
such votes. -/
structure World.Good (w : World) : Prop where
  seats : ∀ s ∈ w.seats, ∃ σ, s.Good (w.addrs.length / 2 + 1) w.ballots σ
  sent : ∀ reply : VoteReply, ⟨.voteReply, reply⟩ ∈ w.sent → reply.granted →
    w.ballots reply.senderAddr (termKey reply.term) reply.addr

namespace World

variable {w w' : World} {place : Nat} {s s' : Seat} {sent : List Message} {σ τ : State}
  {term : Int64}

theorem addrs_put (hs : w.seats[place]? = some s) (haddr : s'.program.addr = s.program.addr) :
    (w.put place s' sent).addrs = w.addrs := by
  apply List.ext_getElem?
  intro i
  unfold addrs put
  rw [List.getElem?_map, List.getElem?_map, List.getElem?_set]
  by_cases hi : place = i
  · subst hi
    obtain ⟨hlt, _⟩ := List.getElem?_eq_some_iff.1 hs
    rw [if_pos rfl, if_pos hlt, hs, Option.map_some, Option.map_some, haddr]
  · rw [if_neg hi]

/-- A world stays good when one of its members stays good and keeps its votes on record. -/
theorem Good.put (hw : w.Good) (hs : w.seats[place]? = some s)
    (hσ : s.Good (w.addrs.length / 2 + 1) w.ballots σ)
    (hτ : s'.Good (w.addrs.length / 2 + 1) (Backed w.ballots s.program.addr τ) τ)
    (haddr : s'.program.addr = s.program.addr)
    (hkept : ∀ key vote, (σ .voted).get? key = some vote → (τ .voted).get? key = some vote)
    (hsent : ∀ reply : VoteReply, ⟨.voteReply, reply⟩ ∈ sent → reply.granted →
      Backed w.ballots s.program.addr τ reply.senderAddr (termKey reply.term) reply.addr) :
    (w.put place s' sent).Good := by
  have hplace : s' ∈ w.seats.set place s' :=
    List.mem_set (List.getElem?_eq_some_iff.1 hs).1 s'
  -- what the member has on record now is known from now on, and nothing is forgotten
  have hballots : ∀ voter key candidate, Backed w.ballots s.program.addr τ voter key candidate →
      (w.put place s' sent).ballots voter key candidate := by
    rintro voter key candidate (⟨t, ht, rfl, hvoted⟩ | ⟨rfl, hvote⟩)
    · obtain ⟨i, hi⟩ := List.mem_iff_getElem?.1 ht
      by_cases hplace' : place = i
      · subst hplace'
        obtain rfl := Option.some.inj (hs.symm.trans hi)
        exact ⟨s', hplace, haddr, hτ.voted_iff.2 (hkept _ _ (hσ.voted_iff.1 hvoted))⟩
      · refine ⟨t, List.mem_iff_getElem?.2 ⟨i, ?_⟩, rfl, hvoted⟩
        exact (List.getElem?_set_ne hplace').trans hi
    · exact ⟨s', hplace, haddr, hτ.voted_iff.2 hvote⟩
  constructor
  · rw [addrs_put hs haddr]
    intro t ht
    rcases List.mem_or_eq_of_mem_set ht with ht | rfl
    · obtain ⟨υ, hυ⟩ := hw.seats t ht
      exact ⟨υ, hυ.mono fun _ _ _ h => hballots _ _ _ (.inl h)⟩
    · exact ⟨τ, hτ.mono hballots⟩
  · intro reply hreply hgrants
    rcases List.mem_append.1 hreply with hreply | hreply
    · exact hballots _ _ _ (.inl (hw.sent reply hreply hgrants))
    · exact hballots _ _ _ (hsent reply hreply hgrants)

/-- A world stays good when nothing becomes known and nothing is sent. -/
theorem Good.put_nil (hw : w.Good) (hs : w.seats[place]? = some s)
    (hσ : s.Good (w.addrs.length / 2 + 1) w.ballots σ)
    (hτ : s'.Good (w.addrs.length / 2 + 1) w.ballots τ)
    (haddr : s'.program.addr = s.program.addr) (hkept : τ .voted = σ .voted) :
    (w.put place s' []).Good := by
  refine hw.put hs hσ (hτ.mono fun _ _ _ h => .inl h) haddr ?_ nofun
  intro key vote hvote
  rw [hkept]
  exact hvote

theorem mem_factsOf_of_messageOf {d : Deposit} {type : MessageType} {content : type.Carrier}
    (h : messageOf? d = some ⟨type, content⟩) :
    content ∈ d.write.factsOf (.message type) := by
  unfold messageOf? at h
  split at h
  · next hwrite =>
      cases h
      rw [hwrite, Write.factsOf_add]
      exact List.mem_singleton_self content
  · cases h

/-- A world stays good when a member is queued a tame deposit, which may tell it about peers. -/
theorem Good.depositNext {p : Program} {id : RelationId} {write : Write} {told : List String}
    (hw : w.Good) (hs : w.seats[place]? = some s)
    (hσ : s.Good (w.addrs.length / 2 + 1) w.ballots σ) (htame : Tame w.ballots ⟨id.slot, write⟩)
    (hp : s.program.depositNext id write = .ok p)
    (htold : ∀ x ∈ told, x ∈ s.told ∨ id.slot = Cell.peers.slot ∧ x ∈ write.factsOf .text) :
    (w.put place { s with program := p, told := told } []).Good ∧
      (w.put place { s with program := p, told := told } []).addrs = w.addrs := by
  have haddr := (Program.sameSetup_of_depositNext hp).addr_eq
  have hτ := hσ.of_depositNext htame hp htold
  exact ⟨hw.put_nil hs hσ hτ haddr rfl, addrs_put hs haddr⟩

theorem Good.introduce {p : Program} {timing : Timing} {peers : Introduction} (hw : w.Good)
    (hs : w.seats[place]? = some s) (hσ : s.Good (w.addrs.length / 2 + 1) w.ballots σ)
    (hp : s.introduce timing peers = .ok p) :
    (w.put place { s with program := p, told := s.told ++ peers.addrs } []).Good ∧
      (w.put place { s with program := p, told := s.told ++ peers.addrs } []).addrs = w.addrs := by
  unfold Seat.introduce at hp
  cases timing with
  | sameTick =>
      obtain ⟨⟨q, grew⟩, hdeposit, heq⟩ := bind_eq_ok.1 hp
      cases heq
      have haddr := (Program.sameSetup_of_depositNow hdeposit).addr_eq
      obtain ⟨τ, hτ, hkept⟩ := hσ.of_introduceNow hdeposit
      exact ⟨hw.put_nil hs hσ hτ haddr hkept, addrs_put hs haddr⟩
  | nextTick =>
      rw [hσ.member] at hp
      refine hw.depositNext hs hσ (Seat.Good.tame_introduction peers) hp ?_
      intro x hx
      rcases List.mem_append.1 hx with hx | hx
      · exact .inl hx
      · exact .inr ⟨rfl, by rwa [Seat.Good.factsOf_introduction]⟩

theorem Good.tick {p : Program} {patience : Nat} {result : Except ProgramError TickReport}
    (hw : w.Good) (hnodup : w.addrs.Nodup) (hs : w.seats[place]? = some s)
    (hσ : s.Good (w.addrs.length / 2 + 1) w.ballots σ) (hready : s.ready w)
    (htick : s.program.tick patience = .ok (p, result)) :
    (w.put place { s with program := p } (p.pending.filterMap messageOf?)).Good ∧
      (w.put place { s with program := p } (p.pending.filterMap messageOf?)).addrs = w.addrs := by
  have htold : ∀ x ∈ w.addrs, x ≠ s.program.addr → x ∈ s.told := by
    intro x hx hne
    have hor := List.all_eq_true.1 hready x hx
    simpa [hne] using hor
  obtain ⟨τ, hτ, haddr, hkept⟩ := hσ.of_tick hnodup htold htick
  refine ⟨hw.put hs hσ hτ haddr hkept ?_, addrs_put hs haddr⟩
  intro reply hreply hgrants
  obtain ⟨d, hd, hmessage⟩ := List.mem_filterMap.1 hreply
  exact (hτ.pending d hd).2 reply (mem_factsOf_of_messageOf hmessage) hgrants

/-- A world stays good in every event, and its members keep their addresses. -/
theorem Good.perform {event : Event} (hw : w.Good) (hnodup : w.addrs.Nodup)
    (h : w.perform event = some w') : w'.Good ∧ w'.addrs = w.addrs := by
  cases event with
  | introduce place timing peers =>
      obtain ⟨s, hs, h⟩ := Option.bind_eq_some_iff.1 h
      obtain ⟨σ, hσ⟩ := hw.seats s (List.mem_of_getElem? hs)
      obtain ⟨p, hp, heq⟩ := Option.bind_eq_some_iff.1 h
      cases heq
      exact hw.introduce hs hσ (toOption_eq_some.1 hp)
  | timeout place =>
      obtain ⟨s, hs, h⟩ := Option.bind_eq_some_iff.1 h
      obtain ⟨σ, hσ⟩ := hw.seats s (List.mem_of_getElem? hs)
      obtain ⟨p, hp, heq⟩ := Option.bind_eq_some_iff.1 h
      cases heq
      rw [hσ.member] at hp
      have htame : Tame w.ballots ⟨Cell.electionTimeout.slot, .add .flag true⟩ :=
        tame_add (by decide) (by decide)
      exact hw.depositNext hs hσ htame (toOption_eq_some.1 hp) fun _ hx => .inl hx
  | deliver place message =>
      obtain ⟨s, hs, h⟩ := Option.bind_eq_some_iff.1 h
      obtain ⟨σ, hσ⟩ := hw.seats s (List.mem_of_getElem? hs)
      obtain ⟨m, hm, h⟩ := Option.bind_eq_some_iff.1 h
      obtain ⟨p, hp, heq⟩ := Option.bind_eq_some_iff.1 h
      cases heq
      -- the message was sent, so the vote that it may grant is on record
      have hknown : ∀ reply : VoteReply, m = ⟨.voteReply, reply⟩ → reply.granted →
          w.ballots reply.senderAddr (termKey reply.term) reply.addr := by
        rintro reply rfl hgrants
        exact hw.sent reply (List.mem_of_getElem? hm) hgrants
      obtain ⟨c, x, hp, htame⟩ := hσ.exists_of_receive hknown hp
      exact hw.depositNext hs hσ htame hp fun _ hx => .inl hx
  | tick place patience =>
      obtain ⟨s, hs, h⟩ := Option.bind_eq_some_iff.1 h
      obtain ⟨σ, hσ⟩ := hw.seats s (List.mem_of_getElem? hs)
      split at h
      · next hready =>
          obtain ⟨⟨p, result⟩, htick, heq⟩ := Option.bind_eq_some_iff.1 h
          cases heq
          exact hw.tick hnodup hs hσ hready (toOption_eq_some.1 htick)
      · cases h

/-! ## Runs -/

theorem Good.run {events : List Event} (hw : w.Good) (hnodup : w.addrs.Nodup)
    (h : w.run events = some w') : w'.Good ∧ w'.addrs = w.addrs := by
  induction events generalizing w with
  | nil =>
      cases h
      exact ⟨hw, rfl⟩
  | cons event events ih =>
      obtain ⟨v, hv, h⟩ := Option.bind_eq_some_iff.1 h
      obtain ⟨hgood, haddrs⟩ := hw.perform hnodup hv
      -- the addresses, and with them the majority, stay what they were
      rw [← haddrs] at hnodup ⊢
      exact ih hgood hnodup h

theorem Initial.good (hw : w.Initial) : w.Good where
  seats s hs := Seat.Good.of_fresh (hw.fresh s hs)
  sent reply hreply := by
    rw [hw.sent] at hreply
    cases hreply

/-! ## Elections -/

theorem getElem?_addrs (hs : w.seats[place]? = some s) :
    w.addrs[place]? = some s.program.addr := by
  unfold addrs
  rw [List.getElem?_map, hs]
  rfl

/-- A member has at most one vote on record for a term. -/
theorem ballots_unique (hw : w.Good) (hnodup : w.addrs.Nodup) {voter key c d : String}
    (hc : w.ballots voter key c) (hd : w.ballots voter key d) : c = d := by
  obtain ⟨s, hs, rfl, hvoted⟩ := hc
  obtain ⟨t, ht, haddr, hvoted'⟩ := hd
  obtain rfl : t = s := List.inj_on_of_nodup_map hnodup ht hs haddr
  obtain ⟨σ, hσ⟩ := hw.seats t ht
  rw [hσ.voted_iff] at hvoted hvoted'
  cases hvoted.symm.trans hvoted'
  rfl

/-- A member that won a term has votes of a majority of the members. -/
theorem Good.exists_votes {key : String} (hw : w.Good) (hs : s ∈ w.seats) (hwon : s.Won key) :
    ∃ votes : GrowSet String, w.addrs.length / 2 + 1 ≤ votes.size ∧
      ∀ voter ∈ votes, w.ballots voter key s.program.addr := by
  obtain ⟨σ, hσ⟩ := hw.seats s hs
  obtain ⟨votes, hvotes, hquorum⟩ := hσ.sound.won _ (hσ.won_iff.1 hwon)
  refine ⟨votes, hquorum, ?_⟩
  intro voter hvoter
  rcases hσ.sound.granted _ votes voter hvotes hvoter with hknown | ⟨rfl, hvote⟩
  · exact hknown
  · exact ⟨s, hs, rfl, hσ.voted_iff.2 hvote⟩

theorem mem_addrs_of_ballots {voter key candidate : String} (h : w.ballots voter key candidate) :
    voter ∈ w.addrs := by
  obtain ⟨s, hs, rfl, _⟩ := h
  exact List.mem_map_of_mem hs

/-- Members that won the same term are one. -/
theorem Good.addr_eq_of_won {key : String} (hw : w.Good) (hnodup : w.addrs.Nodup)
    (hs : s ∈ w.seats) (hs' : s' ∈ w.seats) (hwon : s.Won key) (hwon' : s'.Won key) :
    s.program.addr = s'.program.addr := by
  obtain ⟨votes, hsize, hvotes⟩ := hw.exists_votes hs hwon
  obtain ⟨votes', hsize', hvotes'⟩ := hw.exists_votes hs' hwon'
  -- two majorities of the members have a voter in common
  have hmajority : w.addrs.length < votes.size + votes'.size := by omega
  obtain ⟨voter, hvoter, hvoter'⟩ := GrowSet.exists_mem_of_length_lt
    (fun x hx => mem_addrs_of_ballots (hvotes x hx))
    (fun x hx => mem_addrs_of_ballots (hvotes' x hx)) hmajority
  exact ballots_unique hw hnodup (hvotes voter hvoter) (hvotes' voter hvoter')

theorem Good.addr_eq (hw : w.Good) (hnodup : w.addrs.Nodup) (hs : s ∈ w.seats)
    (hs' : s' ∈ w.seats) (hwon : s.member.hasWon s.program term = .ok true)
    (hwon' : s'.member.hasWon s'.program term = .ok true) :
    s.program.addr = s'.program.addr :=
  hw.addr_eq_of_won hnodup hs hs' (Seat.hasWon_iff.1 hwon) (Seat.hasWon_iff.1 hwon')

/-- In every world that a run leads to, at most one member has won a term, and two members that lead
the same term are one. -/
theorem run_electionSafety {events : List Event} (hw : w.Initial) (h : w.run events = some w') :
    ∀ (i j : Nat) (s s' : Seat) (term : Int64),
      w'.seats[i]? = some s → w'.seats[j]? = some s' →
      (s.member.hasWon s.program term = .ok true →
        s'.member.hasWon s'.program term = .ok true → i = j) ∧
      (s.member.leads s.program = .ok true → s'.member.leads s'.program = .ok true →
        s.member.termOf s.program = .ok term → s'.member.termOf s'.program = .ok term → i = j) := by
  obtain ⟨hgood, haddrs⟩ := hw.good.run hw.nodup h
  have hnodup : w'.addrs.Nodup := haddrs ▸ hw.nodup
  intro i j s s' term hi hj
  have hs := List.mem_of_getElem? hi
  have hs' := List.mem_of_getElem? hj
  have hunique : s.member.hasWon s.program term = .ok true →
      s'.member.hasWon s'.program term = .ok true → i = j := by
    intro hwon hwon'
    have hsame := hgood.addr_eq hnodup hs hs' hwon hwon'
    have hi' := getElem?_addrs hi
    have hj' := getElem?_addrs hj
    obtain ⟨hlt, _⟩ := List.getElem?_eq_some_iff.1 hi'
    exact (List.getElem?_inj hlt hnodup).1 (by rw [hi', hj', hsame])
  refine ⟨hunique, ?_⟩
  intro hleads hleads' hterm hterm'
  obtain ⟨σ, hσ⟩ := hgood.seats s hs
  obtain ⟨σ', hσ'⟩ := hgood.seats s' hs'
  exact hunique (hσ.hasWon_of_leads hleads hterm) (hσ'.hasWon_of_leads hleads' hterm')

/-- Three members that were just declared. -/
def trio : World where
  seats := [declared 0 "a", declared 1 "b", declared 2 "c"]
  sent := []

theorem initial_trio : trio.Initial where
  nodup := by decide +kernel
  fresh := by
    simp only [trio, List.forall_mem_cons]
    exact ⟨fresh_declared, fresh_declared, fresh_declared, nofun⟩
  sent := rfl

/-- The first member asks for votes and gets that of the second one. -/
def trioElection : List Event :=
  [.introduce 0 .sameTick (.one "b"), .introduce 0 .nextTick (.one "c"),
    .introduce 1 .sameTick (.all (.ofList ["a", "c"])), .timeout 0, .tick 0 9, .tick 0 9,
    .deliver 1 0, .tick 1 9, .deliver 0 2, .tick 0 9]

theorem run_electionSafety_trio : ∃ w s, trio.run trioElection = some w ∧
    w.seats[0]? = some s ∧ s.member.hasWon s.program 1 = .ok true ∧
    ∀ j s', w.seats[j]? = some s' → s'.member.hasWon s'.program 1 = .ok true → 0 = j := by
  have hwon : (trio.run trioElection).any (fun w => w.seats[0]?.any fun s =>
      (s.member.hasWon s.program 1).toOption == some true) = true := by decide +kernel
  obtain ⟨w, hw, hwon⟩ := (Option.any_eq_true _ _).1 hwon
  obtain ⟨s, hs, hwon⟩ := (Option.any_eq_true _ _).1 hwon
  have hfirst := toOption_eq_some.1 (beq_iff_eq.1 hwon)
  refine ⟨w, s, hw, hs, hfirst, ?_⟩
  intro j s' hs' hwon'
  exact (run_electionSafety initial_trio hw 0 j s s' 1 hs hs').1 hfirst hwon'

end World

end Ratchet.Election

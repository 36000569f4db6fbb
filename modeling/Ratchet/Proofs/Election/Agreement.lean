import Ratchet.Proofs.Election.Leaders
import Ratchet.Proofs.Election.Safety

/-!
# Members agree on leaders

The members that have won a term are what is known of elections in a world (`World.elected`), and
nobody who has won is forgotten.

In every world that is reached, members take only elected members for leaders, and every message of
a leader that is on its way is from an elected member (`World.Loyal`).  For a member that ticks this
is `follows_of_tick`, with the sound state that the tick ends in, and for the others more becomes
known at most.  Since a term has one winner, all members that know of a leader know of the same one,
and that one has votes of a majority.

## Main result

* `World.run_leaderAgreement`: whom the members take for leaders.
-/

namespace Ratchet.Election

/-! ## Members -/

/-- The member takes the one at an address for the leader of the term. -/
def Seat.Knows (s : Seat) (key leader : String) : Prop :=
  ∃ leaders, s.program.facts.get s.member.leaders = .ok leaders ∧ leaders.get? key = some ⟨leader⟩

/-- The member follows elected members, and what waits for it comes from such members. -/
structure Seat.Loyal (elected : Elected) (s : Seat) : Prop where
  follows : ∀ σ, Reads s.program.id s.program.store σ → Follows elected s.program.addr σ
  pending : ∀ d ∈ s.program.pending, Proper elected d

variable {quorum : Nat} {known : Ballots} {s s' : Seat} {p : Program} {σ τ : State}
  {key leader : String}

theorem Seat.Loyal.mono {elected elected' : Elected} (h : s.Loyal elected)
    (hknown : ∀ key leader, elected key leader → elected' key leader) : s.Loyal elected' where
  follows σ hσ := (h.follows σ hσ).mono hknown
  pending d hd := (h.pending d hd).mono hknown

theorem Seat.Good.knows_iff (h : s.Good quorum known σ) :
    s.Knows key leader ↔ (σ .leaders).get? key = some ⟨leader⟩ := by
  have hleaders : s.program.facts.get s.member.leaders = .ok (σ .leaders) := by
    rw [h.member]
    exact h.reads .leaders
  unfold Seat.Knows
  rw [hleaders]
  constructor
  · rintro ⟨leaders, heq, hkey⟩
    cases heq
    exact hkey
  · exact fun hkey => ⟨_, rfl, hkey⟩

/-- The leader of the current term is the one that the member knows of. -/
theorem Seat.knows_of_leader (h : s.member.leader s.program = .ok (some leader)) :
    ∃ term, s.member.termOf s.program = .ok term ∧ s.Knows (termKey term) leader := by
  obtain ⟨term, hterm, h⟩ := bind_eq_ok.1 h
  obtain ⟨leaders, hleaders, heq⟩ := bind_eq_ok.1 h
  obtain ⟨⟨_⟩, hkey, rfl⟩ := Option.map_eq_some_iff.1 (Except.ok.inj heq)
  exact ⟨term, hterm, leaders, hleaders, hkey⟩

/-- A member that was just declared knows of no leader. -/
theorem Seat.Loyal.of_fresh {elected : Elected} (h : s.Fresh) : s.Loyal elected := by
  obtain ⟨member, program, told⟩ := s
  obtain ⟨rfl, scope, id, addr, limit, hdeclare⟩ := h
  rw [runOn_declare] at hdeclare
  cases hdeclare
  refine ⟨fun σ hσ => ?_, nofun⟩
  obtain rfl := hσ.unique reads_memberSlots
  exact ⟨nofun, nofun⟩

/-- A message that is received is queued as it is. -/
theorem exists_depositNext_of_receive {m : Message} (hp : s.receive? m = some p) :
    ∃ id write, s.program.depositNext id write = .ok p ∧
      ∀ request ∈ write.factsOf (.message .appendRequest), m = ⟨.appendRequest, request⟩ := by
  unfold Seat.receive? at hp
  split at hp
  · obtain ⟨channel, _, hp⟩ := Option.bind_eq_some_iff.1 hp
    refine ⟨channel.id, _, toOption_eq_some.1 hp, ?_⟩
    intro request hrequest
    obtain ⟨type, content⟩ := m
    cases type
    case appendRequest => rw [List.mem_singleton.1 hrequest]
    all_goals cases hrequest
  · cases hp

/-! ## Worlds -/

/-- The members that have won, by term and address. -/
def World.elected (w : World) : Elected := fun key leader =>
  ∃ s ∈ w.seats, s.program.addr = leader ∧ s.Won key

/-- Members follow elected members, and only such members send messages as leaders. -/
structure World.Loyal (w : World) : Prop where
  seats : ∀ s ∈ w.seats, s.Loyal w.elected
  sent : ∀ request, ⟨.appendRequest, request⟩ ∈ w.sent → Legitimate w.elected request

namespace World

variable {w w' : World} {place : Nat} {sent : List Message}

/-- What can happen to one of the members: something is queued, and a message of a leader only if it
was sent, it is told about peers at once, or it ticks. -/
theorem perform_cases {event : Event} (h : w.perform event = some w') :
    ∃ place s, w.seats[place]? = some s ∧
      ((∃ id write told p, s.program.depositNext id write = .ok p ∧
          (∀ request ∈ write.factsOf (.message .appendRequest),
            ⟨.appendRequest, request⟩ ∈ w.sent) ∧
          w' = w.put place { s with program := p, told := told } []) ∨
        (∃ write told p grew, s.program.depositNow s.member.peers.id write = .ok (p, grew) ∧
          w' = w.put place { s with program := p, told := told } []) ∨
        ∃ patience p result, s.program.tick patience = .ok (p, result) ∧
          w' = w.put place { s with program := p } (p.pending.filterMap messageOf?)) := by
  cases event with
  | introduce place timing peers =>
      obtain ⟨s, hs, h⟩ := Option.bind_eq_some_iff.1 h
      obtain ⟨p, hp, heq⟩ := Option.bind_eq_some_iff.1 h
      cases heq
      refine ⟨place, s, hs, ?_⟩
      have hp := toOption_eq_some.1 hp
      cases timing with
      | sameTick =>
          obtain ⟨⟨_, grew⟩, hdeposit, heq⟩ := bind_eq_ok.1 hp
          cases heq
          exact .inr (.inl ⟨_, _, _, grew, hdeposit, rfl⟩)
      | nextTick =>
          refine .inl ⟨_, _, _, _, hp, fun request hrequest => ?_, rfl⟩
          cases peers <;> cases hrequest
  | timeout place =>
      obtain ⟨s, hs, h⟩ := Option.bind_eq_some_iff.1 h
      obtain ⟨p, hp, heq⟩ := Option.bind_eq_some_iff.1 h
      cases heq
      exact ⟨place, s, hs, .inl ⟨_, _, s.told, _, toOption_eq_some.1 hp, nofun, rfl⟩⟩
  | deliver place message =>
      obtain ⟨s, hs, h⟩ := Option.bind_eq_some_iff.1 h
      obtain ⟨m, hm, h⟩ := Option.bind_eq_some_iff.1 h
      obtain ⟨p, hp, heq⟩ := Option.bind_eq_some_iff.1 h
      cases heq
      obtain ⟨id, write, hdeposit, hrequest⟩ := exists_depositNext_of_receive hp
      refine ⟨place, s, hs, .inl ⟨id, write, s.told, p, hdeposit, fun request hmem => ?_, rfl⟩⟩
      rw [← hrequest request hmem]
      exact List.mem_of_getElem? hm
  | tick place patience =>
      obtain ⟨s, hs, h⟩ := Option.bind_eq_some_iff.1 h
      split at h
      · obtain ⟨⟨p, result⟩, htick, heq⟩ := Option.bind_eq_some_iff.1 h
        cases heq
        exact ⟨place, s, hs, .inr (.inr ⟨patience, p, result, toOption_eq_some.1 htick, rfl⟩)⟩
      · cases h

/-- Nobody who has won is forgotten. -/
theorem elected_put (hs : w.seats[place]? = some s) (haddr : s'.program.addr = s.program.addr)
    (hkept : ∀ key, s.Won key → s'.Won key) (h : w.elected key leader) :
    (w.put place s' sent).elected key leader := by
  obtain ⟨t, ht, rfl, hwon⟩ := h
  obtain ⟨i, hi⟩ := List.mem_iff_getElem?.1 ht
  by_cases hplace : place = i
  · subst hplace
    obtain rfl := Option.some.inj (hs.symm.trans hi)
    exact ⟨s', List.mem_set (List.getElem?_eq_some_iff.1 hs).1 s', haddr, hkept key hwon⟩
  · have hi' : (w.seats.set place s')[i]? = some t := (List.getElem?_set_ne hplace).trans hi
    exact ⟨t, List.mem_of_getElem? hi', rfl, hwon⟩

/-- A world stays loyal when one of its members stays loyal and has not lost what it won. -/
theorem Loyal.put {elected : Elected} (hw : w.Loyal) (hs : w.seats[place]? = some s)
    (haddr : s'.program.addr = s.program.addr) (hkept : ∀ key, s.Won key → s'.Won key)
    (hseat : s'.Loyal elected)
    (hsent : ∀ request, ⟨.appendRequest, request⟩ ∈ sent → Legitimate elected request)
    (hknown : ∀ key leader, elected key leader → (w.put place s' sent).elected key leader) :
    (w.put place s' sent).Loyal where
  seats t ht := by
    rcases List.mem_or_eq_of_mem_set ht with ht | rfl
    · exact (hw.seats t ht).mono fun _ _ => elected_put hs haddr hkept
    · exact hseat.mono hknown
  sent request hrequest := by
    rcases List.mem_append.1 hrequest with hrequest | hrequest
    · exact elected_put hs haddr hkept (hw.sent request hrequest)
    · exact hknown _ _ (hsent request hrequest)

/-- A world stays loyal when nobody is elected and nothing is sent. -/
theorem Loyal.put_nil (hw : w.Loyal) (hs : w.seats[place]? = some s)
    (haddr : s'.program.addr = s.program.addr) (hkept : ∀ key, s.Won key → s'.Won key)
    (hseat : s'.Loyal w.elected) : (w.put place s' []).Loyal :=
  hw.put hs haddr hkept hseat nofun fun _ _ => elected_put hs haddr hkept

theorem Loyal.depositNext {target : RelationId} {write : Write} {told : List String}
    (hw : w.Loyal) (hs : w.seats[place]? = some s)
    (hp : s.program.depositNext target write = .ok p)
    (hrequests : ∀ request ∈ write.factsOf (.message .appendRequest),
      ⟨.appendRequest, request⟩ ∈ w.sent) :
    (w.put place { s with program := p, told := told } []).Loyal := by
  obtain ⟨_, _, heq⟩ := bind_eq_ok.1 hp
  cases heq
  have hseat := hw.seats s (List.mem_of_getElem? hs)
  refine hw.put_nil hs rfl (fun _ => id) ⟨hseat.follows, fun d hd => ?_⟩
  rcases List.mem_append.1 hd with hd | hd
  · exact hseat.pending d hd
  · obtain rfl := List.mem_singleton.1 hd
    exact fun request hrequest => hw.sent request (hrequests request hrequest)

/-- Being told about peers changes nothing about leaders. -/
theorem Loyal.introduceNow {write : Write} {told : List String} {grew : Bool}
    (hgood : w.Good) (hw : w.Loyal) (hs : w.seats[place]? = some s)
    (hp : s.program.depositNow s.member.peers.id write = .ok (p, grew)) :
    (w.put place { s with program := p, told := told } []).Loyal := by
  obtain ⟨σ, hσ⟩ := hgood.seats s (List.mem_of_getElem? hs)
  have hseat := hw.seats s (List.mem_of_getElem? hs)
  have hpeers : s.member.peers = Cell.handle s.program.id .peers := by
    rw [hσ.member]
    rfl
  rw [hpeers] at hp
  obtain ⟨_, _, hp⟩ := bind_eq_ok.1 hp
  obtain ⟨⟨store, _⟩, hdeposit, heq⟩ := bind_eq_ok.1 hp
  cases heq
  obtain ⟨peers, hreads⟩ := hσ.reads.exists_of_deposit (c := .peers) rfl hdeposit
  refine hw.put_nil hs rfl (fun key hwon => ?_) ⟨fun τ hτ => ?_, hseat.pending⟩
  · refine ⟨_, ?_, hσ.won_iff.1 hwon⟩
    rw [hσ.member]
    exact hreads .won
  · obtain rfl := hreads.unique hτ
    exact ((hseat.follows σ hσ.reads).update_other (by decide)).1

/-- A member that ticks sends messages as a leader only if it has won. -/
theorem Loyal.tick {patience : Nat} {result : Except ProgramError TickReport} (hgood : w.Good)
    (hw : w.Loyal) (hs : w.seats[place]? = some s)
    (htick : s.program.tick patience = .ok (p, result))
    (hgood' : (w.put place { s with program := p } (p.pending.filterMap messageOf?)).Good) :
    (w.put place { s with program := p } (p.pending.filterMap messageOf?)).Loyal := by
  obtain ⟨σ, hσ⟩ := hgood.seats s (List.mem_of_getElem? hs)
  have hseat := hw.seats s (List.mem_of_getElem? hs)
  have hplace : { s with program := p } ∈ w.seats.set place { s with program := p } :=
    List.mem_set (List.getElem?_eq_some_iff.1 hs).1 _
  obtain ⟨τ, hτ⟩ := hgood'.seats _ hplace
  have haddr := (Program.sameSetup_of_tick htick).addr_eq
  obtain ⟨scope, hrules, hshape⟩ := hσ.setup
  obtain ⟨hfollows, hwins, hproper⟩ := follows_of_tick hrules hshape hσ.reads
    (hseat.follows σ hσ.reads) hσ.pending hseat.pending htick hτ.reads (haddr ▸ hτ.sound)
  have hkept : ∀ key, s.Won key → Seat.Won { s with program := p } key :=
    fun key hwon => hτ.won_iff.2 (hwins key (hσ.won_iff.1 hwon))
  -- whoever is crowned at the end of the tick is known to be elected from then on
  refine hw.put hs haddr hkept ⟨fun υ hυ => ?_, hproper⟩ (fun request hrequest => ?_) ?_
  · obtain rfl := hτ.reads.unique hυ
    rw [haddr]
    exact hfollows.mono fun _ _ => .inl
  · obtain ⟨d, hd, hmessage⟩ := List.mem_filterMap.1 hrequest
    exact hproper d hd request (mem_factsOf_of_messageOf hmessage)
  · rintro key leader (hknown | ⟨rfl, hwon⟩)
    · exact elected_put hs haddr hkept hknown
    · exact ⟨_, hplace, haddr, hτ.won_iff.2 hwon⟩

/-- A world stays loyal in every event. -/
theorem Loyal.perform {event : Event} (hgood : w.Good) (hgood' : w'.Good) (hw : w.Loyal)
    (h : w.perform event = some w') : w'.Loyal := by
  obtain ⟨place, s, hs, ⟨_, _, _, p, hp, hrequests, rfl⟩ | ⟨_, _, p, _, hp, rfl⟩ |
    ⟨_, p, _, htick, rfl⟩⟩ := perform_cases h
  · exact hw.depositNext hs hp hrequests
  · exact hw.introduceNow hgood hs hp
  · exact hw.tick hgood hs htick hgood'

/-! ## Runs -/

theorem Loyal.run {events : List Event} (hgood : w.Good) (hnodup : w.addrs.Nodup) (hw : w.Loyal)
    (h : w.run events = some w') : w'.Loyal := by
  induction events generalizing w with
  | nil =>
      cases h
      exact hw
  | cons event events ih =>
      obtain ⟨v, hv, h⟩ := Option.bind_eq_some_iff.1 h
      obtain ⟨hgood', haddrs⟩ := hgood.perform hnodup hv
      exact ih hgood' (haddrs ▸ hnodup) (hw.perform hgood hgood' hv) h

theorem Initial.loyal (hw : w.Initial) : w.Loyal where
  seats s hs := .of_fresh (hw.fresh s hs)
  sent request hrequest := by
    rw [hw.sent] at hrequest
    cases hrequest

/-! ## Leaders -/

/-- Whom a member of a loyal world takes for a leader has won the term. -/
theorem Loyal.elected_of_knows (hgood : w.Good) (hw : w.Loyal) (hs : s ∈ w.seats)
    (hknows : s.Knows key leader) : w.elected key leader := by
  obtain ⟨σ, hσ⟩ := hgood.seats s hs
  rcases ((hw.seats s hs).follows σ hσ.reads).leaders key leader (hσ.knows_iff.1 hknows) with
    helected | ⟨rfl, hwon⟩
  · exact helected
  · exact ⟨s, hs, rfl, hσ.won_iff.2 hwon⟩

/-- In every world that a run leads to, whom a member takes for the leader of a term is a member
that has won it, no two members take different ones for the leader of a term, and the one that a
member names as the leader of its current term was elected with the votes of a majority. -/
theorem run_leaderAgreement {events : List Event} (hw : w.Initial) (h : w.run events = some w') :
    (∀ s ∈ w'.seats, ∀ key leader, s.Knows key leader →
        ∃ winner ∈ w'.seats, winner.program.addr = leader ∧ winner.Won key) ∧
      (∀ s ∈ w'.seats, ∀ s' ∈ w'.seats, ∀ key leader leader', s.Knows key leader →
        s'.Knows key leader' → leader = leader') ∧
      ∀ s ∈ w'.seats, ∀ leader, s.member.leader s.program = .ok (some leader) →
        ∃ term, s.member.termOf s.program = .ok term ∧ ∃ votes : GrowSet String,
          w'.addrs.length / 2 + 1 ≤ votes.size ∧
            ∀ voter ∈ votes, w'.ballots voter (termKey term) leader := by
  obtain ⟨hgood, haddrs⟩ := hw.good.run hw.nodup h
  have hnodup : w'.addrs.Nodup := haddrs ▸ hw.nodup
  have hloyal : w'.Loyal := hw.loyal.run hw.good hw.nodup h
  refine ⟨fun s hs key leader => hloyal.elected_of_knows hgood hs, ?_, ?_⟩
  · intro s hs s' hs' key leader leader' hknows hknows'
    obtain ⟨winner, hwinner, rfl, hwon⟩ := hloyal.elected_of_knows hgood hs hknows
    obtain ⟨winner', hwinner', rfl, hwon'⟩ := hloyal.elected_of_knows hgood hs' hknows'
    exact hgood.addr_eq_of_won hnodup hwinner hwinner' hwon hwon'
  · intro s hs leader hleader
    obtain ⟨term, hterm, hknows⟩ := Seat.knows_of_leader hleader
    obtain ⟨winner, hwinner, rfl, hwon⟩ := hloyal.elected_of_knows hgood hs hknows
    exact ⟨term, hterm, hgood.exists_votes hwinner hwon⟩

/-- The election of `trio`, and the second member hears from the leader. -/
def trioReign : List Event := trioElection ++ [.deliver 1 3, .tick 1 9]

theorem run_leaderAgreement_trio : ∃ w s s', trio.run trioReign = some w ∧
    w.seats[0]? = some s ∧ w.seats[1]? = some s' ∧
    s.member.leader s.program = .ok (some "a") ∧ s'.member.leader s'.program = .ok (some "a") ∧
    ∃ term, s'.member.termOf s'.program = .ok term ∧ ∃ votes : GrowSet String,
      2 ≤ votes.size ∧ ∀ voter ∈ votes, w.ballots voter (termKey term) "a" := by
  have hleader : (trio.run trioReign).any (fun w =>
      (w.seats[0]?.any fun s => (s.member.leader s.program).toOption == some (some "a")) &&
        w.seats[1]?.any fun s => (s.member.leader s.program).toOption == some (some "a")) =
      true := by
    decide +kernel
  obtain ⟨w, hw, hleader⟩ := (Option.any_eq_true _ _).1 hleader
  obtain ⟨hfirst, hsecond⟩ := Bool.and_eq_true_iff.1 hleader
  obtain ⟨s, hs, hfirst⟩ := (Option.any_eq_true _ _).1 hfirst
  obtain ⟨s', hs', hsecond⟩ := (Option.any_eq_true _ _).1 hsecond
  have hnamed := toOption_eq_some.1 (beq_iff_eq.1 hsecond)
  obtain ⟨_, haddrs⟩ := initial_trio.good.run initial_trio.nodup hw
  obtain ⟨_, _, hvotes⟩ := run_leaderAgreement initial_trio hw
  have hmajority := hvotes s' (List.mem_of_getElem? hs') "a" hnamed
  rw [haddrs] at hmajority
  exact ⟨w, s, s', hw, hs, hs', toOption_eq_some.1 (beq_iff_eq.1 hfirst), hnamed, hmajority⟩

end World

end Ratchet.Election

import Ratchet.Proofs.KeyValue.History
import Ratchet.Proofs.KeyValue.World

/-!
# Replicas converge

Whatever is delivered to a replica, in which order and how often, its map has the joins of the puts
that it has heard of, provided that the puts under one key can be merged with each other.

The invariant says for a replica that its map gathers its history, and for a shipped snapshot that
it gathers the history that was shipped with it.  What happens between two ticks is kept in
balance: every incoming write is covered by the history together with what arrives, and everything
that arrives is below some incoming write.

That is enough for a tick.  The map that gathers the history and what arrives is there, as the puts
are mergeable.  It holds all incoming writes, so none of them is dropped and the new map stays
below it.  The new map holds everything that it gathers, so it is not below it strictly.

## Main results

* `World.run_converges`: maps gather histories, and replicas with equal histories have equal maps.
-/

namespace Ratchet.KeyValue

open Ratchet.Lattice

variable {s s' : Seat} {w w' : World} {event : Event} {known puts : List Put}
  {stored M : StringMap Dynamic} {key : String} {value : Dynamic} {patience : Nat}

/-! ## The invariant -/

/-- Every map that holds the puts holds the value. -/
def Covered (puts : List Put) (key : String) (value : Dynamic) : Prop :=
  ∀ M, HoldsAll M puts → Holds M key value

theorem Covered.mono {others : List Put} (h : Covered puts key value)
    (hsub : ∀ put ∈ puts, put ∈ others) : Covered others key value :=
  fun M hM => h M fun put hput => hM put (hsub put hput)

theorem covered_of_mem {put : Put} (h : put ∈ puts) : Covered puts put.key put.value :=
  fun _ hM => hM put h

/-- A map that gathers puts has only values that they cover. -/
theorem Gathers.covered (h : Gathers M puts) (hvalue : M.get? key = some value) :
    Covered puts key value :=
  fun _ hN => (holds_self hvalue).of_below (h.below hN)

/-- The map of the replica gathers what it has heard of, and what waits for it is what it is going
to hear of. -/
structure Seat.Sound (known : List Put) (s : Seat) : Prop where
  exists_stored : ∃ stored, s.replica.Stores s.program stored ∧ Gathers stored s.history
  covered : ∀ key value, s.replica.Incoming s.program key value →
    Covered (s.history ++ s.arriving) key value
  incoming : ∀ put ∈ s.arriving, ∃ value,
    s.replica.Incoming s.program put.key value ∧ Below put.value value
  known : ∀ put ∈ s.history ++ s.arriving, put ∈ known

/-- The snapshot gathers what its sender had heard of. -/
structure Shipment.Sound (known : List Put) (shipment : Shipment) : Prop where
  gathers : Gathers shipment.snapshot.map shipment.history
  known : ∀ put ∈ shipment.history, put ∈ known

/-- All replicas and all shipped snapshots are sound. -/
structure World.Sound (known : List Put) (w : World) : Prop where
  seats : ∀ s ∈ w.seats, s.Sound known
  shipped : ∀ x ∈ w.shipped, x.Sound known

/-! ## What an event preserves -/

/-- A message that is sent to a replica brings in writes, if it is addressed to it.  If they are
covered by the puts that it tells, and these by them, then the replica stays sound. -/
theorem Seat.Sound.receive {f : FactType} {channel : Handle (.set f)} {message : f.Carrier}
    {addr : String} (hs : s.Sound known) (brings : String → Dynamic → Prop)
    (hchannel : channel.Declared s.program.id s.program.store)
    (hincoming : ∀ q, s.program.send channel message = .ok q → ∀ key value,
      s.replica.Incoming q key value ↔
        s.replica.Incoming s.program key value ∨ (addr = s.program.addr ∧ brings key value))
    (hcovered : ∀ key value, brings key value → Covered puts key value)
    (hputs : ∀ put ∈ puts, ∃ value, brings put.key value ∧ Below put.value value)
    (hknown : ∀ put ∈ puts, put ∈ known)
    (h : s.receive channel message addr puts = some s') : s'.Sound known := by
  obtain ⟨q, hsend, heq⟩ := Option.bind_eq_some_iff.1 h
  cases heq
  have hsend := toOption_eq_some.1 hsend
  have hincoming := hincoming q hsend
  obtain ⟨stored, hstores, hgathers⟩ := hs.exists_stored
  have hheard : ∀ put, put ∈ (if addr = s.program.addr then puts else []) ↔
      addr = s.program.addr ∧ put ∈ puts := by
    intro put
    split <;> simp [*]
  refine ⟨⟨stored, hstores.of_send hchannel hsend, hgathers⟩, ?_, ?_, ?_⟩
  · intro key value hwrite
    rcases (hincoming key value).1 hwrite with hwrite | ⟨haddr, hbrings⟩
    · refine (hs.covered key value hwrite).mono fun put hput => ?_
      rw [← List.append_assoc]
      exact List.mem_append_left _ hput
    · refine (hcovered key value hbrings).mono fun put hput => ?_
      exact List.mem_append_right _ (List.mem_append_right _ ((hheard put).2 ⟨haddr, hput⟩))
  · intro put hput
    rcases List.mem_append.1 hput with hput | hput
    · obtain ⟨value, hwrite, hbelow⟩ := hs.incoming put hput
      exact ⟨value, (hincoming put.key value).2 (.inl hwrite), hbelow⟩
    · obtain ⟨haddr, hput⟩ := (hheard put).1 hput
      obtain ⟨value, hbrings, hbelow⟩ := hputs put hput
      exact ⟨value, (hincoming put.key value).2 (.inr ⟨haddr, hbrings⟩), hbelow⟩
  · intro put hput
    rw [← List.append_assoc] at hput
    rcases List.mem_append.1 hput with hput | hput
    · exact hs.known put hput
    · exact hknown put ((hheard put).1 hput).2

/-- A tick makes of the incoming writes what gathers the history and all that arrived. -/
theorem Seat.Sound.gathers_fold {writes : List (String × Dynamic)} (hs : s.Sound known)
    (hmergeable : Mergeable known) (hgathers : Gathers stored s.history)
    (hwrites : ∀ key value, (key, value) ∈ writes ↔ s.replica.Incoming s.program key value) :
    Gathers (fold stored writes) (s.history ++ s.arriving) := by
  have hmergeable : Mergeable (s.history ++ s.arriving) :=
    fun a ha b hb => hmergeable a (hs.known a ha) b (hs.known b hb)
  obtain ⟨M, hM⟩ := exists_gathers hmergeable
  have hstored : Below stored M :=
    hgathers.below fun put hput => hM.holdsAll put (List.mem_append_left _ hput)
  have hholds : ∀ w ∈ writes, Holds M w.1 w.2 :=
    fun w hw => hs.covered w.1 w.2 ((hwrites w.1 w.2).1 hw) M hM.holdsAll
  obtain ⟨hbelow, hheld⟩ := fold_spec hstored hholds
  have habove : Below M (fold stored writes) := by
    apply hM.below
    intro put hput
    rcases List.mem_append.1 hput with hput | hput
    · exact (hgathers.holdsAll put hput).of_below below_fold
    · obtain ⟨value, hwrite, hvalue⟩ := hs.incoming put hput
      exact (hheld (put.key, value) ((hwrites put.key value).2 hwrite)).trans hvalue
  rwa [hbelow.antisymm habove]

theorem Seat.Sound.tick (hs : s.Sound known) (hmergeable : Mergeable known)
    (h : s.tick patience = some s') :
    s'.Sound known ∧ ∀ x ∈ s'.shipments, x.Sound known := by
  unfold Seat.tick at h
  split at h
  · cases h
  · next hlimit =>
      obtain ⟨⟨q, result⟩, htick, heq⟩ := Option.bind_eq_some_iff.1 h
      cases heq
      obtain ⟨stored, hstores, hgathers⟩ := hs.exists_stored
      obtain ⟨writes, hwrites, hstores', hnone, hshipped⟩ :=
        hstores.exists_of_tick hlimit (toOption_eq_some.1 htick)
      have hgathers' := hs.gathers_fold hmergeable hgathers hwrites
      refine ⟨⟨⟨_, hstores', hgathers'⟩, ?_, nofun, ?_⟩, ?_⟩
      · -- all that can be incoming already is a snapshot that the replica has sent to itself
        rintro key value (⟨put, hput, _⟩ | ⟨snapshot, hsnapshot, _, hvalue⟩)
        · dsimp only at hput
          rw [hnone] at hput
          cases hput
        · rw [hshipped snapshot hsnapshot] at hvalue
          exact (hgathers'.covered hvalue).mono fun put hput => List.mem_append_left _ hput
      · dsimp only
        rw [List.append_nil]
        exact hs.known
      · intro x hx
        obtain ⟨snapshot, hsnapshot, rfl⟩ := List.mem_map.1 hx
        refine ⟨?_, hs.known⟩
        rw [hshipped snapshot hsnapshot]
        exact hgathers'

namespace World

theorem Sound.update {place : Nat} {shipped : List Shipment} (hw : w.Sound known)
    (hs : s.Sound known) (hshipped : ∀ x ∈ shipped, x.Sound known) :
    (w.update place s shipped).Sound known where
  seats := by
    intro t ht
    rcases List.mem_or_eq_of_mem_set ht with ht | rfl
    · exact hw.seats t ht
    · exact hs
  shipped := by
    intro x hx
    rcases List.mem_append.1 hx with hx | hx
    · exact hw.shipped x hx
    · exact hshipped x hx

theorem Sound.serves {place : Nat} (hw : w.Sound known) (hs : w.seats[place]? = some s) :
    s.Sound known ∧ s.replica.Serves s.program := by
  have hsound := hw.seats s (List.mem_of_getElem? hs)
  obtain ⟨_, hstores, _⟩ := hsound.exists_stored
  exact ⟨hsound, hstores.serves⟩

theorem Sound.perform (hw : w.Sound known) (hmergeable : Mergeable known)
    (hknown : ∀ put, event.put? = some put → put ∈ known) (h : w.perform event = some w') :
    w'.Sound known := by
  cases event with
  | put place put =>
      obtain ⟨s, hs, h⟩ := Option.bind_eq_some_iff.1 h
      obtain ⟨s', hs', heq⟩ := Option.bind_eq_some_iff.1 h
      cases heq
      obtain ⟨hsound, hserves⟩ := hw.serves hs
      refine hw.update (hsound.receive (fun key value => put.key = key ∧ put.value = value)
        hserves.declared.1 (fun q hsend _ _ => SyncReplica.incoming_of_sendPut hserves hsend)
        ?_ ?_ ?_ hs') (List.forall_mem_nil _)
      · rintro _ _ ⟨rfl, rfl⟩
        exact covered_of_mem List.mem_cons_self
      · exact List.forall_mem_singleton.2 ⟨put.value, ⟨rfl, rfl⟩, below_refl _⟩
      · exact List.forall_mem_singleton.2 (hknown put rfl)
  | request place request =>
      obtain ⟨s, hs, h⟩ := Option.bind_eq_some_iff.1 h
      obtain ⟨s', hs', heq⟩ := Option.bind_eq_some_iff.1 h
      cases heq
      obtain ⟨hsound, hserves⟩ := hw.serves hs
      refine hw.update (hsound.receive (fun _ _ => False) hserves.declared.2.1
        (fun q hsend key value => ?_) (fun _ _ => False.elim) (List.forall_mem_nil _)
        (List.forall_mem_nil _) hs') (List.forall_mem_nil _)
      rw [SyncReplica.incoming_of_sendRequest hserves hsend, and_false, or_false]
  | deliver place shipment =>
      obtain ⟨s, hs, h⟩ := Option.bind_eq_some_iff.1 h
      obtain ⟨x, hx, h⟩ := Option.bind_eq_some_iff.1 h
      obtain ⟨s', hs', heq⟩ := Option.bind_eq_some_iff.1 h
      cases heq
      obtain ⟨hsound, hserves⟩ := hw.serves hs
      have hshipped := hw.shipped x (List.mem_of_getElem? hx)
      exact hw.update (hsound.receive (fun key value => x.snapshot.map.get? key = some value)
        hserves.declared.2.2 (fun q hsend _ _ => SyncReplica.incoming_of_sendSnapshot hserves hsend)
        (fun _ _ => hshipped.gathers.covered) hshipped.gathers.holdsAll hshipped.known hs')
        (List.forall_mem_nil _)
  | tick place patience =>
      obtain ⟨s, hs, h⟩ := Option.bind_eq_some_iff.1 h
      obtain ⟨s', hs', heq⟩ := Option.bind_eq_some_iff.1 h
      cases heq
      obtain ⟨hsound, hshipments⟩ := (hw.serves hs).1.tick hmergeable hs'
      exact hw.update hsound hshipments

/-- What a run preserves. -/
theorem Sound.run {events : List Event} (hw : w.Sound known) (hmergeable : Mergeable known)
    (hknown : ∀ event ∈ events, ∀ put, event.put? = some put → put ∈ known)
    (h : w.run events = some w') : w'.Sound known := by
  induction events generalizing w with
  | nil =>
      cases h
      exact hw
  | cons event events ih =>
      obtain ⟨w₁, hperform, hrun⟩ := Option.bind_eq_some_iff.1 h
      obtain ⟨hevent, hevents⟩ := List.forall_mem_cons.1 hknown
      exact ih (hw.perform hmergeable hevent hperform) hevents hrun

end World

/-! ## What an event needs -/

theorem Seat.exists_receive {f : FactType} {channel : Handle (.set f)} {message : f.Carrier}
    {addr : String} (hchannel : channel.Declared s.program.id s.program.store) :
    ∃ s', s.receive channel message addr puts = some s' :=
  ⟨_, Option.bind_eq_some_iff.2
    ⟨_, toOption_eq_some.2 ((Program.send_eq_ok hchannel).2 rfl), rfl⟩⟩

namespace World

/-- There is a replica at the place of the event, a shipped snapshot if one is delivered, and a tick
has the passes that it may need. -/
def Offers (w : World) : Event → Prop
  | .put place _ => place < w.seats.length
  | .request place _ => place < w.seats.length
  | .deliver place shipment => place < w.seats.length ∧ shipment < w.shipped.length
  | .tick place patience => 2 ≤ patience ∧
      ∃ s, w.seats[place]? = some s ∧ s.program.passLimit ≠ some 0

theorem Sound.exists_perform (hw : w.Sound known) (h : w.Offers event) :
    ∃ w', w.perform event = some w' := by
  have hseats : ∀ {place}, place < w.seats.length → ∃ s, w.seats[place]? = some s ∧
      s.replica.Serves s.program := fun hplace =>
    ⟨_, List.getElem?_eq_getElem hplace, (hw.serves (List.getElem?_eq_getElem hplace)).2⟩
  cases event with
  | put place put =>
      obtain ⟨s, hs, hserves⟩ := hseats h
      obtain ⟨s', hs'⟩ := Seat.exists_receive hserves.declared.1
      exact ⟨_, Option.bind_eq_some_iff.2 ⟨s, hs, Option.bind_eq_some_iff.2 ⟨s', hs', rfl⟩⟩⟩
  | request place request =>
      obtain ⟨s, hs, hserves⟩ := hseats h
      obtain ⟨s', hs'⟩ := Seat.exists_receive hserves.declared.2.1
      exact ⟨_, Option.bind_eq_some_iff.2 ⟨s, hs, Option.bind_eq_some_iff.2 ⟨s', hs', rfl⟩⟩⟩
  | deliver place shipment =>
      obtain ⟨hplace, hshipment⟩ := h
      obtain ⟨s, hs, hserves⟩ := hseats hplace
      obtain ⟨s', hs'⟩ := Seat.exists_receive hserves.declared.2.2
      exact ⟨_, Option.bind_eq_some_iff.2 ⟨s, hs, Option.bind_eq_some_iff.2
        ⟨_, List.getElem?_eq_getElem hshipment, Option.bind_eq_some_iff.2 ⟨s', hs', rfl⟩⟩⟩⟩
  | tick place patience =>
      obtain ⟨hpatience, s, hs, hlimit⟩ := h
      obtain ⟨_, hstores, _⟩ := (hw.seats s (List.mem_of_getElem? hs)).exists_stored
      obtain ⟨q, result, htick⟩ := hstores.exists_tick hpatience hlimit
      have hs' : s.tick patience = some
          { s with program := q, history := s.history ++ s.arriving, arriving := [] } := by
        rw [Seat.tick, if_neg hlimit, htick]
        rfl
      exact ⟨_, Option.bind_eq_some_iff.2 ⟨s, hs, Option.bind_eq_some_iff.2 ⟨_, hs', rfl⟩⟩⟩

end World

/-! ## Runs -/

theorem Seat.Fresh.sound (h : s.Fresh) : s.Sound known := by
  obtain ⟨hhistory, harriving, scope, id, addr, limit, hdeclare⟩ := h
  obtain ⟨hstores, hpending⟩ := SyncReplica.stores_declared hdeclare
  have hnone : ∀ {f : FactType} (h : Handle (.set f)), s.program.waiting h = [] := by
    intro f h
    rw [Program.waiting, hpending]
    rfl
  refine ⟨⟨.empty, hstores, ?_⟩, ?_, ?_, ?_⟩
  · rw [hhistory]
    exact fun _ => rfl
  · rintro key value (⟨_, hput, _⟩ | ⟨_, hsnapshot, _⟩)
    · rw [hnone] at hput
      cases hput
    · rw [hnone] at hsnapshot
      cases hsnapshot
  · rw [harriving]
    exact List.forall_mem_nil _
  · rw [hhistory, harriving]
    exact List.forall_mem_nil _

namespace World

theorem Initial.sound (hw : w.Initial) : w.Sound known where
  seats := fun s hs => (hw.fresh s hs).sound
  shipped := by
    rw [hw.shipped]
    nofun

/-- If the puts of a run can be merged with each other under every key, then in the world that the
run leads to every key of every replica has the join of the values that were put under it, as far
as the replica has heard of these puts.  Replicas that have heard of the same puts have the same
map.  No event of such a world breaks off. -/
theorem run_converges {events : List Event} (hw : w.Initial)
    (hmergeable : Mergeable (events.filterMap Event.put?)) (h : w.run events = some w') :
    (∀ s ∈ w'.seats, ∀ key, ∃ value, s.replica.replica.value s.program key = .ok value ∧
      joinAll (valuesAt key s.history) = .ok value) ∧
    (∀ s ∈ w'.seats, ∀ s' ∈ w'.seats, (∀ put, put ∈ s.history ↔ put ∈ s'.history) →
      s.program.facts.get s.replica.replica.map =
        s'.program.facts.get s'.replica.replica.map) ∧
    ∀ event, w'.Offers event → ∃ w'', w'.perform event = some w'' := by
  have hsound := hw.sound.run hmergeable (fun event hevent put hput =>
    List.mem_filterMap.2 ⟨event, hevent, hput⟩) h
  refine ⟨?_, ?_, fun _ => hsound.exists_perform⟩
  · intro s hs key
    obtain ⟨stored, hstores, hgathers⟩ := (hsound.seats s hs).exists_stored
    refine ⟨stored.get? key, ?_, hgathers key⟩
    rw [Replica.value, hstores.get_map]
    rfl
  · intro s hs s' hs' hmem
    obtain ⟨stored, hstores, hgathers⟩ := (hsound.seats s hs).exists_stored
    obtain ⟨stored', hstores', hgathers'⟩ := (hsound.seats s' hs').exists_stored
    rw [hstores.get_map, hstores'.get_map, hgathers.unique hgathers' hmem]

/-- A replica that was just declared. -/
def declared (id : Nat) (addr : String) : Seat where
  replica := syncReplicaOf id
  program := ((SyncReplica.declare "").runOn (.create id addr none)).2
  history := []
  arriving := []

/-- Two replicas that were just declared. -/
def pair : World where
  seats := [declared 0 "a", declared 1 "b"]
  shipped := []

theorem initial_pair : pair.Initial where
  fresh := by
    simp only [pair, List.forall_mem_cons]
    have hfresh : ∀ id addr, (declared id addr).Fresh := fun id addr =>
      ⟨rfl, rfl, "", id, addr, none, by rw [declared, SyncReplica.runOn_declare]⟩
    exact ⟨hfresh 0 "a", hfresh 1 "b", nofun⟩
  shipped := rfl

/-- Both replicas store something under a common key and send each other what they have.  The second
one gets its snapshot twice, in different ticks, and the first one gets two copies in one tick. -/
def gossip : List Event :=
  [.put 0 ⟨1, "a", "c", "common", .ofSet (.singleton "x")⟩,
    .put 1 ⟨2, "b", "c", "common", .ofSet (.singleton "y")⟩,
    .put 1 ⟨3, "b", "c", "other", .ofMaxInt ⟨5⟩⟩, .tick 0 2, .tick 1 2,
    .request 0 ⟨"a", "b"⟩, .request 1 ⟨"b", "a"⟩, .tick 0 2, .tick 1 2,
    .deliver 1 0, .tick 1 2, .deliver 1 0, .deliver 0 1, .deliver 0 1, .tick 0 2, .tick 1 2]

theorem run_converges_pair : ∃ w s s', pair.run gossip = some w ∧
    w.seats[0]? = some s ∧ w.seats[1]? = some s' ∧ s.history.length = 5 ∧ s'.history.length = 4 ∧
    s.program.facts.get s.replica.replica.map = s'.program.facts.get s'.replica.replica.map ∧
    ∃ value, s.replica.replica.value s.program "common" = .ok value ∧
      joinAll (valuesAt "common" s.history) = .ok value := by
  have hran : (pair.run gossip).any (fun w => w.seats[0]?.any fun s => w.seats[1]?.any fun s' =>
      s.history.length = 5 ∧ s'.history.length = 4 ∧
        (∀ put ∈ s.history, put ∈ s'.history) ∧ ∀ put ∈ s'.history, put ∈ s.history) = true := by
    decide +kernel
  obtain ⟨w, hw, hran⟩ := (Option.any_eq_true _ _).1 hran
  obtain ⟨s, hs, hran⟩ := (Option.any_eq_true _ _).1 hran
  obtain ⟨s', hs', hran⟩ := (Option.any_eq_true _ _).1 hran
  obtain ⟨hlength, hlength', hsub, hsub'⟩ := of_decide_eq_true hran
  obtain ⟨hvalues, hequal, _⟩ := run_converges initial_pair (by decide +kernel) hw
  exact ⟨w, s, s', hw, hs, hs', hlength, hlength',
    hequal s (List.mem_of_getElem? hs) s' (List.mem_of_getElem? hs')
      fun put => ⟨hsub put, hsub' put⟩,
    hvalues s (List.mem_of_getElem? hs) "common"⟩

end World

end Ratchet.KeyValue

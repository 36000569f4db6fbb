import Ratchet.Proofs.KeyValue.Batch
import Ratchet.Proofs.Program.Mail

/-!
# Replicas and their mail

What a replica with snapshots takes in and gives out.  Puts, requests and snapshots are sent to it
and wait for its next tick.  Of all that waits, only the puts and snapshots that are addressed to
the replica are going to reach its map.  These are its incoming writes, and sending changes them by
just what is sent (`incoming_of_sendPut`, `incoming_of_sendSnapshot`).

A tick folds the incoming writes onto the map, in some order (`Stores.exists_of_tick`).  That holds
for ticks that fail as well, if a pass was made.  Every snapshot that a tick queues is of the map
that the tick leaves.
-/

namespace Ratchet.KeyValue.SyncReplica

variable {s : SyncReplica} {p q : Program} {stored : StringMap Dynamic} {key : String}
  {value : Dynamic} {put : Put} {request : SnapshotRequest} {snapshot : Snapshot}

/-- The write is going to reach the map of the replica. -/
def Incoming (s : SyncReplica) (p : Program) (key : String) (value : Dynamic) : Prop :=
  (∃ put ∈ p.waiting s.replica.channels.put,
      put.addr = p.addr ∧ put.key = key ∧ put.value = value) ∨
    ∃ snapshot ∈ p.waiting s.snapshot,
      snapshot.addr = p.addr ∧ snapshot.map.get? key = some value

/-- The program is that of the replica, with a stored map, and nothing but messages waits for it. -/
structure Stores (s : SyncReplica) (p : Program) (stored : StringMap Dynamic) : Prop where
  serves : s.Serves p
  onlyFacts : p.OnlyFacts
  get_map : p.facts.get s.replica.map = .ok stored

/-- A replica that was just declared stores nothing, and nothing waits for it. -/
theorem stores_declared {scope here : String} {id : Nat} {limit : Option Nat}
    (h : (declare scope).runOn (.create id here limit) = (.ok s, p)) :
    s.Stores p .empty ∧ p.pending = [] := by
  obtain ⟨hs, rfl⟩ := Prod.mk.inj (runOn_declare.symm.trans h)
  cases hs
  exact ⟨⟨⟨scope, id, limit, _, runOn_declare, rfl, rfl, rfl, (Store.below_refl _).sameShape⟩,
    nofun, Facts.get_eq_ok.2 ⟨rfl, _, rfl, Slot.valueAs_eq_ok.2 ⟨rfl, rfl⟩⟩⟩, rfl⟩

/-! ## Sending -/

/-- The channels of a replica that others send to. -/
theorem Serves.declared (hs : s.Serves p) :
    s.replica.channels.put.Declared p.id p.store ∧ s.snapshotRequest.Declared p.id p.store ∧
      s.snapshot.Declared p.id p.store := by
  obtain ⟨scope, rfl, hshape, _⟩ := hs.exists_setup
  exact ⟨.of_sameShape ⟨rfl, _, rfl, rfl⟩ hshape, .of_sameShape ⟨rfl, _, rfl, rfl⟩ hshape,
    .of_sameShape ⟨rfl, _, rfl, rfl⟩ hshape⟩

theorem Stores.of_send {f : FactType} {h : Handle (.set f)} {x : f.Carrier}
    (hs : s.Stores p stored) (hh : h.Declared p.id p.store) (hsend : p.send h x = .ok q) :
    s.Stores q stored where
  serves := hs.serves.of_sameSetup (Program.sameSetup_of_depositNext hsend)
  onlyFacts := Program.onlyFacts_of_send hh hsend hs.onlyFacts
  get_map := by
    rw [(Program.send_eq_ok hh).1 hsend]
    exact hs.get_map

theorem incoming_of_sendPut (hs : s.Serves p)
    (hsend : p.send s.replica.channels.put put = .ok q) : s.Incoming q key value ↔
      s.Incoming p key value ∨ (put.addr = p.addr ∧ put.key = key ∧ put.value = value) := by
  have hput := hs.declared.1
  have hne : s.replica.channels.put.id.slot ≠ s.snapshot.id.slot := by
    obtain ⟨_, rfl, _⟩ := hs.exists_setup
    simp [syncReplicaOf, replicaOf]
  have haddr : q.addr = p.addr := (Program.sameSetup_of_depositNext hsend).addr_eq
  unfold Incoming
  rw [haddr, Program.waiting_of_send_of_ne hput hsend hne]
  simp only [Program.mem_waiting_of_send hput hsend, or_and_right, exists_or, exists_eq_left]
  rw [or_right_comm]

theorem incoming_of_sendSnapshot (hs : s.Serves p) (hsend : p.send s.snapshot snapshot = .ok q) :
    s.Incoming q key value ↔ s.Incoming p key value ∨
      (snapshot.addr = p.addr ∧ snapshot.map.get? key = some value) := by
  have hsnapshot := hs.declared.2.2
  have hne : s.snapshot.id.slot ≠ s.replica.channels.put.id.slot := by
    obtain ⟨_, rfl, _⟩ := hs.exists_setup
    simp [syncReplicaOf, replicaOf]
  have haddr : q.addr = p.addr := (Program.sameSetup_of_depositNext hsend).addr_eq
  unfold Incoming
  rw [haddr, Program.waiting_of_send_of_ne hsnapshot hsend hne]
  simp only [Program.mem_waiting_of_send hsnapshot hsend, or_and_right, exists_or, exists_eq_left]
  rw [or_assoc]

theorem incoming_of_sendRequest (hs : s.Serves p)
    (hsend : p.send s.snapshotRequest request = .ok q) :
    s.Incoming q key value ↔ s.Incoming p key value := by
  have hrequest := hs.declared.2.1
  have hne : s.snapshotRequest.id.slot ≠ s.replica.channels.put.id.slot ∧
      s.snapshotRequest.id.slot ≠ s.snapshot.id.slot := by
    obtain ⟨_, rfl, _⟩ := hs.exists_setup
    simp [syncReplicaOf, replicaOf]
  have haddr : q.addr = p.addr := (Program.sameSetup_of_depositNext hsend).addr_eq
  unfold Incoming
  rw [haddr, Program.waiting_of_send_of_ne hrequest hsend hne.1,
    Program.waiting_of_send_of_ne hrequest hsend hne.2]

/-! ## Ticks -/

/-- What stands in the relations of a replica when the passes start. -/
theorem Stores.exists_start (hs : s.Stores p stored) :
    ∃ start applied puts gets requests snapshots,
      p.store.resetScratch.depositAll p.id p.pending = .ok (start, applied) ∧
      (Facts.mk p.id start).get s.replica.map = .ok stored ∧
      (Facts.mk p.id start).get s.replica.channels.put = .ok puts ∧
      (Facts.mk p.id start).get s.replica.channels.get = .ok gets ∧
      (Facts.mk p.id start).get s.snapshotRequest = .ok requests ∧
      (Facts.mk p.id start).get s.snapshot = .ok snapshots ∧
      (∀ put, put ∈ puts ↔ put ∈ p.waiting s.replica.channels.put) ∧
      ∀ snapshot, snapshot ∈ snapshots ↔ snapshot ∈ p.waiting s.snapshot := by
  obtain ⟨start, applied, hstart⟩ := Program.exists_start hs.onlyFacts
  obtain ⟨_, puts, gets, requests, snapshots, _, hputs, hgets, hrequests, hsnapshots⟩ :=
    hs.serves.exists_get (Program.sameShape_start hstart)
  obtain ⟨hput, _, hsnapshot⟩ := hs.serves.declared
  have hresets : s.replica.map.Resets p.store false ∧
      s.replica.channels.put.Resets p.store true ∧ s.snapshot.Resets p.store true := by
    obtain ⟨scope, rfl, hshape, _⟩ := hs.serves.exists_setup
    exact ⟨.of_sameShape ⟨_, rfl, rfl⟩ hshape, .of_sameShape ⟨_, rfl, rfl⟩ hshape,
      .of_sameShape ⟨_, rfl, rfl⟩ hshape⟩
  exact ⟨start, applied, puts, gets, requests, snapshots, hstart,
    Program.get_of_start hstart hs.onlyFacts nofun hresets.1 hs.get_map, hputs, hgets, hrequests,
    hsnapshots, fun _ => Program.mem_of_start hstart hput hresets.2.1 hputs,
    fun _ => Program.mem_of_start hstart hsnapshot hresets.2.2 hsnapshots⟩

theorem mem_writes {puts : GrowSet Put} {snapshots : GrowSet Snapshot}
    (hputs : ∀ put, put ∈ puts ↔ put ∈ p.waiting s.replica.channels.put)
    (hsnapshots : ∀ snapshot, snapshot ∈ snapshots ↔ snapshot ∈ p.waiting s.snapshot)
    (key : String) (value : Dynamic) :
    (key, value) ∈ (putsFor p.addr puts).map (fun put => (put.key, put.value)) ++
        snapshotWrites p.addr snapshots.elements ↔ s.Incoming p key value := by
  rw [List.mem_append, List.mem_map]
  refine or_congr ⟨?_, ?_⟩ ⟨?_, ?_⟩
  · rintro ⟨put, hput, heq⟩
    cases heq
    obtain ⟨hmem, haddr⟩ := List.mem_filter.1 hput
    exact ⟨put, (hputs put).1 hmem, of_decide_eq_true haddr, rfl, rfl⟩
  · rintro ⟨put, hput, haddr, rfl, rfl⟩
    exact ⟨put, List.mem_filter.2 ⟨(hputs put).2 hput, decide_eq_true haddr⟩, rfl⟩
  · intro hw
    obtain ⟨snapshot, hsnapshot, hentry⟩ := List.mem_flatMap.1 hw
    obtain ⟨hmem, haddr⟩ := List.mem_filter.1 hsnapshot
    exact ⟨snapshot, (hsnapshots snapshot).1 hmem, of_decide_eq_true haddr,
      StringMap.mem_entries.1 hentry⟩
  · rintro ⟨snapshot, hsnapshot, haddr, hentry⟩
    exact List.mem_flatMap.2 ⟨snapshot, List.mem_filter.2
      ⟨(hsnapshots snapshot).2 hsnapshot, decide_eq_true haddr⟩, StringMap.mem_entries.2 hentry⟩

/-- A queued deposit is an answer to somebody, and if it is a snapshot, then it is one of
`stored`. -/
structure Answer (s : SyncReplica) (p : Program) (stored : StringMap Dynamic) (d : Deposit) :
    Prop where
  fact : ∃ (f : FactType) (h : Handle (.set f)) (x : f.Carrier),
    h.Declared p.id p.store ∧ d = ⟨h.id.slot, .add (.set f) x⟩
  not_put : d.slot ≠ s.replica.channels.put.id.slot
  snapshot : d.slot = s.snapshot.id.slot →
    ∀ snapshot ∈ d.write.factsOf (.message .snapshot), snapshot.map = stored

theorem Serves.answer (hs : s.Serves p) {putReplies : List PutReply} {getReplies : List GetReply}
    {snapshots : List Snapshot} (hsnapshots : ∀ snapshot ∈ snapshots, snapshot.map = stored) :
    ∀ d ∈ queueAll s.replica.channels.putReply putReplies ++
      queueAll s.replica.channels.getReply getReplies ++ queueAll s.snapshot snapshots,
      s.Answer p stored d := by
  obtain ⟨scope, rfl, hshape, _⟩ := hs.exists_setup
  intro d hd
  rw [List.mem_append, List.mem_append] at hd
  rcases hd with (hd | hd) | hd
  · obtain ⟨reply, _, rfl⟩ := List.mem_map.1 hd
    exact ⟨⟨_, (replicaOf p.id).channels.putReply, reply,
      .of_sameShape ⟨rfl, _, rfl, rfl⟩ hshape, rfl⟩,
      by simp [syncReplicaOf, replicaOf], by simp [syncReplicaOf, replicaOf]⟩
  · obtain ⟨reply, _, rfl⟩ := List.mem_map.1 hd
    exact ⟨⟨_, (replicaOf p.id).channels.getReply, reply,
      .of_sameShape ⟨rfl, _, rfl, rfl⟩ hshape, rfl⟩,
      by simp [syncReplicaOf, replicaOf], by simp [syncReplicaOf, replicaOf]⟩
  · obtain ⟨snapshot, hsnapshot, rfl⟩ := List.mem_map.1 hd
    refine ⟨⟨_, (syncReplicaOf p.id).snapshot, snapshot,
      .of_sameShape ⟨rfl, _, rfl, rfl⟩ hshape, rfl⟩,
      by simp [syncReplicaOf, replicaOf], fun _ => ?_⟩
    rw [Write.factsOf_add]
    exact List.forall_mem_singleton.2 (hsnapshots snapshot hsnapshot)

/-- The first pass of a tick folds the incoming writes onto the map.  Nothing is left to do then,
and what could be queued are answers. -/
theorem Stores.exists_pass (hs : s.Stores p stored) :
    ∃ start applied writes changed queue,
      p.store.resetScratch.depositAll p.id p.pending = .ok (start, applied) ∧
      (Facts.mk p.id start).get s.replica.map = .ok stored ∧
      (∀ key value, (key, value) ∈ writes ↔ s.Incoming p key value) ∧
      pass p.id p.sameTickRules start =
        .ok (start.assign s.replica.map (fold stored writes), changed) ∧
      (∀ r ∈ p.sameTickRules,
        r.Closed p.id (start.assign s.replica.map (fold stored writes))) ∧
      allConsequences ⟨p.id, start.assign s.replica.map (fold stored writes)⟩ p.nextTickRules =
        .ok queue ∧
      ∀ d ∈ queue, s.Answer p (fold stored writes) d := by
  obtain ⟨start, applied, puts, gets, requests, snapshots, hstart, hmap, hputs, hgets, hrequests,
    hsnapshots, hput, hsnapshot⟩ := hs.exists_start
  obtain ⟨changed, hpass, hclosed⟩ := hs.serves.exists_pass hmap hputs hsnapshots
  have hlater : Lattice.Below (foldPuts p.addr stored (putsFor p.addr puts)).1
      (fold _ (snapshotWrites p.addr snapshots.elements)) := below_fold
  have hqueue := hs.serves.allConsequences_eq hmap hputs hgets hrequests hlater
  rw [foldPuts_fst, ← fold_append] at hpass hclosed hqueue
  refine ⟨start, applied, _, changed, _, hstart, hmap, mem_writes hput hsnapshot, hpass, hclosed,
    hqueue, hs.serves.answer ?_⟩
  intro snapshot hsnapshot
  obtain ⟨request, _, rfl⟩ := List.mem_map.1 hsnapshot
  rfl

variable {patience : Nat}

/-- A replica gets through every tick in which it makes a pass. -/
theorem Stores.exists_tick (hs : s.Stores p stored) (hpatience : 2 ≤ patience)
    (hlimit : p.passLimit ≠ some 0) : ∃ q result, p.tick patience = .ok (q, result) := by
  obtain ⟨_, _, _, _, _, hstart, _, _, hpass, hclosed, hqueue, _⟩ := hs.exists_pass
  exact Program.exists_tick_of_pass hpatience hlimit hstart hpass hclosed hqueue

/-- A tick folds the incoming writes onto the map.  After it no put waits any more, and what
snapshots there are in the queue are snapshots of the new map. -/
theorem Stores.exists_of_tick {result : Except ProgramError TickReport} (hs : s.Stores p stored)
    (hlimit : p.passLimit ≠ some 0) (h : p.tick patience = .ok (q, result)) :
    ∃ writes, (∀ key value, (key, value) ∈ writes ↔ s.Incoming p key value) ∧
      s.Stores q (fold stored writes) ∧ q.waiting s.replica.channels.put = [] ∧
      ∀ snapshot ∈ q.waiting s.snapshot, snapshot.map = fold stored writes := by
  obtain ⟨start, applied, writes, changed, queue, hstart, hmap, hwrites, hpass, hclosed, hqueue,
    hanswers⟩ := hs.exists_pass
  have hstore := Program.store_of_tick hlimit hstart hpass hclosed h
  have hsetup := Program.sameSetup_of_tick h
  obtain ⟨_, _, _, _, _, hpending, _⟩ := Program.passes_of_tick h
  have hanswers : ∀ d ∈ q.pending, s.Answer p (fold stored writes) d := by
    rcases hpending with hpending | hpending
    · rw [hstore] at hpending
      cases hqueue.symm.trans hpending
      exact hanswers
    · rw [hpending]
      nofun
  refine ⟨writes, hwrites, ⟨hs.serves.of_sameSetup hsetup, ?_, ?_⟩, ?_, ?_⟩
  · intro d hd
    obtain ⟨f, h, x, hh, rfl⟩ := (hanswers d hd).fact
    rw [hsetup.id_eq]
    exact ⟨f, h, x, hh.of_sameShape hsetup.sameShape, rfl⟩
  · unfold Program.facts
    rw [hsetup.id_eq, hstore]
    exact get_assign_self hmap
  · apply List.eq_nil_iff_forall_not_mem.2
    intro put hput
    obtain ⟨d, hd, hslot, _⟩ := Program.mem_waiting.1 hput
    exact (hanswers d hd).not_put hslot
  · intro snapshot hsnapshot
    obtain ⟨d, hd, hslot, hmem⟩ := Program.mem_waiting.1 hsnapshot
    exact (hanswers d hd).snapshot hslot snapshot hmem

end Ratchet.KeyValue.SyncReplica

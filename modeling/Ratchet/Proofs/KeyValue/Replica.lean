import Ratchet.Proofs.KeyValue.Fold
import Ratchet.Proofs.Program.Setup

/-!
# What replicas declare

The relations and the rules that a program holds once a replica was declared on it, and what firing
the rules does.  The relations stay readable under the handles of the replica for as long as the
program runs (`Replica.Serves`).

Every rule of the same tick folds writes onto the stored map (`fire_foldRule`).
-/

namespace Ratchet.KeyValue

/-! ## Declarations -/

/-- The slot of a channel. -/
def channelSlot (m : MessageType) (name : String) : Slot :=
  { Slot.fresh name (.set (.message m)) with scratch := true, channel := true }

/-- The handles of a replica on a program of its own. -/
def replicaOf (id : Nat) : Replica where
  channels := ⟨⟨⟨id, 0⟩⟩, ⟨⟨id, 1⟩⟩, ⟨⟨id, 2⟩⟩, ⟨⟨id, 3⟩⟩⟩
  map := ⟨⟨id, 4⟩⟩

/-- The handles of a replica with snapshots on a program of its own. -/
def syncReplicaOf (id : Nat) : SyncReplica where
  replica := replicaOf id
  snapshotRequest := ⟨⟨id, 5⟩⟩
  snapshot := ⟨⟨id, 6⟩⟩

/-- The relations of a replica. -/
def replicaSlots (scope : String) : Store :=
  [channelSlot .put (scope ++ "KVPut"), channelSlot .putReply (scope ++ "KVPutResponse"),
    channelSlot .get (scope ++ "KVGet"), channelSlot .getReply (scope ++ "KVGetResponse"),
    { Slot.fresh (scope ++ "kvMap") .dynamicMap with output := true }]

/-- The relations of a replica with snapshots. -/
def syncReplicaSlots (scope : String) : Store :=
  replicaSlots scope ++
    [channelSlot .snapshotRequest (scope ++ "KVReplReq"),
      channelSlot .snapshot (scope ++ "KVReplMap")]

section Rules

variable (r : Replica) (s : SyncReplica) (here scope : String)

/-- The rule that answers puts. -/
def putReplyRule : Rule :=
  joinRule [scope ++ "KVPut"] (scope ++ "KVPutResponse") (.of r.channels.put) r.channels.putReply
    .nextTick (Replica.answerPut r.map here)

/-- The rule that answers gets. -/
def getReplyRule : Rule :=
  joinRule [scope ++ "KVGet"] (scope ++ "KVGetResponse") (.of r.channels.get) r.channels.getReply
    .nextTick (Replica.answerGet r.map here)

/-- The rule that stores puts. -/
def putRule : Rule :=
  joinMergeRule [] (scope ++ "kvMap") .unit r.map .sameTick fun facts _ =>
    Replica.storePuts r.channels.put r.map here facts

/-- The rule that answers requests for snapshots. -/
def snapshotReplyRule : Rule :=
  joinRule [scope ++ "KVReplReq"] (scope ++ "KVReplMap") (.of s.snapshotRequest) s.snapshot
    .nextTick (SyncReplica.answerRequest s.replica.map here)

/-- The rule that stores snapshots. -/
def snapshotRule : Rule :=
  joinMergeRule [] (scope ++ "kvMap") .unit s.replica.map .sameTick fun facts _ =>
    SyncReplica.storeSnapshots s.snapshot s.replica.map here facts

end Rules

variable {id : Nat} {here scope : String} {limit : Option Nat}

/-- Declaring a replica on a fresh program succeeds. -/
theorem Replica.runOn_declare : (Replica.declare scope).runOn (.create id here limit) =
    (.ok (replicaOf id), { Program.create id here limit with
      store := replicaSlots scope
      rules := [putReplyRule (replicaOf id) here scope, getReplyRule (replicaOf id) here scope,
        putRule (replicaOf id) here scope] }) := by
  simp only [declare, Channels.declare, Setup.channel, Setup.declare, Setup.mark,
    Setup.extendOnly, Setup.join, Setup.joinMerge, Setup.runOn_bind, Setup.runOn_extend,
    Setup.runOn_pure, Setup.runOn_addr, Program.create]
  simp [Program.declareChannel, Program.declare, Program.mark, Program.slotOf, Program.facts,
    Facts.slot, bind, Except.bind, pure, Except.pure, Program.join, Program.joinMerge,
    Program.addRule, Program.nameOf, Source.of, Source.unit, Slot.fresh, Slot.mark]
  and_intros <;> rfl

/-- Declaring a replica with snapshots on a fresh program succeeds. -/
theorem SyncReplica.runOn_declare : (SyncReplica.declare scope).runOn (.create id here limit) =
    (.ok (syncReplicaOf id), { Program.create id here limit with
      store := syncReplicaSlots scope
      rules := [putReplyRule (replicaOf id) here scope, getReplyRule (replicaOf id) here scope,
        putRule (replicaOf id) here scope, snapshotReplyRule (syncReplicaOf id) here scope,
        snapshotRule (syncReplicaOf id) here scope] }) := by
  simp only [declare, Replica.runOn_declare, Setup.channel, Setup.extendOnly, Setup.join,
    Setup.joinMerge, Setup.runOn_bind, Setup.runOn_extend, Setup.runOn_pure, Setup.runOn_addr]
  simp [Program.create, Program.declareChannel, Program.declare, Program.mark, Program.slotOf,
    Program.facts, Facts.slot, bind, Except.bind, pure, Except.pure, Program.join,
    Program.joinMerge, Program.addRule, Program.nameOf, Source.of, Source.unit, Slot.fresh,
    Slot.mark, replicaSlots, channelSlot, replicaOf]
  and_intros <;> rfl

/-- The program holds just the replica: it was declared on a fresh program, which has only run
since. -/
def Replica.Serves (r : Replica) (p : Program) : Prop :=
  ∃ (scope : String) (id : Nat) (limit : Option Nat) (declared : Program),
    (Replica.declare scope).runOn (.create id p.addr limit) = (.ok r, declared) ∧
      declared.SameSetup p

/-- The program holds just the replica with snapshots. -/
def SyncReplica.Serves (s : SyncReplica) (p : Program) : Prop :=
  ∃ (scope : String) (id : Nat) (limit : Option Nat) (declared : Program),
    (SyncReplica.declare scope).runOn (.create id p.addr limit) = (.ok s, declared) ∧
      declared.SameSetup p

/-- The program that a replica was just declared on, whatever waits for its first tick. -/
theorem Replica.serves_declared (queue : List Deposit) : (replicaOf id).Serves
    { ((Replica.declare scope).runOn (.create id here limit)).2 with pending := queue } := by
  rw [runOn_declare]
  exact ⟨scope, id, limit, _, runOn_declare, rfl, rfl, rfl, (Store.below_refl _).sameShape⟩

theorem SyncReplica.serves_declared (queue : List Deposit) : (syncReplicaOf id).Serves
    { ((SyncReplica.declare scope).runOn (.create id here limit)).2 with pending := queue } := by
  rw [runOn_declare]
  exact ⟨scope, id, limit, _, runOn_declare, rfl, rfl, rfl, (Store.below_refl _).sameShape⟩

theorem Replica.Serves.exists_setup {r : Replica} {p : Program} (h : r.Serves p) :
    ∃ scope, r = replicaOf p.id ∧ (replicaSlots scope).SameShape p.store ∧
      p.rules = [putReplyRule r p.addr scope, getReplyRule r p.addr scope,
        putRule r p.addr scope] := by
  obtain ⟨scope, id, limit, declared, hdeclared, hsame⟩ := h
  obtain ⟨hr, rfl⟩ := Prod.mk.inj (runOn_declare.symm.trans hdeclared)
  obtain rfl := Except.ok.inj hr
  exact ⟨scope, congrArg replicaOf hsame.id_eq.symm, hsame.sameShape, hsame.rules_eq⟩

theorem SyncReplica.Serves.exists_setup {s : SyncReplica} {p : Program} (h : s.Serves p) :
    ∃ scope, s = syncReplicaOf p.id ∧ (syncReplicaSlots scope).SameShape p.store ∧
      p.rules = [putReplyRule s.replica p.addr scope, getReplyRule s.replica p.addr scope,
        putRule s.replica p.addr scope, snapshotReplyRule s p.addr scope,
        snapshotRule s p.addr scope] := by
  obtain ⟨scope, id, limit, declared, hdeclared, hsame⟩ := h
  obtain ⟨hr, rfl⟩ := Prod.mk.inj (runOn_declare.symm.trans hdeclared)
  obtain rfl := Except.ok.inj hr
  exact ⟨scope, congrArg syncReplicaOf hsame.id_eq.symm, hsame.sameShape, hsame.rules_eq⟩

theorem Replica.Serves.of_sameSetup {r : Replica} {p q : Program} (h : r.Serves p)
    (hpq : p.SameSetup q) : r.Serves q := by
  obtain ⟨scope, id, limit, declared, hdeclared, hsame⟩ := h
  rw [← hpq.addr_eq] at hdeclared
  exact ⟨scope, id, limit, declared, hdeclared, hsame.trans hpq⟩

theorem SyncReplica.Serves.of_sameSetup {s : SyncReplica} {p q : Program} (h : s.Serves p)
    (hpq : p.SameSetup q) : s.Serves q := by
  obtain ⟨scope, id, limit, declared, hdeclared, hsame⟩ := h
  rw [← hpq.addr_eq] at hdeclared
  exact ⟨scope, id, limit, declared, hdeclared, hsame.trans hpq⟩

/-! ## Firing the rules -/

variable {program : Nat} {S : Store} {r : Rule} {map : Handle .dynamicMap}
  {stored : StringMap Dynamic} {writes : List (String × Dynamic)}

/-- Whatever is stored, firing the rule folds the writes onto it.  The other relations are those of
`S`. -/
def FoldsOnto (program : Nat) (map : Handle .dynamicMap) (S : Store) (r : Rule)
    (writes : List (String × Dynamic)) : Prop :=
  ∀ stored, r.fire program (S.assign map stored) = .ok (S.assign map (fold stored writes))

/-- A rule that merges the collected writes into the stored map folds them onto it. -/
theorem fire_mergedWrites {select : Facts → Unit → Except Fault (Option (StringMap Dynamic))}
    (hr : r.evaluate = Rule.selectRows .unit (writing (.merge .dynamicMap) select))
    (htarget : r.target = map.id.slot) (hmap : (Facts.mk program S).get map = .ok stored)
    (hselect : select ⟨program, S⟩ () = Replica.mergedWrites map ⟨program, S⟩ writes) :
    r.fire program S = .ok (S.assign map (fold stored writes)) := by
  have hout : select ⟨program, S⟩ () =
      .ok (if (mergeCompatible stored writes).isEmpty then none
        else some (mergeCompatible stored writes)) := by
    rw [hselect, Replica.mergedWrites, hmap]
    rfl
  refine Rule.fire_joinMerge hr htarget hmap hout ?_
  by_cases hempty : (mergeCompatible stored writes).isEmpty
  · exact .inl ⟨if_pos hempty, fold_of_isEmpty hempty⟩
  · exact .inr ⟨_, if_neg hempty, join_mergeCompatible⟩

theorem foldsOnto_putRule {replica : Replica} {puts : GrowSet Put}
    (hslot : replica.map.id.slot ≠ replica.channels.put.id.slot)
    (hmap : (Facts.mk program S).get replica.map = .ok stored)
    (hputs : (Facts.mk program S).get replica.channels.put = .ok puts) :
    FoldsOnto program replica.map S (putRule replica here scope)
      (Replica.putWrites here puts.elements) := by
  intro current
  rw [fire_mergedWrites rfl rfl (get_assign_self hmap), assign_assign]
  rw [← get_assign_of_ne hslot] at hputs
  unfold Replica.storePuts
  rw [hputs]
  rfl

theorem foldsOnto_snapshotRule {sync : SyncReplica} {snapshots : GrowSet Snapshot}
    (hslot : sync.replica.map.id.slot ≠ sync.snapshot.id.slot)
    (hmap : (Facts.mk program S).get sync.replica.map = .ok stored)
    (hsnapshots : (Facts.mk program S).get sync.snapshot = .ok snapshots) :
    FoldsOnto program sync.replica.map S (snapshotRule sync here scope)
      (SyncReplica.snapshotWrites here snapshots.elements) := by
  intro current
  rw [fire_mergedWrites rfl rfl (get_assign_self hmap), assign_assign]
  rw [← get_assign_of_ne hslot] at hsnapshots
  unfold SyncReplica.storeSnapshots
  rw [hsnapshots]
  rfl

end Ratchet.KeyValue

import Ratchet.Program.Setup

/-!
# Replicated key-value store

A replica stores lattice values under keys.  Puts merge into the stored value, so a key only ever
grows, and a key keeps the kind it was first written with.  Puts that arrive together are taken in
the order of their request numbers; one that cannot be merged is dropped and answered as not
stored.  Every put and get is answered one tick later.

A replica can also be asked to send a snapshot of all that it stores to another replica, which
merges it in the same way.

## Main definitions

* `KeyValue.mergeCompatible`: writes folded onto the stored values of the keys that they touch.
* `KeyValue.Channels`, `KeyValue.Replica`, `KeyValue.SyncReplica`: what clients, replicas and
  replicas with snapshots declare.
-/

namespace Ratchet.KeyValue

/-! ## Folding writes -/

/-- A value after a write to its key; a write that conflicts with the value is skipped. -/
def absorb (current : Option Dynamic) (value : Dynamic) : Dynamic :=
  match current with
  | none => value
  | some current =>
    match current.merge value with
    | .ok (grown, _) => grown
    | .error _ => current

/-- Folds a write onto what earlier writes made of the value of its key, or onto the stored value
if it is the first one. -/
def mergeWrite (stored merged : StringMap Dynamic) (write : String × Dynamic) :
    StringMap Dynamic :=
  merged.put write.1 (absorb ((merged.get? write.1).or (stored.get? write.1)) write.2)

/-- Folds writes, in order, onto the stored values of the keys that they touch.  Only these keys
are in the result. -/
def mergeCompatible (stored : StringMap Dynamic) (writes : List (String × Dynamic)) :
    StringMap Dynamic :=
  writes.foldl (mergeWrite stored) .empty

/-! ## Channels -/

/-- The channels between clients and replicas. -/
structure Channels where
  put : Handle (.set (.message .put))
  putReply : Handle (.set (.message .putReply))
  get : Handle (.set (.message .get))
  getReply : Handle (.set (.message .getReply))

/-- Declares the channels only, as a client does. -/
def Channels.declare (scope : String) : Setup Channels := do
  let put ← Setup.channel (.message .put) (scope ++ "KVPut")
  let putReply ← Setup.channel (.message .putReply) (scope ++ "KVPutResponse")
  let get ← Setup.channel (.message .get) (scope ++ "KVGet")
  let getReply ← Setup.channel (.message .getReply) (scope ++ "KVGetResponse")
  return ⟨put, putReply, get, getReply⟩

/-! ## Replicas -/

/-- A replica of the store. -/
structure Replica where
  channels : Channels
  /-- What is stored, for reading from outside. -/
  map : Handle .dynamicMap

namespace Replica

/-- The answer to a put that is addressed to this replica. -/
def answerPut (map : Handle .dynamicMap) (here : String) (facts : Facts) (put : Put) :
    Except Fault (Option PutReply) := do
  if put.addr = here then
    let stored ← facts.get map
    let isStored := match stored.get? put.key with
      | none => true
      | some value => (value.conflict? put.value).isNone
    return some ⟨put.requestId, put.clientAddr, here, isStored⟩
  else return none

/-- The answer to a get that is addressed to this replica. -/
def answerGet (map : Handle .dynamicMap) (here : String) (facts : Facts) (get : Get) :
    Except Fault (Option GetReply) := do
  if get.addr = here then
    let stored ← facts.get map
    return some ⟨get.requestId, get.clientAddr, here, get.key, stored.get? get.key⟩
  else return none

/-- What is to be merged into the store for a list of writes, if there is any. -/
def mergedWrites (map : Handle .dynamicMap) (facts : Facts) (writes : List (String × Dynamic)) :
    Except Fault (Option (StringMap Dynamic)) := do
  let merged := mergeCompatible (← facts.get map) writes
  return if merged.isEmpty then none else some merged

/-- The writes of the puts that are addressed to this replica. -/
def putWrites (here : String) (puts : List Put) : List (String × Dynamic) :=
  (puts.filter fun put => put.addr = here).map fun put => (put.key, put.value)

/-- What the puts of a tick merge into the store. -/
def storePuts (put : Handle (.set (.message .put))) (map : Handle .dynamicMap) (here : String)
    (facts : Facts) : Except Fault (Option (StringMap Dynamic)) := do
  let puts ← facts.get put
  mergedWrites map facts (putWrites here puts.elements)

/-- Declares a replica. -/
def declare (scope : String) : Setup Replica := do
  let channels ← Channels.declare scope
  let map ← Setup.declare .dynamicMap (scope ++ "kvMap")
  Setup.mark .output map
  let here ← Setup.addr
  Setup.join (.of channels.put) channels.putReply .nextTick (answerPut map here)
  Setup.join (.of channels.get) channels.getReply .nextTick (answerGet map here)
  Setup.joinMerge .unit map .sameTick fun facts () => storePuts channels.put map here facts
  return ⟨channels, map⟩

/-- The value stored under a key. -/
def value (replica : Replica) (p : Program) (key : String) : Except Fault (Option Dynamic) := do
  return (← p.facts.get replica.map).get? key

end Replica

/-! ## Replicas with snapshots -/

/-- A replica that sends and accepts snapshots. -/
structure SyncReplica where
  replica : Replica
  snapshotRequest : Handle (.set (.message .snapshotRequest))
  snapshot : Handle (.set (.message .snapshot))

namespace SyncReplica

/-- The snapshot for a request that is addressed to this replica. -/
def answerRequest (map : Handle .dynamicMap) (here : String) (facts : Facts)
    (request : SnapshotRequest) : Except Fault (Option Snapshot) := do
  if request.addr = here then
    return some ⟨request.targetAddr, ← facts.get map⟩
  else return none

/-- The writes of the snapshots that are addressed to this replica. -/
def snapshotWrites (here : String) (snapshots : List Snapshot) : List (String × Dynamic) :=
  (snapshots.filter fun snapshot => snapshot.addr = here).flatMap fun snapshot =>
    snapshot.map.entries

/-- What the snapshots of a tick merge into the store. -/
def storeSnapshots (snapshot : Handle (.set (.message .snapshot))) (map : Handle .dynamicMap)
    (here : String) (facts : Facts) : Except Fault (Option (StringMap Dynamic)) := do
  let snapshots ← facts.get snapshot
  Replica.mergedWrites map facts (snapshotWrites here snapshots.elements)

/-- Declares a replica with snapshots. -/
def declare (scope : String) : Setup SyncReplica := do
  let replica ← Replica.declare scope
  let snapshotRequest ← Setup.channel (.message .snapshotRequest) (scope ++ "KVReplReq")
  let snapshot ← Setup.channel (.message .snapshot) (scope ++ "KVReplMap")
  let here ← Setup.addr
  Setup.join (.of snapshotRequest) snapshot .nextTick (answerRequest replica.map here)
  Setup.joinMerge .unit replica.map .sameTick fun facts () =>
    storeSnapshots snapshot replica.map here facts
  return ⟨replica, snapshotRequest, snapshot⟩

end SyncReplica

end Ratchet.KeyValue

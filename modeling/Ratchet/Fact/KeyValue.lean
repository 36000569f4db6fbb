import Ratchet.Record

/-!
# Messages of a key-value store

Clients put values under keys and get them back; each request is answered by the replica that it
was addressed to.  A replica can also be asked to send all that it stores to another replica.
-/

namespace Ratchet.KeyValue

/-- A request to merge a value into what is stored under a key. -/
structure Put where
  requestId : Int64
  addr : String
  clientAddr : String
  key : String
  value : Dynamic

/-- The answer to a put. -/
structure PutReply where
  requestId : Int64
  addr : String
  replicaAddr : String
  /-- False if the value conflicted with what is stored under the key. -/
  stored : Bool

/-- A request for the value under a key. -/
structure Get where
  requestId : Int64
  addr : String
  clientAddr : String
  key : String

/-- The answer to a get. -/
structure GetReply where
  requestId : Int64
  addr : String
  replicaAddr : String
  key : String
  /-- The value under the key, absent if the replica has never seen the key. -/
  value : Option Dynamic

/-- A request to send everything that is stored to another replica. -/
structure SnapshotRequest where
  addr : String
  targetAddr : String

/-- Everything that a replica had stored when it was asked. -/
structure Snapshot where
  addr : String
  map : StringMap Dynamic

instance : Record Put where
  fields := [⟨"req_id", .int⟩, ⟨"addr", .text⟩, ⟨"client_addr", .text⟩, ⟨"key", .text⟩,
    ⟨"val", .dynamic⟩]
  toRow a := (a.requestId, a.addr, a.clientAddr, a.key, a.value, ())
  ofRow := fun (requestId, addr, clientAddr, key, value, ()) =>
    ⟨requestId, addr, clientAddr, key, value⟩
  ofRow_toRow _ := rfl

instance : Record PutReply where
  fields := [⟨"req_id", .int⟩, ⟨"addr", .text⟩, ⟨"replica_addr", .text⟩, ⟨"stored", .flag⟩]
  toRow a := (a.requestId, a.addr, a.replicaAddr, a.stored, ())
  ofRow := fun (requestId, addr, replicaAddr, stored, ()) => ⟨requestId, addr, replicaAddr, stored⟩
  ofRow_toRow _ := rfl

instance : Record Get where
  fields := [⟨"req_id", .int⟩, ⟨"addr", .text⟩, ⟨"client_addr", .text⟩, ⟨"key", .text⟩]
  toRow a := (a.requestId, a.addr, a.clientAddr, a.key, ())
  ofRow := fun (requestId, addr, clientAddr, key, ()) => ⟨requestId, addr, clientAddr, key⟩
  ofRow_toRow _ := rfl

instance : Record GetReply where
  fields := [⟨"req_id", .int⟩, ⟨"addr", .text⟩, ⟨"replica_addr", .text⟩, ⟨"key", .text⟩,
    ⟨"val", .optionalDynamic⟩]
  toRow a := (a.requestId, a.addr, a.replicaAddr, a.key, a.value, ())
  ofRow := fun (requestId, addr, replicaAddr, key, value, ()) =>
    ⟨requestId, addr, replicaAddr, key, value⟩
  ofRow_toRow _ := rfl

instance : Record SnapshotRequest where
  fields := [⟨"addr", .text⟩, ⟨"target_addr", .text⟩]
  toRow a := (a.addr, a.targetAddr, ())
  ofRow := fun (addr, targetAddr, ()) => ⟨addr, targetAddr⟩
  ofRow_toRow _ := rfl

instance : Record Snapshot where
  fields := [⟨"addr", .text⟩, ⟨"map", .dynamicMap⟩]
  toRow a := (a.addr, a.map, ())
  ofRow := fun (addr, map, ()) => ⟨addr, map⟩
  ofRow_toRow _ := rfl

instance : Element Put := Record.element Put

instance : Element PutReply := Record.element PutReply

instance : Element Get := Record.element Get

instance : Element GetReply := Record.element GetReply

instance : Element SnapshotRequest := Record.element SnapshotRequest

instance : Element Snapshot := Record.element Snapshot

instance : Codec Put := Record.codec Put

instance : Codec PutReply := Record.codec PutReply

instance : Codec Get := Record.codec Get

instance : Codec GetReply := Record.codec GetReply

instance : Codec SnapshotRequest := Record.codec SnapshotRequest

instance : Codec Snapshot := Record.codec Snapshot

end Ratchet.KeyValue

import Ratchet.Proofs.KeyValue.Replica

/-!
# What a tick makes of a batch of messages

The rules that store puts and snapshots are evaluated in every pass, each time on a map that has
grown.  The first pass folds all writes onto the stored map, and what it leaves is closed under the
rules (`closed_of_foldsOnto`), so the tick settles there (`eq_of_settle_of_pass`).

The answers are computed against the final map.  A replica does not remember which puts it stored,
but it can tell from the final map (`foldPuts_snd`).  Together this is `tick_batch`: a tick amounts
to one sequential fold of the batch, and to exactly the answers of that fold.
-/

namespace Ratchet.KeyValue

variable {program : Nat} {S T : Store} {map : Handle .dynamicMap} {here scope : String}
  {stored later : StringMap Dynamic} {folders : List (Rule × List (String × Dynamic))}

/-! ## The passes -/

theorem pass_of_foldsOnto (h : ∀ f ∈ folders, FoldsOnto program map S f.1 f.2) :
    ∃ changed, pass program (folders.map Prod.fst) (S.assign map stored) =
      .ok (S.assign map (fold stored (folders.flatMap Prod.snd)), changed) := by
  induction folders generalizing stored with
  | nil => exact ⟨false, rfl⟩
  | cons f folders ih =>
      obtain ⟨hf, hfolders⟩ := List.forall_mem_cons.1 h
      obtain ⟨more, hpass⟩ := @ih (fold stored f.2) hfolders
      rw [List.map_cons, List.flatMap_cons, fold_append]
      exact exists_pass_cons (hf stored) hpass

/-- Where all the writes have been folded, folding them again changes nothing. -/
theorem closed_of_foldsOnto (h : ∀ f ∈ folders, FoldsOnto program map S f.1 f.2)
    (hlater : Lattice.Below (fold stored (folders.flatMap Prod.snd)) later) :
    ∀ r ∈ folders.map Prod.fst, r.Closed program (S.assign map later) := by
  induction folders generalizing stored with
  | nil => nofun
  | cons f folders ih =>
      obtain ⟨hf, hfolders⟩ := List.forall_mem_cons.1 h
      rw [List.flatMap_cons, fold_append] at hlater
      have hfold : fold later f.2 = later := fold_of_below (below_fold.trans hlater)
      have hclosed : f.1.Closed program (S.assign map later) := by
        rw [Rule.Closed, hf later, hfold]
      exact List.forall_mem_cons.2 ⟨hclosed, ih hfolders hlater⟩

/-- The first pass folds all writes onto the stored map, and with that it is done. -/
theorem exists_pass_of_foldsOnto (folders : List (Rule × List (String × Dynamic)))
    (hmap : (Facts.mk program S).get map = .ok stored)
    (h : ∀ f ∈ folders, FoldsOnto program map S f.1 f.2) :
    ∃ changed, pass program (folders.map Prod.fst) S =
        .ok (S.assign map (fold stored (folders.flatMap Prod.snd)), changed) ∧
      ∀ r ∈ folders.map Prod.fst,
        r.Closed program (S.assign map (fold stored (folders.flatMap Prod.snd))) := by
  have hpass : ∃ changed, pass program (folders.map Prod.fst) S =
      .ok (S.assign map (fold stored (folders.flatMap Prod.snd)), changed) := by
    rw [← assign_of_get hmap, assign_assign]
    exact pass_of_foldsOnto h
  obtain ⟨changed, hpass⟩ := hpass
  exact ⟨changed, hpass, closed_of_foldsOnto h (Lattice.below_refl _)⟩

/-! ## The answers -/

/-- Messages that wait for the next tick on a channel. -/
def queueAll {m : MessageType} (h : Handle (.set (.message m))) (messages : List m.Carrier) :
    List Deposit :=
  messages.map fun message => ⟨h.id.slot, .add (.set (.message m)) message⟩

theorem filterMap_ite {α β : Type} (p : α → Prop) [DecidablePred p] (f : α → β) (as : List α) :
    (as.filterMap fun a => if p a then some (f a) else none) =
      (as.filter fun a => decide (p a)).map f := by
  induction as with
  | nil => rfl
  | cons a as ih => by_cases ha : p a <;> simp [ha, ih]

/-- A rule that answers the messages to one address queues the answers to these messages. -/
theorem consequences_answer {m n : MessageType} {r : Rule} {source : Handle (.set (.message m))}
    {target : Handle (.set (.message n))}
    {select : Facts → m.Carrier → Except Fault (Option n.Carrier)} {addr : m.Carrier → String}
    {answer : m.Carrier → n.Carrier} {messages : GrowSet (FactType.message m).Carrier}
    (hr : r.evaluate = Rule.selectRows (.of source) (writing (.add (.set (.message n))) select))
    (htarget : r.target = target.id.slot)
    (hmessages : (Facts.mk program S).get source = .ok messages)
    (hselect : ∀ message, select ⟨program, S⟩ message =
      .ok (if addr message = here then some (answer message) else none)) :
    r.consequences ⟨program, S⟩ = .ok (queueAll target
      ((messages.elements.filter fun message => addr message = here).map answer)) := by
  have hrows : (Source.of source).rows ⟨program, S⟩ = .ok messages.elements :=
    Source.rows_of hmessages
  rw [Rule.consequences_eq hr, selected_of_forall hrows hselect, filterMap_ite, htarget]
  rfl

theorem answerPut_eq {put : Put} (hmap : (Facts.mk program S).get map = .ok stored) :
    Replica.answerPut map here ⟨program, S⟩ put =
      .ok (if put.addr = here then
          some ⟨put.requestId, put.clientAddr, here, accepts stored put.key put.value⟩
        else none) := by
  unfold Replica.answerPut
  by_cases hhere : put.addr = here
  · rw [if_pos hhere, if_pos hhere, hmap]
    rw [accepts_eq]
    rfl
  · rw [if_neg hhere, if_neg hhere]
    rfl

theorem answerGet_eq {get : Get} (hmap : (Facts.mk program S).get map = .ok stored) :
    Replica.answerGet map here ⟨program, S⟩ get =
      .ok (if get.addr = here then
          some ⟨get.requestId, get.clientAddr, here, get.key, stored.get? get.key⟩
        else none) := by
  unfold Replica.answerGet
  by_cases hhere : get.addr = here
  · rw [if_pos hhere, if_pos hhere, hmap]
    rfl
  · rw [if_neg hhere, if_neg hhere]
    rfl

theorem answerRequest_eq {request : SnapshotRequest}
    (hmap : (Facts.mk program S).get map = .ok stored) :
    SyncReplica.answerRequest map here ⟨program, S⟩ request =
      .ok (if request.addr = here then some ⟨request.targetAddr, stored⟩ else none) := by
  unfold SyncReplica.answerRequest
  by_cases hhere : request.addr = here
  · rw [if_pos hhere, if_pos hhere, hmap]
    rfl
  · rw [if_neg hhere, if_neg hhere]
    rfl

/-! ## The whole tick -/

/-- The puts that are addressed to `here`, in order. -/
def putsFor (here : String) (puts : GrowSet Put) : List Put :=
  puts.elements.filter fun put => put.addr = here

/-- The answers to the gets that are addressed to `here`. -/
def getReplies (here : String) (stored : StringMap Dynamic) (gets : GrowSet Get) :
    List GetReply :=
  (gets.elements.filter fun get => get.addr = here).map fun get =>
    ⟨get.requestId, get.clientAddr, here, get.key, stored.get? get.key⟩

/-- The snapshots for the requests that are addressed to `here`. -/
def snapshotReplies (here : String) (stored : StringMap Dynamic)
    (requests : GrowSet SnapshotRequest) : List Snapshot :=
  (requests.elements.filter fun request => request.addr = here).map fun request =>
    ⟨request.targetAddr, stored⟩

/-- Puts are listed by their request numbers first. -/
theorem requestId_le (puts : GrowSet Put) :
    puts.elements.Pairwise fun a b => a.requestId ≤ b.requestId := by
  refine puts.ascending.imp fun {a b} hlt => ?_
  apply Int64.not_lt.1
  intro hgt
  have hrequest : compare a.requestId b.requestId = .gt :=
    Element.gt_iff_lt.2 ((MaxInt.lt_iff_compare _ _).1 hgt)
  have hlex : compare a b = (compare a.requestId b.requestId).then
      (compare (Record.toRow a).2 (Record.toRow b).2) := rfl
  rw [hlex, hrequest] at hlt
  cases hlt

theorem consequences_putReplyRule {r : Replica} {puts : GrowSet Put}
    (hslot : r.map.id.slot ≠ r.channels.put.id.slot)
    (hmap : (Facts.mk program S).get r.map = .ok stored)
    (hputs : (Facts.mk program S).get r.channels.put = .ok puts)
    (hlater : Lattice.Below (foldPuts here stored (putsFor here puts)).1 later) :
    (putReplyRule r here scope).consequences ⟨program, S.assign r.map later⟩ =
      .ok (queueAll r.channels.putReply (foldPuts here stored (putsFor here puts)).2) := by
  rw [← get_assign_of_ne hslot] at hputs
  rw [foldPuts_snd hlater]
  exact consequences_answer rfl rfl hputs fun put => answerPut_eq (get_assign_self hmap)

theorem consequences_getReplyRule {r : Replica} {gets : GrowSet Get}
    (hslot : r.map.id.slot ≠ r.channels.get.id.slot)
    (hmap : (Facts.mk program S).get r.map = .ok stored)
    (hgets : (Facts.mk program S).get r.channels.get = .ok gets) :
    (getReplyRule r here scope).consequences ⟨program, S.assign r.map later⟩ =
      .ok (queueAll r.channels.getReply (getReplies here later gets)) := by
  rw [← get_assign_of_ne hslot] at hgets
  exact consequences_answer rfl rfl hgets fun get => answerGet_eq (get_assign_self hmap)

theorem consequences_snapshotReplyRule {s : SyncReplica} {requests : GrowSet SnapshotRequest}
    (hslot : s.replica.map.id.slot ≠ s.snapshotRequest.id.slot)
    (hmap : (Facts.mk program S).get s.replica.map = .ok stored)
    (hrequests : (Facts.mk program S).get s.snapshotRequest = .ok requests) :
    (snapshotReplyRule s here scope).consequences ⟨program, S.assign s.replica.map later⟩ =
      .ok (queueAll s.snapshot (snapshotReplies here later requests)) := by
  rw [← get_assign_of_ne hslot] at hrequests
  exact consequences_answer rfl rfl hrequests fun request =>
    answerRequest_eq (get_assign_self hmap)

variable {p q : Program} {patience limit count : Nat} {report : TickReport} {start : Store}
  {queue : List Deposit}

section Plain

variable {r : Replica} {puts : GrowSet Put} {gets : GrowSet Get}

theorem Replica.Serves.exists_get (hr : r.Serves p) (hstart : p.store.SameShape start) :
    ∃ stored puts gets, (Facts.mk p.id start).get r.map = .ok stored ∧
      (Facts.mk p.id start).get r.channels.put = .ok puts ∧
      (Facts.mk p.id start).get r.channels.get = .ok gets := by
  obtain ⟨scope, rfl, hshape, _⟩ := hr.exists_setup
  have hread : ∀ {t} (h : Handle t), h.Declared p.id (replicaSlots scope) →
      ∃ v, (Facts.mk p.id start).get h = .ok v := fun h hh =>
    Handle.declared_iff.1 (hh.of_sameShape (hshape.trans hstart))
  obtain ⟨stored, hmap⟩ := hread (replicaOf p.id).map ⟨rfl, _, rfl, rfl⟩
  obtain ⟨puts, hputs⟩ := hread (replicaOf p.id).channels.put ⟨rfl, _, rfl, rfl⟩
  obtain ⟨gets, hgets⟩ := hread (replicaOf p.id).channels.get ⟨rfl, _, rfl, rfl⟩
  exact ⟨stored, puts, gets, hmap, hputs, hgets⟩

/-- The first pass leaves the stored map with the puts folded onto it, and changes nothing else.  It
leaves nothing to do. -/
theorem Replica.Serves.exists_pass (hr : r.Serves p)
    (hmap : (Facts.mk p.id start).get r.map = .ok stored)
    (hputs : (Facts.mk p.id start).get r.channels.put = .ok puts) :
    let final := start.assign r.map (foldPuts p.addr stored (putsFor p.addr puts)).1
    ∃ changed, pass p.id p.sameTickRules start = .ok (final, changed) ∧
      ∀ rule ∈ p.sameTickRules, rule.Closed p.id final := by
  obtain ⟨scope, rfl, _, hrules⟩ := hr.exists_setup
  let r := replicaOf p.id
  have hput : FoldsOnto p.id r.map start (putRule r p.addr scope)
      (putWrites p.addr puts.elements) :=
    foldsOnto_putRule (by simp [r, replicaOf]) hmap hputs
  have hsame : p.sameTickRules = [putRule r p.addr scope] := by
    rw [Program.sameTickRules, hrules]
    rfl
  rw [hsame, foldPuts_fst]
  have hpass := exists_pass_of_foldsOnto
    [(putRule r p.addr scope, putWrites p.addr puts.elements)] hmap
    (List.forall_mem_singleton.2 hput)
  rw [List.flatMap_singleton] at hpass
  exact hpass

theorem Replica.Serves.eq_of_settle (hr : r.Serves p)
    (hmap : (Facts.mk p.id start).get r.map = .ok stored)
    (hputs : (Facts.mk p.id start).get r.channels.put = .ok puts)
    (hsettle : settle p.id p.sameTickRules limit 0 start = .ok (.stable T count)) :
    T = start.assign r.map (foldPuts p.addr stored (putsFor p.addr puts)).1 := by
  obtain ⟨changed, hpass, hclosed⟩ := hr.exists_pass hmap hputs
  exact eq_of_settle_of_pass hpass hclosed hsettle

/-- The answers that are queued, if the passes left `later` as the stored map. -/
theorem Replica.Serves.allConsequences_eq (hr : r.Serves p)
    (hmap : (Facts.mk p.id start).get r.map = .ok stored)
    (hputs : (Facts.mk p.id start).get r.channels.put = .ok puts)
    (hgets : (Facts.mk p.id start).get r.channels.get = .ok gets)
    (hlater : Lattice.Below (foldPuts p.addr stored (putsFor p.addr puts)).1 later) :
    allConsequences ⟨p.id, start.assign r.map later⟩ p.nextTickRules =
      .ok (queueAll r.channels.putReply (foldPuts p.addr stored (putsFor p.addr puts)).2 ++
        queueAll r.channels.getReply (getReplies p.addr later gets)) := by
  obtain ⟨scope, rfl, _, hrules⟩ := hr.exists_setup
  let r := replicaOf p.id
  have hput : (putReplyRule r p.addr scope).consequences ⟨p.id, start.assign r.map later⟩ = _ :=
    consequences_putReplyRule (by simp [r, replicaOf]) hmap hputs hlater
  have hget : (getReplyRule r p.addr scope).consequences ⟨p.id, start.assign r.map later⟩ = _ :=
    consequences_getReplyRule (by simp [r, replicaOf]) hmap hgets
  have hnext : p.nextTickRules = [putReplyRule r p.addr scope, getReplyRule r p.addr scope] := by
    rw [Program.nextTickRules, hrules]
    rfl
  rw [hnext]
  simp only [allConsequences, r, hput, hget, bind, Except.bind, pure, Except.pure,
    List.append_nil]

theorem Replica.Serves.eq_of_allConsequences (hr : r.Serves p)
    (hmap : (Facts.mk p.id start).get r.map = .ok stored)
    (hputs : (Facts.mk p.id start).get r.channels.put = .ok puts)
    (hgets : (Facts.mk p.id start).get r.channels.get = .ok gets)
    (hlater : Lattice.Below (foldPuts p.addr stored (putsFor p.addr puts)).1 later)
    (hqueue : allConsequences ⟨p.id, start.assign r.map later⟩ p.nextTickRules = .ok queue) :
    queue = queueAll r.channels.putReply (foldPuts p.addr stored (putsFor p.addr puts)).2 ++
      queueAll r.channels.getReply (getReplies p.addr later gets) :=
  Except.ok.inj (hqueue.symm.trans (hr.allConsequences_eq hmap hputs hgets hlater))

end Plain

section Sync

variable {s : SyncReplica} {puts : GrowSet Put} {gets : GrowSet Get}
  {requests : GrowSet SnapshotRequest} {snapshots : GrowSet Snapshot}

theorem SyncReplica.Serves.exists_get (hs : s.Serves p) (hstart : p.store.SameShape start) :
    ∃ stored puts gets requests snapshots,
      (Facts.mk p.id start).get s.replica.map = .ok stored ∧
      (Facts.mk p.id start).get s.replica.channels.put = .ok puts ∧
      (Facts.mk p.id start).get s.replica.channels.get = .ok gets ∧
      (Facts.mk p.id start).get s.snapshotRequest = .ok requests ∧
      (Facts.mk p.id start).get s.snapshot = .ok snapshots := by
  obtain ⟨scope, rfl, hshape, _⟩ := hs.exists_setup
  have hread : ∀ {t} (h : Handle t), h.Declared p.id (syncReplicaSlots scope) →
      ∃ v, (Facts.mk p.id start).get h = .ok v := fun h hh =>
    Handle.declared_iff.1 (hh.of_sameShape (hshape.trans hstart))
  obtain ⟨stored, hmap⟩ := hread (replicaOf p.id).map ⟨rfl, _, rfl, rfl⟩
  obtain ⟨puts, hputs⟩ := hread (replicaOf p.id).channels.put ⟨rfl, _, rfl, rfl⟩
  obtain ⟨gets, hgets⟩ := hread (replicaOf p.id).channels.get ⟨rfl, _, rfl, rfl⟩
  obtain ⟨requests, hrequests⟩ := hread (syncReplicaOf p.id).snapshotRequest ⟨rfl, _, rfl, rfl⟩
  obtain ⟨snapshots, hsnapshots⟩ := hread (syncReplicaOf p.id).snapshot ⟨rfl, _, rfl, rfl⟩
  exact ⟨stored, puts, gets, requests, snapshots, hmap, hputs, hgets, hrequests, hsnapshots⟩

/-- The first pass leaves the stored map with the puts, and after them the entries of the snapshots,
folded onto it, and changes nothing else.  It leaves nothing to do. -/
theorem SyncReplica.Serves.exists_pass (hs : s.Serves p)
    (hmap : (Facts.mk p.id start).get s.replica.map = .ok stored)
    (hputs : (Facts.mk p.id start).get s.replica.channels.put = .ok puts)
    (hsnapshots : (Facts.mk p.id start).get s.snapshot = .ok snapshots) :
    let final := start.assign s.replica.map (fold (foldPuts p.addr stored (putsFor p.addr puts)).1
      (snapshotWrites p.addr snapshots.elements))
    ∃ changed, pass p.id p.sameTickRules start = .ok (final, changed) ∧
      ∀ r ∈ p.sameTickRules, r.Closed p.id final := by
  obtain ⟨scope, rfl, _, hrules⟩ := hs.exists_setup
  let s := syncReplicaOf p.id
  let r := s.replica
  have hput : FoldsOnto p.id r.map start (putRule r p.addr scope)
      (Replica.putWrites p.addr puts.elements) :=
    foldsOnto_putRule (by simp [r, s, syncReplicaOf, replicaOf]) hmap hputs
  have hsnapshot : FoldsOnto p.id r.map start (snapshotRule s p.addr scope)
      (snapshotWrites p.addr snapshots.elements) :=
    foldsOnto_snapshotRule (by simp [s, syncReplicaOf, replicaOf]) hmap hsnapshots
  have hsame : p.sameTickRules = [putRule r p.addr scope, snapshotRule s p.addr scope] := by
    rw [Program.sameTickRules, hrules]
    rfl
  rw [hsame, foldPuts_fst, ← fold_append]
  have hpass := exists_pass_of_foldsOnto
    [(putRule r p.addr scope, Replica.putWrites p.addr puts.elements),
      (snapshotRule s p.addr scope, snapshotWrites p.addr snapshots.elements)] hmap
    (List.forall_mem_cons.2 ⟨hput, List.forall_mem_singleton.2 hsnapshot⟩)
  rw [List.flatMap_cons, List.flatMap_singleton] at hpass
  exact hpass

theorem SyncReplica.Serves.eq_of_settle (hs : s.Serves p)
    (hmap : (Facts.mk p.id start).get s.replica.map = .ok stored)
    (hputs : (Facts.mk p.id start).get s.replica.channels.put = .ok puts)
    (hsnapshots : (Facts.mk p.id start).get s.snapshot = .ok snapshots)
    (hsettle : settle p.id p.sameTickRules limit 0 start = .ok (.stable T count)) :
    T = start.assign s.replica.map (fold (foldPuts p.addr stored (putsFor p.addr puts)).1
      (snapshotWrites p.addr snapshots.elements)) := by
  obtain ⟨changed, hpass, hclosed⟩ := hs.exists_pass hmap hputs hsnapshots
  exact eq_of_settle_of_pass hpass hclosed hsettle

/-- The answers that are queued, if the passes left `later` as the stored map. -/
theorem SyncReplica.Serves.allConsequences_eq (hs : s.Serves p)
    (hmap : (Facts.mk p.id start).get s.replica.map = .ok stored)
    (hputs : (Facts.mk p.id start).get s.replica.channels.put = .ok puts)
    (hgets : (Facts.mk p.id start).get s.replica.channels.get = .ok gets)
    (hrequests : (Facts.mk p.id start).get s.snapshotRequest = .ok requests)
    (hlater : Lattice.Below (foldPuts p.addr stored (putsFor p.addr puts)).1 later) :
    allConsequences ⟨p.id, start.assign s.replica.map later⟩ p.nextTickRules =
      .ok (queueAll s.replica.channels.putReply
          (foldPuts p.addr stored (putsFor p.addr puts)).2 ++
        queueAll s.replica.channels.getReply (getReplies p.addr later gets) ++
        queueAll s.snapshot (snapshotReplies p.addr later requests)) := by
  obtain ⟨scope, rfl, _, hrules⟩ := hs.exists_setup
  let s := syncReplicaOf p.id
  let r := s.replica
  have hput : (putReplyRule r p.addr scope).consequences ⟨p.id, start.assign r.map later⟩ = _ :=
    consequences_putReplyRule (by simp [r, s, syncReplicaOf, replicaOf]) hmap hputs hlater
  have hget : (getReplyRule r p.addr scope).consequences ⟨p.id, start.assign r.map later⟩ = _ :=
    consequences_getReplyRule (by simp [r, s, syncReplicaOf, replicaOf]) hmap hgets
  have hrequest : (snapshotReplyRule s p.addr scope).consequences
      ⟨p.id, start.assign s.replica.map later⟩ = _ :=
    consequences_snapshotReplyRule (by simp [s, syncReplicaOf, replicaOf]) hmap hrequests
  have hnext : p.nextTickRules = [putReplyRule r p.addr scope, getReplyRule r p.addr scope,
      snapshotReplyRule s p.addr scope] := by
    rw [Program.nextTickRules, hrules]
    rfl
  rw [hnext]
  simp only [allConsequences, r, s, hput, hget, hrequest, bind, Except.bind, pure, Except.pure,
    List.append_nil, List.append_assoc]

theorem SyncReplica.Serves.eq_of_allConsequences (hs : s.Serves p)
    (hmap : (Facts.mk p.id start).get s.replica.map = .ok stored)
    (hputs : (Facts.mk p.id start).get s.replica.channels.put = .ok puts)
    (hgets : (Facts.mk p.id start).get s.replica.channels.get = .ok gets)
    (hrequests : (Facts.mk p.id start).get s.snapshotRequest = .ok requests)
    (hlater : Lattice.Below (foldPuts p.addr stored (putsFor p.addr puts)).1 later)
    (hqueue : allConsequences ⟨p.id, start.assign s.replica.map later⟩ p.nextTickRules =
      .ok queue) :
    queue = queueAll s.replica.channels.putReply
        (foldPuts p.addr stored (putsFor p.addr puts)).2 ++
      queueAll s.replica.channels.getReply (getReplies p.addr later gets) ++
      queueAll s.snapshot (snapshotReplies p.addr later requests) :=
  Except.ok.inj (hqueue.symm.trans (hs.allConsequences_eq hmap hputs hgets hrequests hlater))

end Sync

/-- A tick of a replica amounts to a sequential fold of the batch of messages that stand in its
channels when the passes start.

The puts that are addressed to the replica go onto the stored map one at a time, in the order of
their request numbers: a value is inserted under a new key, joined with the value of its key, or
dropped if it conflicts with that.  The entries of the snapshots that are addressed to the replica
follow.  What is queued for the next tick are the answers to these puts, each telling whether its
put was merged in the fold, and the answers to the gets and requests that are addressed to the
replica, with the final map. -/
theorem tick_batch (h : p.tick patience = .ok (q, .ok report)) :
    ∃ start applied, p.store.resetScratch.depositAll p.id p.pending = .ok (start, applied) ∧
      (∀ r : Replica, r.Serves p → ∃ stored puts gets,
        (Facts.mk p.id start).get r.map = .ok stored ∧
        (Facts.mk p.id start).get r.channels.put = .ok puts ∧
        (Facts.mk p.id start).get r.channels.get = .ok gets ∧
        puts.elements.Pairwise (fun a b => a.requestId ≤ b.requestId) ∧
        let batch := foldPuts p.addr stored (putsFor p.addr puts)
        q.facts.get r.map = .ok batch.1 ∧
        q.pending = queueAll r.channels.putReply batch.2 ++
          queueAll r.channels.getReply (getReplies p.addr batch.1 gets)) ∧
      (∀ s : SyncReplica, s.Serves p → ∃ stored puts gets requests snapshots,
        (Facts.mk p.id start).get s.replica.map = .ok stored ∧
        (Facts.mk p.id start).get s.replica.channels.put = .ok puts ∧
        (Facts.mk p.id start).get s.replica.channels.get = .ok gets ∧
        (Facts.mk p.id start).get s.snapshotRequest = .ok requests ∧
        (Facts.mk p.id start).get s.snapshot = .ok snapshots ∧
        puts.elements.Pairwise (fun a b => a.requestId ≤ b.requestId) ∧
        let batch := foldPuts p.addr stored (putsFor p.addr puts)
        let final := fold batch.1 (SyncReplica.snapshotWrites p.addr snapshots.elements)
        q.facts.get s.replica.map = .ok final ∧
        q.pending = queueAll s.replica.channels.putReply batch.2 ++
          queueAll s.replica.channels.getReply (getReplies p.addr final gets) ++
          queueAll s.snapshot (snapshotReplies p.addr final requests)) := by
  obtain ⟨start, applied, store, count, queue, hstart, hsettle, hqueue, rfl, _⟩ :=
    Program.tick_eq_ok.1 h
  have hshape := Program.sameShape_start hstart
  refine ⟨start, applied, hstart, ?_, ?_⟩
  · -- the answers are read off the final map, which is that of the fold
    intro r hr
    obtain ⟨stored, puts, gets, hmap, hputs, hgets⟩ := hr.exists_get hshape
    obtain rfl := hr.eq_of_settle hmap hputs hsettle
    exact ⟨stored, puts, gets, hmap, hputs, hgets, requestId_le puts, get_assign_self hmap,
      hr.eq_of_allConsequences hmap hputs hgets (Lattice.below_refl _) hqueue⟩
  · -- the snapshots came after the puts, so the final map is above that of the puts only
    intro s hs
    obtain ⟨stored, puts, gets, requests, snapshots, hmap, hputs, hgets, hrequests, hsnapshots⟩ :=
      hs.exists_get hshape
    obtain rfl := hs.eq_of_settle hmap hputs hsnapshots hsettle
    exact ⟨stored, puts, gets, requests, snapshots, hmap, hputs, hgets, hrequests, hsnapshots,
      requestId_le puts, get_assign_self hmap,
      hs.eq_of_allConsequences hmap hputs hgets hrequests below_fold hqueue⟩

/-- A put of a number, and one of a flag under the same key. -/
def number : Put := ⟨1, "n", "c", "k", .ofMaxInt ⟨3⟩⟩

def flag : Put := ⟨2, "n", "c", "k", .ofFlag ⟨true⟩⟩

/-- Both on their way to a replica, and a get of the key. -/
def clash : List Deposit :=
  [⟨0, .add (.set (.message .put)) flag⟩, ⟨0, .add (.set (.message .put)) number⟩,
    ⟨2, .add (.set (.message .get)) ⟨3, "n", "c", "k"⟩⟩]

/-- A replica that is about to receive both. -/
def clashing : Program :=
  { ((Replica.declare "").runOn (.create 0 "n" none)).2 with pending := clash }

/-- A replica with snapshots that is about to receive both. -/
def clashingSync : Program :=
  { ((SyncReplica.declare "").runOn (.create 0 "n" none)).2 with pending := clash }

/-- The tick starts from an empty map and from what has come. -/
theorem exists_start_clash {p : Program} (hp : p = clashing ∨ p = clashingSync) :
    ∃ start, p.store.resetScratch.depositAll p.id p.pending = .ok (start, 3) ∧
      (Facts.mk p.id start).get (replicaOf 0).map = .ok .empty ∧
      (Facts.mk p.id start).get (replicaOf 0).channels.put = .ok (.ofList [number, flag]) ∧
      (Facts.mk p.id start).get (replicaOf 0).channels.get =
        .ok (.ofList [⟨3, "n", "c", "k"⟩]) := by
  have hsome : (p.store.resetScratch.depositAll p.id p.pending).toOption.any (fun r =>
      decide (r.2 = 3 ∧
        ((Facts.mk p.id r.1).get (replicaOf 0).map).toOption = some .empty ∧
        ((Facts.mk p.id r.1).get (replicaOf 0).channels.put).toOption =
          some (.ofList [number, flag]) ∧
        ((Facts.mk p.id r.1).get (replicaOf 0).channels.get).toOption =
          some (.ofList [⟨3, "n", "c", "k"⟩]))) = true := by
    rcases hp with rfl | rfl <;> decide +kernel
  obtain ⟨⟨start, applied⟩, hstart, hsome⟩ := (Option.any_eq_true _ _).1 hsome
  obtain ⟨rfl, hmap, hputs, hgets⟩ := of_decide_eq_true hsome
  exact ⟨start, toOption_eq_some.1 hstart, toOption_eq_some.1 hmap, toOption_eq_some.1 hputs,
    toOption_eq_some.1 hgets⟩

/-- The number came first by its request number, so it is stored and the flag is refused. -/
theorem foldPuts_clash : foldPuts "n" .empty (putsFor "n" (.ofList [number, flag])) =
    (.singleton "k" number.value, [⟨1, "c", "n", true⟩, ⟨2, "c", "n", false⟩]) := by
  have hputs : putsFor "n" (.ofList [number, flag]) = [number, flag] := by decide +kernel
  have hmap : (foldPuts "n" .empty [number, flag]).1 = .singleton "k" number.value := by
    decide +kernel
  rw [hputs]
  exact Prod.ext hmap rfl

theorem tick_batch_clash :
    (∃ q report start, clashing.tick 2 = .ok (q, .ok report) ∧
      clashing.store.resetScratch.depositAll clashing.id clashing.pending = .ok (start, 3) ∧
      (Facts.mk clashing.id start).get (replicaOf 0).map = .ok .empty ∧
      (Facts.mk clashing.id start).get (replicaOf 0).channels.put =
        .ok (.ofList [number, flag]) ∧
      q.facts.get (replicaOf 0).map = .ok (.singleton "k" number.value) ∧
      q.pending =
        queueAll (replicaOf 0).channels.putReply [⟨1, "c", "n", true⟩, ⟨2, "c", "n", false⟩] ++
          queueAll (replicaOf 0).channels.getReply [⟨3, "c", "n", "k", some number.value⟩]) ∧
    (∃ q report start, clashingSync.tick 2 = .ok (q, .ok report) ∧
      clashingSync.store.resetScratch.depositAll clashingSync.id clashingSync.pending =
        .ok (start, 3) ∧
      (Facts.mk clashingSync.id start).get (syncReplicaOf 0).replica.map = .ok .empty ∧
      (Facts.mk clashingSync.id start).get (syncReplicaOf 0).replica.channels.put =
        .ok (.ofList [number, flag]) ∧
      (Facts.mk clashingSync.id start).get (syncReplicaOf 0).snapshot = .ok .empty ∧
      q.facts.get (syncReplicaOf 0).replica.map = .ok (.singleton "k" number.value) ∧
      q.pending =
        queueAll (replicaOf 0).channels.putReply [⟨1, "c", "n", true⟩, ⟨2, "c", "n", false⟩] ++
          queueAll (replicaOf 0).channels.getReply [⟨3, "c", "n", "k", some number.value⟩]) := by
  obtain ⟨start, hstart, hstored, hputs, hgets⟩ := exists_start_clash (.inl rfl)
  obtain ⟨start', hstart', hstored', hputs', hgets'⟩ := exists_start_clash (.inr rfl)
  obtain ⟨q, report, h⟩ :=
    Program.exists_tick_of_completes (by decide +kernel : clashing.completes 2)
  obtain ⟨q', report', h'⟩ :=
    Program.exists_tick_of_completes (by decide +kernel : clashingSync.completes 2)
  -- no request for a snapshot and no snapshot has come
  have hnone : ∀ d ∈ clashingSync.pending, d.slot ≠ 5 ∧ d.slot ≠ 6 := by decide
  have hrequests : (Facts.mk clashingSync.id start').get (syncReplicaOf 0).snapshotRequest =
      .ok .empty := get_of_depositAll_of_ne (fun d hd => (hnone d hd).1) hstart'
  have hsnapshots : (Facts.mk clashingSync.id start').get (syncReplicaOf 0).snapshot =
      .ok .empty := get_of_depositAll_of_ne (fun d hd => (hnone d hd).2) hstart'
  refine ⟨⟨q, report, start, h, hstart, hstored, hputs, ?_⟩,
    ⟨q', report', start', h', hstart', hstored', hputs', hsnapshots, ?_⟩⟩
  · obtain ⟨_, _, hplace, hplain, _⟩ := tick_batch h
    cases hstart.symm.trans hplace
    obtain ⟨_, _, _, hmap, hput, hget, _, hfinal, hqueue⟩ :=
      hplain (replicaOf 0) (Replica.serves_declared clash)
    cases hstored.symm.trans hmap
    cases hputs.symm.trans hput
    cases hgets.symm.trans hget
    rw [show clashing.addr = "n" from rfl, foldPuts_clash] at hfinal hqueue
    exact ⟨hfinal, hqueue⟩
  · obtain ⟨_, _, hplace, _, hsync⟩ := tick_batch h'
    cases hstart'.symm.trans hplace
    obtain ⟨_, _, _, _, _, hmap, hput, hget, hrequest, hsnapshot, _, hfinal, hqueue⟩ :=
      hsync (syncReplicaOf 0) (SyncReplica.serves_declared clash)
    cases hstored'.symm.trans hmap
    cases hputs'.symm.trans hput
    cases hgets'.symm.trans hget
    cases hrequests.symm.trans hrequest
    cases hsnapshots.symm.trans hsnapshot
    rw [show clashingSync.addr = "n" from rfl, foldPuts_clash] at hfinal hqueue
    exact ⟨hfinal, hqueue⟩

end Ratchet.KeyValue

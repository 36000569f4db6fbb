import Ratchet.Proofs.KeyValue.Batch
import Ratchet.Proofs.KeyValue.History
import Ratchet.Proofs.Lattice.Path
import Ratchet.Proofs.Program.Growth

/-!
# Answers that last

What a replica tells about a put is read off the map that the tick of the put ends with.  Later
ticks bring other puts, and snapshots of other replicas, and some of that conflicts with what is
stored.  Nevertheless the replica stands by what it told.

When a tick is over, the map has taken in all puts of the tick: writing one of them again would
change nothing (`Hosted.answers_of_tick`).  So a put that is told to be stored is below the value of
its key already (`AnswersPut.standsBy`).  The map is never reset, and no rule and no deposit takes
anything back.  Hence it grows from each action to all later ones, and a map that has grown still
holds what it held, and still conflicts with what it refused (`StandsBy.of_below`).  For the same
reason nothing inside it changes its kind.

## Main result

* `Replica.run_durable`: puts, gets and kinds in a whole run.
-/

namespace Ratchet.KeyValue.Replica

open Ratchet.Lattice

variable {r : Replica} {p q : Program} {patience : Nat} {M stored later : StringMap Dynamic}
  {put : Put} {get : Get}

/-- The program holds just the replica, or the replica with its snapshots. -/
def Hosted (r : Replica) (p : Program) : Prop :=
  r.Serves p ∨ ∃ s : SyncReplica, s.Serves p ∧ s.replica = r

/-! ## Answers -/

/-- The put stands in its channel, and it has the answer, which waits to be sent. -/
structure AnswersPut (r : Replica) (q : Program) (put : Put) (reply : PutReply) : Prop where
  received : ∃ puts, q.facts.get r.channels.put = .ok puts ∧ put ∈ puts
  answer : answerPut r.map q.addr q.facts put = .ok (some reply)
  queued : ⟨r.channels.putReply.id.slot, .add (.set (.message .putReply)) reply⟩ ∈ q.pending

/-- The get stands in its channel, and it has the answer, which waits to be sent. -/
structure AnswersGet (r : Replica) (q : Program) (get : Get) (reply : GetReply) : Prop where
  received : ∃ gets, q.facts.get r.channels.get = .ok gets ∧ get ∈ gets
  answer : answerGet r.map q.addr q.facts get = .ok (some reply)
  queued : ⟨r.channels.getReply.id.slot, .add (.set (.message .getReply)) reply⟩ ∈ q.pending

/-- All puts and gets that stand in the channels and are addressed to the replica are answered. -/
def AnswersAll (r : Replica) (q : Program) : Prop :=
  (∃ puts, q.facts.get r.channels.put = .ok puts ∧
    ∀ put ∈ puts, put.addr = q.addr → ∃ reply, r.AnswersPut q put reply) ∧
  ∃ gets, q.facts.get r.channels.get = .ok gets ∧
    ∀ get ∈ gets, get.addr = q.addr → ∃ reply, r.AnswersGet q get reply

/-- The put keeps the answer: an acknowledged value is below the stored one and below what gets of
its key are answered, and a refused value conflicts with the stored one. -/
def StandsBy (r : Replica) (q : Program) (put : Put) (reply : PutReply) : Prop :=
  ∃ stored, q.facts.get r.map = .ok stored ∧
    if reply.stored then
      Holds stored put.key put.value ∧
        ∀ get answer, r.AnswersGet q get answer → get.key = put.key → Bounds answer.value put.value
    else ∃ held, stored.get? put.key = some held ∧ held.conflict? put.value ≠ none

variable {reply : PutReply} {answer : GetReply}

theorem AnswersPut.stored_eq (h : r.AnswersPut q put reply) (hmap : q.facts.get r.map = .ok M) :
    put.addr = q.addr ∧ reply.stored = accepts M put.key put.value := by
  have heq := (answerPut_eq hmap).symm.trans h.answer
  split at heq
  · next haddr =>
      cases heq
      exact ⟨haddr, rfl⟩
  · cases heq

theorem AnswersGet.value_eq (h : r.AnswersGet q get answer) (hmap : q.facts.get r.map = .ok M) :
    answer.value = M.get? get.key := by
  have heq := (answerGet_eq hmap).symm.trans h.answer
  split at heq <;> cases heq
  rfl

theorem AnswersGet.bounds {value : Dynamic} (h : r.AnswersGet q get answer)
    (hmap : q.facts.get r.map = .ok M) (hholds : Holds M get.key value) :
    Bounds answer.value value := by
  rw [h.value_eq hmap]
  exact hholds

/-- A put that the map has taken in has the answer that the map gives. -/
theorem AnswersPut.standsBy (h : r.AnswersPut q put reply) (hmap : q.facts.get r.map = .ok M)
    (hsame : write M put.key put.value = M) : r.StandsBy q put reply := by
  obtain ⟨_, hstored⟩ := h.stored_eq hmap
  refine ⟨M, hmap, ?_⟩
  rw [hstored]
  split
  · next haccepts =>
      have hholds := holds_of_accepts hsame haccepts
      exact ⟨hholds, fun get answer hanswer hkey => hanswer.bounds hmap (hkey ▸ hholds)⟩
  · next haccepts => exact exists_conflict_of_accepts (Bool.eq_false_iff.2 haccepts)

/-- A map that has grown gives no other answer. -/
theorem StandsBy.of_below {q' : Program} (h : r.StandsBy q put reply)
    (hmap : q.facts.get r.map = .ok stored) (hmap' : q'.facts.get r.map = .ok later)
    (hbelow : Below stored later) : r.StandsBy q' put reply := by
  obtain ⟨_, heq, h⟩ := h
  obtain rfl := Except.ok.inj (hmap.symm.trans heq)
  refine ⟨later, hmap', ?_⟩
  split at h
  · next hstored =>
      have hholds := h.1.of_below hbelow
      rw [if_pos hstored]
      exact ⟨hholds, fun get answer hanswer hkey => hanswer.bounds hmap' (hkey ▸ hholds)⟩
  · next hstored =>
      obtain ⟨held, hheld, hconflict⟩ := h
      obtain ⟨grown, hgrown, hle⟩ := StringMap.below_iff.1 hbelow put.key held hheld
      rw [if_neg hstored]
      exact ⟨grown, hgrown, Dynamic.conflict?_of_below hle hconflict⟩

/-! ## Replicas of both kinds -/

namespace Hosted

theorem of_sameSetup (hr : r.Hosted p) (hpq : p.SameSetup q) : r.Hosted q :=
  hr.imp (·.of_sameSetup hpq) fun ⟨s, hs, heq⟩ => ⟨s, hs.of_sameSetup hpq, heq⟩

theorem exists_shape (hr : r.Hosted p) :
    r = replicaOf p.id ∧ ∃ scope others, (replicaSlots scope ++ others).SameShape p.store := by
  rcases hr with hr | ⟨s, hs, rfl⟩
  · obtain ⟨scope, heq, hshape, _⟩ := hr.exists_setup
    exact ⟨heq, scope, [], by rwa [List.append_nil]⟩
  · obtain ⟨scope, rfl, hshape, _⟩ := hs.exists_setup
    exact ⟨rfl, scope, _, hshape⟩

/-- The stored map is there, and no tick resets it. -/
theorem map_lasts (hr : r.Hosted p) :
    r.map.Resets p.store false ∧ ∃ stored, p.facts.get r.map = .ok stored := by
  obtain ⟨rfl, scope, others, hshape⟩ := hr.exists_shape
  exact ⟨.of_sameShape ⟨_, rfl, rfl⟩ hshape,
    Handle.declared_iff.1 (.of_sameShape ⟨rfl, _, rfl, rfl⟩ hshape)⟩

/-- A tick takes all puts into the map and answers everything from the map that it ends with. -/
theorem exists_of_tick {report : TickReport} (hr : r.Hosted p)
    (h : p.tick patience = .ok (q, .ok report)) :
    ∃ stored final puts gets, q.facts.get r.map = .ok final ∧
      q.facts.get r.channels.put = .ok puts ∧ q.facts.get r.channels.get = .ok gets ∧
      Below (foldPuts q.addr stored (putsFor q.addr puts)).1 final ∧
      queueAll r.channels.putReply (foldPuts q.addr stored (putsFor q.addr puts)).2 ++
        queueAll r.channels.getReply (getReplies q.addr final gets) <+: q.pending := by
  obtain ⟨start, applied, store, count, queue, hstart, hsettle, hqueue, rfl, _⟩ :=
    Program.tick_eq_ok.1 h
  have hshape := Program.sameShape_start hstart
  have hbatch : ∃ stored final puts gets, (Facts.mk p.id start).get r.map = .ok stored ∧
      (Facts.mk p.id start).get r.channels.put = .ok puts ∧
      (Facts.mk p.id start).get r.channels.get = .ok gets ∧ store = start.assign r.map final ∧
      Below (foldPuts p.addr stored (putsFor p.addr puts)).1 final ∧
      queueAll r.channels.putReply (foldPuts p.addr stored (putsFor p.addr puts)).2 ++
        queueAll r.channels.getReply (getReplies p.addr final gets) <+: queue := by
    rcases hr with hr | ⟨s, hs, rfl⟩
    · obtain ⟨stored, puts, gets, hmap, hputs, hgets⟩ := hr.exists_get hshape
      obtain rfl := hr.eq_of_settle hmap hputs hsettle
      obtain rfl := hr.eq_of_allConsequences hmap hputs hgets (below_refl _) hqueue
      exact ⟨stored, _, puts, gets, hmap, hputs, hgets, rfl, below_refl _, List.prefix_rfl⟩
    · obtain ⟨stored, puts, gets, requests, snapshots, hmap, hputs, hgets, hrequests, hsnapshots⟩ :=
        hs.exists_get hshape
      obtain rfl := hs.eq_of_settle hmap hputs hsnapshots hsettle
      obtain rfl := hs.eq_of_allConsequences hmap hputs hgets hrequests below_fold hqueue
      exact ⟨stored, _, puts, gets, hmap, hputs, hgets, rfl, below_fold, List.prefix_append ..⟩
  obtain ⟨stored, final, puts, gets, hmap, hputs, hgets, rfl, hfinal, hqueue⟩ := hbatch
  have hne : r.map.id.slot ≠ r.channels.put.id.slot ∧ r.map.id.slot ≠ r.channels.get.id.slot := by
    obtain ⟨heq, _⟩ := hr.exists_shape
    rw [heq]
    simp [replicaOf]
  exact ⟨stored, final, puts, gets, get_assign_self hmap, (get_assign_of_ne hne.1).trans hputs,
    (get_assign_of_ne hne.2).trans hgets, hfinal, hqueue⟩

/-- After a tick everything is answered, and every put has been taken into the map. -/
theorem answers_of_tick {report : TickReport} (hr : r.Hosted p)
    (h : p.tick patience = .ok (q, .ok report)) :
    r.AnswersAll q ∧ ∃ final, q.facts.get r.map = .ok final ∧
      ∀ put reply, r.AnswersPut q put reply → write final put.key put.value = final := by
  obtain ⟨stored, final, puts, gets, hmap, hputs, hgets, hfinal, hqueue⟩ := hr.exists_of_tick h
  have hmem : ∀ put ∈ puts, put.addr = q.addr → put ∈ putsFor q.addr puts :=
    fun put hput haddr => List.mem_filter.2 ⟨hput, decide_eq_true haddr⟩
  refine ⟨⟨⟨puts, hputs, ?_⟩, gets, hgets, ?_⟩, final, hmap, ?_⟩
  · intro put hput haddr
    refine ⟨_, ⟨puts, hputs, hput⟩, (answerPut_eq hmap).trans (by rw [if_pos haddr]), ?_⟩
    refine hqueue.subset (List.mem_append_left _ (List.mem_map_of_mem ?_))
    rw [foldPuts_snd hfinal]
    exact List.mem_map_of_mem (hmem put hput haddr)
  · intro get hget haddr
    refine ⟨_, ⟨gets, hgets, hget⟩, (answerGet_eq hmap).trans (by rw [if_pos haddr]), ?_⟩
    refine hqueue.subset (List.mem_append_right _ (List.mem_map_of_mem ?_))
    exact List.mem_map_of_mem (List.mem_filter.2 ⟨hget, decide_eq_true haddr⟩)
  · intro put reply hreply
    obtain ⟨puts', hputs', hput⟩ := hreply.received
    obtain rfl := Except.ok.inj (hputs.symm.trans hputs')
    obtain ⟨haddr, _⟩ := hreply.stored_eq hmap
    rw [foldPuts_fst] at hfinal
    exact write_of_mem hfinal (List.mem_map_of_mem (hmem put hput haddr))

/-- That holds for every tick of a run that completes. -/
theorem answers_of_run {actions : List Action} {trace : List (Program × Outcome)}
    {report : TickReport} (hr : r.Hosted p) (hrun : p.run patience actions = .ok trace)
    (hstep : (q, .ticked (.ok report)) ∈ trace) :
    r.AnswersAll q ∧ ∃ final, q.facts.get r.map = .ok final ∧
      ∀ put reply, r.AnswersPut q put reply → write final put.key put.value = final := by
  obtain ⟨prior, action, hprior, hperform⟩ := Program.exists_perform_of_run hrun hstep
  rcases Program.perform_cases hperform with ⟨_, _, _, hother, _⟩ | ⟨_, _, htick, heq⟩
  · exact absurd rfl (hother _)
  · cases heq
    exact (hr.of_sameSetup hprior).answers_of_tick htick

end Hosted

/-! ## Runs -/

variable {actions : List Action} {trace : List (Program × Outcome)}

/-- What a replica tells stays true.  Take any run of a program that holds a replica, or a replica
with snapshots, whatever is deposited and however many passes its ticks make.

In every tick that completes, each put and each get that is addressed to the replica is answered.
Take the answer to a put.  If the put was stored, then in that tick and after every later action its
value is below the one that is stored under its key, and below the answers to gets of that key.  If
it was not stored, then its value conflicts with the stored one, then and later on.  The answers to
gets of one key never go down from a tick to a later one.  And wherever a path leads into the map,
to a value at any depth, it goes on leading to values of that kind. -/
theorem run_durable (hr : r.Hosted p) (hrun : p.run patience actions = .ok trace) :
    (∀ q report, (q, .ticked (.ok report)) ∈ trace → r.AnswersAll q) ∧
    (∀ q report rest, (q, .ticked (.ok report)) :: rest <:+ trace →
      (∀ put reply, r.AnswersPut q put reply →
        ∀ step ∈ (q, .ticked (.ok report)) :: rest, r.StandsBy step.1 put reply) ∧
      ∀ get answer, r.AnswersGet q get answer → ∀ step ∈ rest, ∀ get' answer',
        r.AnswersGet step.1 get' answer' → get'.key = get.key →
          ∀ value, answer.value = some value → Bounds answer'.value value) ∧
    (p :: trace.map Prod.fst).Pairwise fun earlier later => ∃ stored grown,
      earlier.facts.get r.map = .ok stored ∧ later.facts.get r.map = .ok grown ∧
        ∀ path value, (Dynamic.ofMap stored).at? path = some value →
          ∃ value', (Dynamic.ofMap grown).at? path = some value' ∧ value'.kind = value.kind := by
  obtain ⟨hresets, stored, hmap⟩ := hr.map_lasts
  refine ⟨fun q report hstep => (hr.answers_of_run hrun hstep).1, ?_, ?_⟩
  · intro q report rest hsuffix
    obtain ⟨_, final, hfinal, hwritten⟩ :=
      hr.answers_of_run hrun (hsuffix.subset List.mem_cons_self)
    have hlater := Program.exists_get_of_suffix hresets hmap hrun hsuffix hfinal
    constructor
    · intro put reply hreply
      have hstands := hreply.standsBy hfinal (hwritten put reply hreply)
      refine List.forall_mem_cons.2 ⟨hstands, ?_⟩
      intro step hstep
      obtain ⟨later, hlast, hbelow⟩ := hlater step hstep
      exact hstands.of_below hfinal hlast hbelow
    · intro get answer hanswer step hstep get' answer' hanswer' hkey value hvalue
      obtain ⟨later, hlast, hbelow⟩ := hlater step hstep
      rw [hanswer.value_eq hfinal] at hvalue
      exact hanswer'.bounds hlast (hkey ▸ (holds_self hvalue).of_below hbelow)
  · refine (Program.pairwise_get_of_run hresets hmap hrun).imp ?_
    rintro earlier later ⟨M, N, hM, hN, hbelow⟩
    exact ⟨M, N, hM, hN, fun path value => Dynamic.exists_kind_eq_of_below hbelow⟩

/-- Whether the put stands in its channel, and whether its answer is the given one. -/
def tells (r : Replica) (q : Program) (put : Put) (stored : Bool) : Bool :=
  (q.facts.get r.channels.put).toOption.any (fun puts : GrowSet Put => put ∈ puts.elements) &&
    put.addr == q.addr &&
    (answerPut r.map q.addr q.facts put).toOption.join.any (fun reply => reply.stored == stored)

theorem AnswersAll.exists_of_tells {told : Bool} (h : r.AnswersAll q)
    (htells : r.tells q put told = true) :
    ∃ reply, r.AnswersPut q put reply ∧ reply.stored = told := by
  obtain ⟨htells, hanswer⟩ := Bool.and_eq_true_iff.1 htells
  obtain ⟨hmem, haddr⟩ := Bool.and_eq_true_iff.1 htells
  obtain ⟨puts, hputs, hanswers⟩ := h.1
  rw [hputs] at hmem
  have hput : put ∈ GrowSet.elements (α := Put) puts := of_decide_eq_true hmem
  obtain ⟨reply, hreply⟩ := hanswers put hput (beq_iff_eq.1 haddr)
  rw [hreply.answer] at hanswer
  exact ⟨reply, hreply, beq_iff_eq.1 hanswer⟩

/-- A tick, and two more writes to the key and a get of it before the next one. -/
def afterClash : List Action :=
  [.tick, .addNext (replicaOf 0).channels.put ⟨4, "n", "c", "k", .ofMaxText ⟨"t"⟩⟩,
    .addNext (syncReplicaOf 0).snapshot ⟨"n", .singleton "k" (.ofMaxInt ⟨9⟩)⟩,
    .addNext (replicaOf 0).channels.get ⟨5, "n", "c", "k"⟩, .tick]

theorem run_durable_clash : ∃ q report rest stored refused,
    clashingSync.run 2 afterClash = .ok ((q, .ticked (.ok report)) :: rest) ∧ rest.length = 4 ∧
      (replicaOf 0).AnswersPut q number stored ∧ stored.stored = true ∧
      (replicaOf 0).AnswersPut q flag refused ∧ refused.stored = false ∧
      ∀ step ∈ rest, (replicaOf 0).StandsBy step.1 number stored ∧
        (replicaOf 0).StandsBy step.1 flag refused := by
  have hran : (clashingSync.run 2 afterClash).toOption.any (fun steps =>
      steps.tail.length == 4 && steps.head?.any fun step => step.2.report?.isSome &&
          (replicaOf 0).tells step.1 number true &&
          (replicaOf 0).tells step.1 flag false) = true := by
    decide +kernel
  obtain ⟨steps, hsteps, hran⟩ := (Option.any_eq_true _ _).1 hran
  obtain ⟨hlength, hran⟩ := Bool.and_eq_true_iff.1 hran
  obtain ⟨⟨q, outcome⟩, hhead, hran⟩ := (Option.any_eq_true _ _).1 hran
  obtain ⟨hran, hflag⟩ := Bool.and_eq_true_iff.1 hran
  obtain ⟨hticked, hnumber⟩ := Bool.and_eq_true_iff.1 hran
  obtain ⟨report, hreport⟩ := Option.isSome_iff_exists.1 hticked
  obtain rfl := Outcome.report?_eq_some.1 hreport
  have hrun := toOption_eq_some.1 hsteps
  have hcons := List.eq_cons_of_mem_head? hhead
  rw [hcons] at hrun
  obtain ⟨hall, hkept, _⟩ := run_durable
    (.inr ⟨syncReplicaOf 0, SyncReplica.serves_declared clash, rfl⟩) hrun
  obtain ⟨stored, hstored, htrue⟩ := (hall q report List.mem_cons_self).exists_of_tells hnumber
  obtain ⟨refused, hrefused, hfalse⟩ := (hall q report List.mem_cons_self).exists_of_tells hflag
  obtain ⟨hputs, _⟩ := hkept q report _ List.suffix_rfl
  refine ⟨q, report, _, stored, refused, hrun, beq_iff_eq.1 hlength, hstored, htrue, hrefused,
    hfalse, fun step hstep => ?_⟩
  exact ⟨hputs _ _ hstored step (List.mem_cons_of_mem _ hstep),
    hputs _ _ hrefused step (List.mem_cons_of_mem _ hstep)⟩

end Ratchet.KeyValue.Replica

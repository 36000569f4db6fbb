import Ratchet.Proofs.Program.Requests

/-!
# Names and handles

A relation is reached in two ways, by its name and by a handle.  Both lead to a slot, and the slots
are numbered in the order of declaration.  As names are unique, the first slot with a name is the
only one, so looking a name up gives the handle that the declaration gave
(`Program.relation_of_mem`).  Slots are only ever appended, so that stays true whatever is asked of
the program later (`Program.keeps_of_mem`).

A handle says which program it belongs to.  Every other program refuses it, at the first look at its
slot and before anything is changed (`Program.rejects_of_ne`).

## Main result

* `Program.serveAll_registry`: names, handles and refusals after any list of requests.
-/

namespace Ratchet.Program

variable {p q : Program} {t : RelationType} {name : String} {entry : Entry} {h : Handle t}
  {patience : Nat}

/-! ## Looking up names -/

theorem relation_of_not_mem (hname : name ∉ p.names) :
    p.relation t name = .error (.unknownRelation name) := by
  have hnone : (p.store.findIdx? fun s => s.name == name) = none := by
    refine List.findIdx?_eq_none_iff.2 fun s hs => beq_eq_false_iff_ne.2 ?_
    rintro rfl
    exact hname (List.mem_map_of_mem hs)
  unfold relation
  rw [hnone]

/-- Looking up the name of a declared relation leads to its slot, whichever type is asked for. -/
theorem relation_of_mem (hp : p.names.Nodup) (hentry : entry ∈ p.entries) :
    p.relation t entry.name = if entry.type = t then .ok ⟨entry.id⟩
      else .error (.typeMismatch entry.name t entry.type) := by
  obtain ⟨hprogram, s, hs, hname, htype⟩ := mem_entries.1 hentry
  obtain ⟨hlt, hget⟩ := List.getElem?_eq_some_iff.1 hs
  have hfind : (p.store.findIdx? fun s => s.name == entry.name) = some entry.id.slot := by
    refine List.findIdx?_eq_some_iff_getElem.2 ⟨hlt, ?_, fun j hj => ?_⟩
    · rw [hget]
      exact beq_iff_eq.2 hname
    · -- an earlier slot has another name
      have hne := List.pairwise_iff_getElem.1 (List.pairwise_map.1 hp) j entry.id.slot
        (Nat.lt_trans hj hlt) hlt hj
      rw [hget, hname] at hne
      simpa using hne
  have hslot : p.facts.slot ⟨p.id, entry.id.slot⟩ = .ok s := Facts.slot_eq_ok.2 ⟨rfl, hs⟩
  have hid : (⟨p.id, entry.id.slot⟩ : RelationId) = entry.id := by rw [← hprogram]
  unfold relation
  rw [hfind]
  dsimp only
  rw [hslot, hid, ← hname, ← htype]
  by_cases ht : s.type = t
  · rw [if_pos ht]
    exact bind_eq_ok.2 ⟨s, rfl, bind_eq_ok.2 ⟨_, dif_pos ht, rfl⟩⟩
  · rw [if_neg ht]
    exact bind_eq_error.2 (.inr ⟨s, rfl, bind_eq_error.2 (.inl (dif_neg ht))⟩)

/-- A name leads to just the handle that it was declared with. -/
theorem relation_eq_ok_iff (hp : p.names.Nodup) :
    p.relation t name = .ok h ↔ ⟨name, t, h.id⟩ ∈ p.entries := by
  constructor
  · intro hrelation
    obtain ⟨s, hs, hname, htype, hprogram⟩ := slot_of_relation hrelation
    exact mem_entries.2 ⟨hprogram, s, hs, hname, htype⟩
  · intro hentry
    have hrelation := relation_of_mem (t := t) hp hentry
    rwa [if_pos rfl] at hrelation

theorem relation_eq_unknown_iff (hp : p.names.Nodup) :
    p.relation t name = .error (.unknownRelation name) ↔ name ∉ p.names := by
  refine ⟨fun hunknown hname => ?_, relation_of_not_mem⟩
  rw [← map_name_entries] at hname
  obtain ⟨entry, hentry, rfl⟩ := List.mem_map.1 hname
  rw [relation_of_mem hp hentry] at hunknown
  split at hunknown <;> cases hunknown

/-! ## Handles later on -/

/-- The program still has the relation, under its name and its type, and its handle can be read
through. -/
structure Keeps (p : Program) (entry : Entry) : Prop where
  relation : p.relation entry.type entry.name = .ok ⟨entry.id⟩
  name : p.nameOf entry.id = .ok entry.name
  readable : ∃ v, p.facts.tryGet (⟨entry.id⟩ : Handle entry.type) = .ok v

theorem keeps_of_mem (hp : p.names.Nodup) (hentry : entry ∈ p.entries) : p.Keeps entry := by
  have hrelation : p.relation entry.type entry.name = .ok ⟨entry.id⟩ :=
    (relation_eq_ok_iff hp).2 hentry
  obtain ⟨hprogram, s, hs, hname, _⟩ := mem_entries.1 hentry
  have hslot : p.facts.slot entry.id = .ok s := Facts.slot_eq_ok.2 ⟨hprogram, hs⟩
  exact ⟨hrelation, bind_eq_ok.2 ⟨s, hslot, congrArg Except.ok hname⟩,
    tryGet_of_relation hrelation⟩

/-! ## Handles of other programs -/

/-- The program refuses every use of the handle, for the relation that it stands for, and is not
changed. -/
structure Rejects (p : Program) (h : Handle t) : Prop where
  slotOf : p.slotOf h = .error (.foreignRelation h.id)
  nameOf : p.nameOf h.id = .error (.foreignRelation h.id)
  /-- Rules cannot read through it either, in the middle of a tick. -/
  tryGet : ∀ S, (Facts.mk p.id S).tryGet h = .error (.foreignRelation h.id)
  get : ∀ S, (Facts.mk p.id S).get h = .error (.misuse (.foreignRelation h.id))
  /-- Deposits, at once or for the next tick. -/
  perform : ∀ patience action, action.target? = some h.id →
    p.perform patience action = .error (.misuse (.foreignRelation h.id)) ∧
      p.serve patience (.act action) = .ok (p, .refused (.foreignRelation h.id))
  /-- Marks and rules, in which all other relations before it belong to the program. -/
  declare : ∀ d : Declaration, p.foreign? d.uses = some h.id →
    d.runOn p = (p, .refused (.foreignRelation h.id))

theorem depositNow_of_foreign {id : RelationId} {w : Write} (hid : ¬ p.Owns id) :
    p.depositNow id w = .error (.misuse (.foreignRelation id)) := by
  unfold depositNow
  rw [slot_of_foreign hid]
  rfl

theorem depositNext_of_foreign {id : RelationId} {w : Write} (hid : ¬ p.Owns id) :
    p.depositNext id w = .error (.misuse (.foreignRelation id)) := by
  unfold depositNext
  rw [slot_of_foreign hid]
  rfl

theorem perform_of_foreign {id : RelationId} {action : Action} (hid : ¬ p.Owns id)
    (htarget : action.target? = some id) :
    p.perform patience action = .error (.misuse (.foreignRelation id)) := by
  cases action with
  | add handle tuple | merge handle value =>
      cases htarget
      exact bind_eq_error.2 (.inl (depositNow_of_foreign hid))
  | addNext handle tuple | mergeNext handle value =>
      cases htarget
      exact bind_eq_error.2 (.inl (depositNext_of_foreign hid))
  | tick => cases htarget

theorem rejects_of_ne (hne : h.id.program ≠ p.id) : p.Rejects h := by
  have hforeign : ¬ p.Owns h.id := fun howns => hne howns.1
  have hslot : ∀ S, (Facts.mk p.id S).slot h.id = .error (.foreignRelation h.id) := fun S =>
    if_neg hne
  have htry : ∀ S, (Facts.mk p.id S).tryGet h = .error (.foreignRelation h.id) := fun S =>
    bind_eq_error.2 (.inl (hslot S))
  refine ⟨slot_of_foreign hforeign, nameOf_of_foreign hforeign, htry, fun S => ?_, ?_, ?_⟩
  · unfold Facts.get
    rw [htry]
    rfl
  · intro patience action htarget
    have hperform : p.perform patience action = .error (.misuse (.foreignRelation h.id)) :=
      perform_of_foreign hforeign htarget
    refine ⟨hperform, ?_⟩
    unfold serve
    dsimp only
    rw [hperform, htarget]
  · intro d hd
    have hrefusal := Declaration.refusal?_of_foreign? hd
    rcases d.settles p with ⟨e, he, hrun⟩ | ⟨_, _, hnone, _⟩
    · obtain rfl := Option.some.inj (he.symm.trans hrefusal)
      exact hrun
    · cases hnone.symm.trans hrefusal

/-! ## All requests -/

/-- Names and handles mean the same to a program throughout, whatever is asked of it.

Take a program after any list of declarations, marks, rules, lookups, deposits and ticks, granted or
refused.  Its names are those of the declarations that were granted, in order, and no name is there
twice.  A lookup with the type of the declaration gives the handle that the declaration gave, with
another type it is refused as a mismatch, and a name that was never granted is unknown.  All handles
that were given lead to the same relations after any further requests.  A declaration, mark or rule
is refused just if its name is taken, or for the first relation in it that is not one of the
program, and whatever is refused leaves the program as it was.  The handles that were given name the
program, and those that name another one are refused, whichever slot they stand for. -/
theorem serveAll_registry {id : Nat} {addr : String} {limit : Option Nat}
    {requests : List Request} {answers : List Response}
    (hserve : (create id addr limit).serveAll patience requests = .ok (p, answers)) :
    (p.names = (declared answers).map Entry.name ∧ p.names.Nodup) ∧
    (∀ t name, (∀ h : Handle t, p.relation t name = .ok h ↔ ⟨name, t, h.id⟩ ∈ declared answers) ∧
      (p.relation t name = .error (.unknownRelation name) ↔ name ∉ p.names) ∧
      ∀ entry ∈ declared answers, entry.name = name → entry.type ≠ t →
        p.relation t name = .error (.typeMismatch name t entry.type)) ∧
    (∀ more q later, p.serveAll patience more = .ok (q, later) →
      ∀ entry ∈ declared answers, q.Keeps entry) ∧
    (∀ (d : Declaration) e, d.refusal? p = some e ↔ ∃ q, d.runOn p = (q, .refused e)) ∧
    (∀ request q e, p.serve patience request = .ok (q, .refused e) → q = p) ∧
    (∀ entry ∈ declared answers, entry.id.program = id) ∧
    ∀ t (h : Handle t), h.id.program ≠ id → p.Rejects h := by
  obtain ⟨hid, hentries⟩ := entries_of_serveAll hserve
  have hentries : p.entries = declared answers := hentries
  have hstart : (create id addr limit).names.Nodup := List.nodup_nil
  have hnodup : p.names.Nodup := nodup_of_serveAll hstart hserve
  refine ⟨⟨?_, hnodup⟩, fun t name => ⟨fun h => ?_, relation_eq_unknown_iff hnodup, ?_⟩, ?_, ?_, ?_,
    ?_, ?_⟩
  · rw [← hentries, map_name_entries]
  · rw [← hentries]
    exact relation_eq_ok_iff hnodup
  · rintro entry hentry rfl htype
    rw [relation_of_mem hnodup (hentries ▸ hentry), if_neg htype]
  · intro more q later hmore entry hentry
    obtain ⟨_, hgrown⟩ := entries_of_serveAll hmore
    refine keeps_of_mem (nodup_of_serveAll hnodup hmore) ?_
    rw [hgrown, hentries]
    exact List.mem_append_left _ hentry
  · intro d e
    rcases d.settles p with ⟨e', he, hrun⟩ | ⟨q, answer, hnone, hrun, _, hgranted⟩
    · rw [he, hrun]
      constructor
      · rintro ⟨⟩
        exact ⟨p, rfl⟩
      · rintro ⟨_, ⟨⟩⟩
        rfl
    · rw [hnone, hrun]
      refine ⟨nofun, ?_⟩
      rintro ⟨_, heq⟩
      exact absurd (congrArg Prod.snd heq) (hgranted e)
  · exact fun request q e => eq_of_refused
  · intro entry hentry
    obtain ⟨hprogram, _⟩ := mem_entries.1 (hentries ▸ hentry)
    exact hprogram.trans hid
  · exact fun t h hne => rejects_of_ne (hid ▸ hne)

/-- A number and a channel are declared.  In between a name is taken again, and a handle of another
program is marked, put second among the sources of a rule and deposited into. -/
def mixture : List Request :=
  let mail : Handle (.set .int) := ⟨⟨7, 1⟩⟩
  let alien : Handle (.set .int) := ⟨⟨8, 0⟩⟩
  [.declare (.relation .max "count"), .declare (.relation .flag "count"),
    .declare (.channel .int "mail"), .declare (.mark .scratch alien),
    .declare (.join ((Source.of mail).product (.of alien)) mail .nextTick
      fun _ row => .ok (some row.1)),
    .act (.addNext mail 5), .act (.add alien 3), .lookUp .flag "count", .act .tick]

theorem serveAll_registry_mixture : ∃ p answers,
    (create 7 "n" none).serveAll 1 mixture = .ok (p, answers) ∧ p.names = ["count", "mail"] ∧
      p.relation .max "count" = .ok ⟨⟨7, 0⟩⟩ ∧
      p.relation .flag "count" = .error (.typeMismatch "count" .flag .max) ∧
      p.relation .flag "flag" = .error (.unknownRelation "flag") ∧
      p.Rejects (⟨⟨8, 0⟩⟩ : Handle (.set .int)) := by
  have hserved : ((create 7 "n" none).serveAll 1 mixture).toOption.any (fun served =>
      declared served.2 = [⟨"count", .max, ⟨7, 0⟩⟩, ⟨"mail", .set .int, ⟨7, 1⟩⟩]) = true := by
    decide +kernel
  obtain ⟨⟨p, answers⟩, hserve, hdeclared⟩ := (Option.any_eq_true _ _).1 hserved
  have hdeclared := of_decide_eq_true hdeclared
  obtain ⟨⟨hnames, _⟩, hlookups, _, _, _, _, hrejects⟩ :=
    serveAll_registry (toOption_eq_some.1 hserve)
  rw [hdeclared] at hnames hlookups
  obtain ⟨hfound, _⟩ := hlookups .max "count"
  obtain ⟨_, _, hmismatch⟩ := hlookups .flag "count"
  obtain ⟨_, hunknown, _⟩ := hlookups .flag "flag"
  refine ⟨p, answers, toOption_eq_some.1 hserve, hnames, (hfound ⟨⟨7, 0⟩⟩).2 List.mem_cons_self,
    hmismatch _ List.mem_cons_self rfl nofun, hunknown.2 ?_, hrejects _ ⟨⟨8, 0⟩⟩ (by decide)⟩
  rw [hnames]
  decide

end Ratchet.Program

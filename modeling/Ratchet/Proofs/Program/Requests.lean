import Ratchet.Proofs.Program.Growth

/-!
# Requests to a program

Everything that can be asked of a program: to declare relations, marks and rules, to look a relation
up by its name, to deposit something and to take a tick.  A program answers each request in turn
(`Program.serveAll`), and a request that it refuses leaves it as it was.

The registry of a program is the list of its relations with their names, types and identities
(`Program.entries`).  Each request adds to it what it declares, if anything, and changes nothing
else about it (`Program.registers_of_serve`).  So the registry is the list of all that was declared
(`Program.entries_of_serveAll`).
-/

namespace Ratchet

/-- Something that is declared in a program. -/
inductive Declaration : Type 1 where
  | relation (t : RelationType) (name : String)
  | channel (facts : FactType) (name : String)
  | mark {t : RelationType} (m : Mark) (h : Handle t)
  | join {ρ : Type} {t : RelationType} (source : Source ρ) (target : Handle t) (timing : Timing)
    (select : Facts → ρ → Except Fault (Option t.Tuple))
  /-- A rule that merges whole relations. -/
  | joinMerge {ρ : Type} {t : RelationType} (source : Source ρ) (target : Handle t)
    (timing : Timing) (select : Facts → ρ → Except Fault (Option t.Value))

/-- Something that is asked of a program. -/
inductive Request : Type 1 where
  | declare (d : Declaration)
  /-- The handle of the relation with a name is asked for. -/
  | lookUp (t : RelationType) (name : String)
  | act (action : Action)

/-- A relation of a program as it was declared. -/
structure Entry where
  name : String
  type : RelationType
  id : RelationId
  deriving DecidableEq

/-- What is answered to a request. -/
inductive Response where
  /-- A relation was declared, and this is its handle. -/
  | declared (entry : Entry)
  | found (entry : Entry)
  | done
  | refused (e : ProgramError)
  | told (outcome : Outcome)

/-- The relation that an answer says to be declared. -/
def Response.declared? : Response → Option Entry
  | .declared entry => some entry
  | _ => none

/-- The relations that were declared in the course of a list of requests, in order. -/
def declared (answers : List Response) : List Entry := answers.filterMap Response.declared?

/-- The answer to a script that was run on a program, and the program afterwards. -/
def answered {α : Type} (answer : α → Response) :
    Except ProgramError α × Program → Program × Response
  | (.ok a, p) => (p, answer a)
  | (.error e, p) => (p, .refused e)

/-- Makes a declaration. -/
def Declaration.runOn (p : Program) : Declaration → Program × Response
  | relation t name =>
    answered (fun h => .declared ⟨name, t, h.id⟩) ((Setup.declare t name).runOn p)
  | channel facts name =>
    answered (fun h => .declared ⟨name, .set facts, h.id⟩) ((Setup.channel facts name).runOn p)
  | mark m h => answered (fun _ => .done) ((Setup.mark m h).runOn p)
  | join source target timing select =>
    answered (fun _ => .done) ((Setup.join source target timing select).runOn p)
  | joinMerge source target timing select =>
    answered (fun _ => .done) ((Setup.joinMerge source target timing select).runOn p)

namespace Program

/-- The program after a request, and the answer.  A deposit through a handle that the program
refuses is no more than refused. -/
def serve (patience : Nat) (p : Program) : Request → Except Fault (Program × Response)
  | .declare d => .ok (d.runOn p)
  | .lookUp t name =>
    match p.relation t name with
    | .ok h => .ok (p, .found ⟨name, t, h.id⟩)
    | .error e => .ok (p, .refused e)
  | .act action =>
    match p.perform patience action, action.target? with
    | .ok (q, outcome), _ => .ok (q, .told outcome)
    | .error (.misuse e), some _ => .ok (p, .refused e)
    | .error fault, _ => .error fault

/-- The program after a list of requests, and the answers. -/
def serveAll (patience : Nat) : Program → List Request → Except Fault (Program × List Response)
  | p, [] => .ok (p, [])
  | p, request :: requests => do
    let (p, answer) ← p.serve patience request
    let (p, answers) ← serveAll patience p requests
    return (p, answer :: answers)

/-- The relations of a program in the order of declaration. -/
def entries (p : Program) : List Entry := p.store.mapIdx fun i s => ⟨s.name, s.type, ⟨p.id, i⟩⟩

variable {p q r : Program} {t : RelationType} {name : String} {patience : Nat}

theorem serveAll_cons {request : Request} {requests : List Request} {answers : List Response} :
    p.serveAll patience (request :: requests) = .ok (r, answers) ↔ ∃ q answer rest,
      p.serve patience request = .ok (q, answer) ∧ q.serveAll patience requests = .ok (r, rest) ∧
        answers = answer :: rest := by
  refine bind_eq_ok.trans ⟨?_, ?_⟩
  · rintro ⟨⟨q, answer⟩, hserve, h⟩
    obtain ⟨⟨_, rest⟩, hrest, heq⟩ := bind_eq_ok.1 h
    cases heq
    exact ⟨q, answer, rest, hserve, hrest, rfl⟩
  · rintro ⟨q, answer, rest, hserve, hrest, rfl⟩
    exact ⟨_, hserve, bind_eq_ok.2 ⟨_, hrest, rfl⟩⟩

/-! ## The registry -/

theorem map_name_entries (p : Program) : p.entries.map Entry.name = p.names := by
  refine List.ext_getElem (by simp [entries, names]) fun i _ _ => ?_
  simp [entries, names]

theorem mem_entries {entry : Entry} : entry ∈ p.entries ↔ entry.id.program = p.id ∧
    ∃ s, p.store[entry.id.slot]? = some s ∧ s.name = entry.name ∧ s.type = entry.type := by
  constructor
  · intro h
    obtain ⟨i, hi, rfl⟩ := List.mem_mapIdx.1 h
    exact ⟨rfl, p.store[i], List.getElem?_eq_getElem hi, rfl, rfl⟩
  · obtain ⟨name, t, program, i⟩ := entry
    rintro ⟨hprogram, s, hs, hname, htype⟩
    dsimp only at hprogram hs hname htype
    obtain ⟨hi, rfl⟩ := List.getElem?_eq_some_iff.1 hs
    exact List.mem_mapIdx.2 ⟨i, hi, by rw [hprogram, hname, htype]⟩

/-- The registry grows by the relation that the answer says to be declared, and the name of that is
new.  If there is none, then the registry stays as it is. -/
structure Registers (p q : Program) (answer : Response) : Prop where
  id_eq : q.id = p.id
  entries_eq : q.entries = p.entries ++ answer.declared?.toList
  fresh : ∀ entry, answer.declared? = some entry → entry.name ∉ p.names

theorem Registers.of_eq {answer : Response} (hid : q.id = p.id) (hentries : q.entries = p.entries)
    (hnone : answer.declared? = none) : p.Registers q answer := by
  refine ⟨hid, ?_, ?_⟩
  · rw [hentries, hnone, Option.toList_none, List.append_nil]
  · rw [hnone]
    nofun

/-- The registry depends on the names and types of the slots only. -/
theorem entries_congr (hid : q.id = p.id) (hlength : q.store.length = p.store.length)
    (h : ∀ (i : Nat) (s s' : Slot), p.store[i]? = some s → q.store[i]? = some s' →
      s'.name = s.name ∧ s'.type = s.type) : q.entries = p.entries := by
  refine List.ext_getElem (by simp [entries, hlength]) fun i hq hp => ?_
  simp only [entries, List.length_mapIdx] at hq hp
  obtain ⟨hname, htype⟩ := h i _ _ (List.getElem?_eq_getElem hp) (List.getElem?_eq_getElem hq)
  simp [entries, hid, hname, htype]

theorem SameSetup.entries_eq (h : p.SameSetup q) : q.entries = p.entries := by
  obtain ⟨hlength, hslots⟩ := h.sameShape
  refine entries_congr h.id_eq hlength.symm fun i s s' hs hs' => ?_
  obtain ⟨_, rfl⟩ := hslots i s s' hs hs'
  exact ⟨rfl, rfl⟩

/-- A new relation comes last in the registry, if its name is not in there. -/
theorem declare_eq_ok {h : Handle t} : p.declare t name = .ok (q, h) ↔
    name ∉ p.names ∧ q = { p with store := p.store ++ [.fresh name t] } ∧
      h = ⟨⟨p.id, p.store.length⟩⟩ := by
  have hany : (p.store.any fun s => s.name == name) = true ↔ name ∈ p.names := by
    simp [names]
  unfold declare
  split
  · next hused => simp [hany.1 hused]
  · next hfree =>
      rw [hany] at hfree
      simp [hfree, eq_comm]

theorem declare_of_mem (h : name ∈ p.names) :
    p.declare t name = .error (.duplicateRelation name) := by
  obtain ⟨s, hs, hname⟩ := List.mem_map.1 h
  have hany : (p.store.any fun s => s.name == name) = true :=
    List.any_eq_true.2 ⟨s, hs, beq_iff_eq.2 hname⟩
  unfold declare
  rw [if_pos hany]

theorem exists_declare (h : name ∉ p.names) : ∃ q handle, p.declare t name = .ok (q, handle) :=
  ⟨_, _, declare_eq_ok.2 ⟨h, rfl, rfl⟩⟩

theorem entries_of_declare {h : Handle t} (hdeclare : p.declare t name = .ok (q, h)) :
    q.id = p.id ∧ q.entries = p.entries ++ [⟨name, t, h.id⟩] := by
  obtain ⟨_, rfl, rfl⟩ := declare_eq_ok.1 hdeclare
  exact ⟨rfl, List.mapIdx_concat⟩

theorem mark_eq_ok {h : Handle t} {m : Mark} : p.mark m h = .ok q ↔
    ∃ s, p.facts.slot h.id = .ok s ∧ q = { p with store := p.store.set h.id.slot (s.mark m) } := by
  refine bind_eq_ok.trans (exists_congr fun s => and_congr_right fun _ => ?_)
  exact ⟨fun heq => (Except.ok.inj heq).symm, fun heq => congrArg Except.ok heq.symm⟩

/-- A mark on a relation does not show in the registry. -/
theorem entries_of_mark {h : Handle t} {m : Mark} (hmark : p.mark m h = .ok q) :
    q.id = p.id ∧ q.entries = p.entries := by
  obtain ⟨marked, hslot, rfl⟩ := mark_eq_ok.1 hmark
  obtain ⟨_, hmarked⟩ := Facts.slot_eq_ok.1 hslot
  refine ⟨rfl, ?_⟩
  refine entries_congr rfl (by simp) fun i s s' hs hs' => ?_
  by_cases hi : h.id.slot = i
  · subst hi
    obtain ⟨hlt, _⟩ := List.getElem?_eq_some_iff.1 hs
    obtain rfl := Option.some.inj (hs.symm.trans hmarked)
    rw [List.getElem?_set_self hlt] at hs'
    obtain rfl := Option.some.inj hs'
    cases m <;> exact ⟨rfl, rfl⟩
  · rw [List.getElem?_set_ne hi, hs] at hs'
    obtain rfl := Option.some.inj hs'
    exact ⟨rfl, rfl⟩

/-! ## What belongs to a program -/

/-- The program has a relation of that identity. -/
def Owns (p : Program) (id : RelationId) : Prop := id.program = p.id ∧ id.slot < p.store.length

instance (p : Program) (id : RelationId) : Decidable (p.Owns id) :=
  inferInstanceAs (Decidable (_ ∧ _))

/-- The first in a list of relations that the program does not have. -/
def foreign? (p : Program) (ids : List RelationId) : Option RelationId :=
  ids.find? fun id => ¬ p.Owns id

variable {id : RelationId} {ids : List RelationId}

theorem exists_slot_of_owns (h : p.Owns id) : ∃ s, p.facts.slot id = .ok s :=
  ⟨p.store.get ⟨id.slot, h.2⟩, Facts.slot_eq_ok.2 ⟨h.1, List.getElem?_eq_getElem h.2⟩⟩

/-- A relation of another program is refused, whichever slot it has there. -/
theorem slot_of_foreign (h : ¬ p.Owns id) : p.facts.slot id = .error (.foreignRelation id) := by
  unfold Facts.slot
  by_cases hprogram : id.program = p.facts.program
  · have hlength : p.store.length ≤ id.slot := Nat.not_lt.1 fun hlt => h ⟨hprogram, hlt⟩
    have hnone : p.facts.store[id.slot]? = none := List.getElem?_eq_none hlength
    rw [if_pos hprogram, hnone]
  · rw [if_neg hprogram]

theorem nameOf_of_foreign (h : ¬ p.Owns id) : p.nameOf id = .error (.foreignRelation id) := by
  unfold nameOf
  rw [slot_of_foreign h]
  rfl

theorem exists_nameOf (h : p.Owns id) : ∃ name, p.nameOf id = .ok name := by
  obtain ⟨s, hs⟩ := exists_slot_of_owns h
  exact ⟨s.name, bind_eq_ok.2 ⟨s, hs, rfl⟩⟩

theorem foreign?_eq_none : p.foreign? ids = none ↔ ∀ id ∈ ids, p.Owns id := by
  simp [foreign?]

theorem foreign?_append {others : List RelationId} :
    p.foreign? (ids ++ others) = (p.foreign? ids).or (p.foreign? others) :=
  List.find?_append

theorem not_owns_of_foreign? (h : p.foreign? ids = some id) : ¬ p.Owns id := by
  simpa using List.find?_some h

/-- A list of sources is refused for the first of them that is foreign, wherever that stands. -/
theorem mapM_nameOf_of_foreign? (h : p.foreign? ids = some id) :
    ids.mapM p.nameOf = .error (.foreignRelation id) := by
  induction ids with
  | nil => cases h
  | cons first ids ih =>
      rw [List.mapM_cons]
      by_cases hfirst : p.Owns first
      · obtain ⟨name, hname⟩ := exists_nameOf hfirst
        rw [foreign?, List.find?_cons_of_neg (by simpa using hfirst)] at h
        rw [hname, show ids.mapM p.nameOf = _ from ih h]
        rfl
      · rw [foreign?, List.find?_cons_of_pos (by simpa using hfirst)] at h
        obtain rfl := Option.some.inj h
        rw [nameOf_of_foreign hfirst]
        rfl

theorem exists_mark {h : Handle t} {m : Mark} (hh : p.Owns h.id) : ∃ q, p.mark m h = .ok q := by
  obtain ⟨s, hs⟩ := exists_slot_of_owns hh
  exact ⟨_, mark_eq_ok.2 ⟨s, hs, rfl⟩⟩

theorem mark_of_foreign {h : Handle t} {m : Mark} (hh : ¬ p.Owns h.id) :
    p.mark m h = .error (.foreignRelation h.id) := by
  unfold mark slotOf
  rw [slot_of_foreign hh]
  rfl

theorem owns_of_declare {h : Handle t} (hdeclare : p.declare t name = .ok (q, h)) :
    q.Owns h.id := by
  obtain ⟨_, rfl, rfl⟩ := declare_eq_ok.1 hdeclare
  exact ⟨rfl, by simp⟩

/-- A channel is a set that is declared and marked, and the mark cannot be refused. -/
theorem exists_declareChannel {facts : FactType} (h : name ∉ p.names) :
    ∃ q handle, p.declareChannel facts name = .ok (q, handle) ∧ q.id = p.id ∧
      q.entries = p.entries ++ [⟨name, .set facts, handle.id⟩] := by
  obtain ⟨q, handle, hdeclare⟩ := exists_declare (t := .set facts) h
  obtain ⟨r, hmark⟩ := exists_mark (m := .channel) (owns_of_declare hdeclare)
  obtain ⟨hid, hentries⟩ := entries_of_declare hdeclare
  obtain ⟨hid', hentries'⟩ := entries_of_mark hmark
  exact ⟨r, handle, bind_eq_ok.2 ⟨_, hdeclare, bind_eq_ok.2 ⟨r, hmark, rfl⟩⟩,
    hid'.trans hid, hentries'.trans hentries⟩

theorem declareChannel_of_mem {facts : FactType} (h : name ∈ p.names) :
    p.declareChannel facts name = .error (.duplicateRelation name) := by
  unfold declareChannel
  rw [declare_of_mem h]
  rfl

section Rules

variable {sources : List RelationId} {target : RelationId} {mode : WriteMode} {timing : Timing}
  {evaluate : Facts → Except Fault (List Write)}

theorem addRule_of_foreign? (h : p.foreign? (sources ++ [target]) = some id) :
    p.addRule sources target mode timing evaluate = .error (.foreignRelation id) := by
  unfold addRule
  cases hsources : p.foreign? sources with
  | some first =>
      rw [foreign?_append, hsources, Option.some_or] at h
      obtain rfl := Option.some.inj h
      rw [mapM_nameOf_of_foreign? hsources]
      rfl
  | none =>
      obtain ⟨names, hnames⟩ := exists_mapM_eq_ok fun id hid =>
        exists_nameOf (foreign?_eq_none.1 hsources id hid)
      rw [foreign?_append, hsources, Option.none_or] at h
      obtain rfl : id = target := by simpa using List.mem_of_find?_eq_some h
      rw [hnames, show p.nameOf id = _ from nameOf_of_foreign (not_owns_of_foreign? h)]
      rfl

theorem exists_addRule (h : p.foreign? (sources ++ [target]) = none) :
    ∃ rule, p.addRule sources target mode timing evaluate =
      .ok { p with rules := p.rules ++ [rule] } := by
  have howns := foreign?_eq_none.1 h
  obtain ⟨names, hnames⟩ := exists_mapM_eq_ok fun id hid =>
    exists_nameOf (howns id (List.mem_append_left _ hid))
  obtain ⟨targetName, htarget⟩ :=
    exists_nameOf (howns target (List.mem_append_right _ (List.mem_singleton_self _)))
  exact ⟨_, bind_eq_ok.2 ⟨names, hnames, bind_eq_ok.2 ⟨targetName, htarget, rfl⟩⟩⟩

end Rules

end Program

/-! ## Declarations -/

section Answers

variable {α : Type} {p q : Program} {answer : α → Response} {e : ProgramError}

theorem answered_extend {step : Program → Except ProgramError (Program × α)} {a : α}
    (h : step p = .ok (q, a)) : answered answer ((Setup.extend step).runOn p) = (q, answer a) := by
  rw [Setup.runOn_extend, h]
  rfl

theorem answered_extend_error {step : Program → Except ProgramError (Program × α)}
    (h : step p = .error e) :
    answered answer ((Setup.extend step).runOn p) = (p, .refused e) := by
  rw [Setup.runOn_extend, h]
  rfl

theorem answered_extendOnly {answer : Unit → Response}
    {step : Program → Except ProgramError Program} (h : step p = .ok q) :
    answered answer ((Setup.extendOnly step).runOn p) = (q, answer ()) :=
  answered_extend (bind_eq_ok.2 ⟨q, h, rfl⟩)

theorem answered_extendOnly_error {answer : Unit → Response}
    {step : Program → Except ProgramError Program} (h : step p = .error e) :
    answered answer ((Setup.extendOnly step).runOn p) = (p, .refused e) :=
  answered_extend_error (bind_eq_error.2 (.inl h))

end Answers

namespace Declaration

/-- The name that is declared, if there is one. -/
def name? : Declaration → Option String
  | relation _ name | channel _ name => some name
  | mark .. | join .. | joinMerge .. => none

/-- The relations that a declaration is about, in the order in which they are looked at. -/
def uses : Declaration → List RelationId
  | relation .. | channel .. => []
  | mark _ h => [h.id]
  | join source target .. | joinMerge source target .. => source.ids ++ [target.id]

/-- Why a program refuses a declaration, if it does: the name is taken, or one of the relations is
foreign. -/
def refusal? (p : Program) (d : Declaration) : Option ProgramError :=
  match d.name? with
  | some name => if name ∈ p.names then some (.duplicateRelation name) else none
  | none => (p.foreign? d.uses).map .foreignRelation

theorem refusal?_of_foreign? {p : Program} {d : Declaration} {id : RelationId}
    (h : p.foreign? d.uses = some id) : d.refusal? p = some (.foreignRelation id) := by
  cases d with
  | relation | channel => cases h
  | mark | join | joinMerge =>
      unfold refusal?
      rw [h]
      rfl

/-- What becomes of a declaration: it is refused and leaves the program as it was, or it is
granted. -/
def Settles (p : Program) (d : Declaration) : Prop :=
  (∃ e, d.refusal? p = some e ∧ d.runOn p = (p, .refused e)) ∨
    ∃ q answer, d.refusal? p = none ∧ d.runOn p = (q, answer) ∧ p.Registers q answer ∧
      ∀ e, answer ≠ .refused e

variable {p : Program} {d : Declaration}

/-- Declarations of a relation are refused for their names only. -/
theorem settles_of_name {t : RelationType} {name : String}
    {step : Program → Except ProgramError (Program × Handle t)} (hname : d.name? = some name)
    (hrun : d.runOn p = answered (fun h => .declared ⟨name, t, h.id⟩)
      ((Setup.extend step).runOn p))
    (hrefused : name ∈ p.names → step p = .error (.duplicateRelation name))
    (hgranted : name ∉ p.names → ∃ q h, step p = .ok (q, h) ∧ q.id = p.id ∧
      q.entries = p.entries ++ [⟨name, t, h.id⟩]) : d.Settles p := by
  unfold Settles refusal?
  rw [hname, hrun]
  by_cases hmem : name ∈ p.names
  · exact .inl ⟨_, if_pos hmem, answered_extend_error (hrefused hmem)⟩
  · obtain ⟨q, h, hstep, hid, hentries⟩ := hgranted hmem
    refine .inr ⟨q, _, if_neg hmem, answered_extend hstep, ⟨hid, hentries, ?_⟩, nofun⟩
    rintro _ ⟨⟩
    exact hmem

/-- Other declarations are refused for the first foreign relation. -/
theorem settles_of_uses {step : Program → Except ProgramError Program} (hname : d.name? = none)
    (hrun : d.runOn p = answered (fun _ => .done) ((Setup.extendOnly step).runOn p))
    (hrefused : ∀ id, p.foreign? d.uses = some id → step p = .error (.foreignRelation id))
    (hgranted : p.foreign? d.uses = none → ∃ q, step p = .ok q ∧ q.id = p.id ∧
      q.entries = p.entries) : d.Settles p := by
  unfold Settles refusal?
  rw [hname, hrun]
  cases hforeign : p.foreign? d.uses with
  | some id => exact .inl ⟨_, rfl, answered_extendOnly_error (hrefused id hforeign)⟩
  | none =>
      obtain ⟨q, hstep, hid, hentries⟩ := hgranted hforeign
      exact .inr ⟨q, .done, rfl, answered_extendOnly hstep, .of_eq hid hentries rfl, nofun⟩

theorem settles (d : Declaration) (p : Program) : d.Settles p := by
  cases d with
  | relation t name =>
      refine settles_of_name rfl rfl Program.declare_of_mem fun hname => ?_
      obtain ⟨q, h, hdeclare⟩ := Program.exists_declare hname
      exact ⟨q, h, hdeclare, Program.entries_of_declare hdeclare⟩
  | channel facts name =>
      exact settles_of_name rfl rfl Program.declareChannel_of_mem Program.exists_declareChannel
  | mark m h =>
      refine settles_of_uses rfl rfl (fun id hid => ?_) fun hnone => ?_
      · obtain rfl : id = h.id := List.mem_singleton.1 (List.mem_of_find?_eq_some hid)
        exact Program.mark_of_foreign (Program.not_owns_of_foreign? hid)
      · obtain ⟨q, hmark⟩ := Program.exists_mark
          (Program.foreign?_eq_none.1 hnone h.id (List.mem_singleton_self _))
        exact ⟨q, hmark, Program.entries_of_mark hmark⟩
  | join source target timing select | joinMerge source target timing select =>
      refine settles_of_uses rfl rfl (fun id hid => Program.addRule_of_foreign? hid) fun hnone => ?_
      obtain ⟨rule, hrule⟩ := Program.exists_addRule hnone
      exact ⟨_, hrule, rfl, rfl⟩

end Declaration

/-! ## Requests -/

namespace Program

variable {p q r : Program} {patience : Nat} {request : Request} {requests : List Request}
  {answer : Response} {answers : List Response}

/-- An answer to a deposit or a tick is what is told about it, or the deposit was refused. -/
theorem serve_act_cases {action : Action}
    (h : p.serve patience (.act action) = .ok (q, answer)) :
    (∃ outcome, p.perform patience action = .ok (q, outcome) ∧ answer = .told outcome) ∨
      ∃ e, q = p ∧ answer = .refused e := by
  unfold serve at h
  dsimp only at h
  split at h
  · next outcome hperform =>
      cases h
      exact .inl ⟨outcome, hperform, rfl⟩
  · next e _ _ _ =>
      cases h
      exact .inr ⟨e, rfl, rfl⟩
  · cases h

/-- What is refused leaves the program as it was. -/
theorem eq_of_refused {e : ProgramError} (h : p.serve patience request = .ok (q, .refused e)) :
    q = p := by
  cases request with
  | declare d =>
      have hrun : d.runOn p = (q, .refused e) := Except.ok.inj h
      rcases d.settles p with ⟨_, _, heq⟩ | ⟨_, _, _, heq, _, hgranted⟩
      · cases hrun.symm.trans heq
        rfl
      · cases hrun.symm.trans heq
        exact absurd rfl (hgranted e)
  | lookUp t name =>
      unfold serve at h
      dsimp only at h
      split at h
      · cases h
      · cases h
        rfl
  | act action =>
      rcases serve_act_cases h with ⟨_, _, heq⟩ | ⟨_, heq, _⟩
      · cases heq
      · exact heq

/-- A request adds to the registry what is declared, and nothing else. -/
theorem registers_of_serve (h : p.serve patience request = .ok (q, answer)) :
    p.Registers q answer := by
  cases request with
  | declare d =>
      have hrun : d.runOn p = (q, answer) := Except.ok.inj h
      rcases d.settles p with ⟨_, _, heq⟩ | ⟨_, _, _, heq, hregisters, _⟩
      · cases hrun.symm.trans heq
        exact .of_eq rfl rfl rfl
      · cases hrun.symm.trans heq
        exact hregisters
  | lookUp t name =>
      unfold serve at h
      dsimp only at h
      split at h
      · cases h
        exact .of_eq rfl rfl rfl
      · cases h
        exact .of_eq rfl rfl rfl
  | act action =>
      rcases serve_act_cases h with ⟨outcome, hperform, rfl⟩ | ⟨_, rfl, rfl⟩
      · have hsetup := sameSetup_of_perform hperform
        exact .of_eq hsetup.id_eq hsetup.entries_eq rfl
      · exact .of_eq rfl rfl rfl

theorem declared_cons : declared (answer :: answers) =
    answer.declared?.toList ++ declared answers := by
  unfold declared
  cases h : answer.declared? with
  | none => rw [List.filterMap_cons_none h]; rfl
  | some entry => rw [List.filterMap_cons_some h]; rfl

/-- In the end the registry has grown by all that was declared, in order. -/
theorem entries_of_serveAll (h : p.serveAll patience requests = .ok (r, answers)) :
    r.id = p.id ∧ r.entries = p.entries ++ declared answers := by
  induction requests generalizing p answers with
  | nil =>
      cases h
      exact ⟨rfl, (List.append_nil _).symm⟩
  | cons request requests ih =>
      obtain ⟨q, answer, rest, hserve, hrest, rfl⟩ := serveAll_cons.1 h
      obtain ⟨hid, hentries, _⟩ := registers_of_serve hserve
      obtain ⟨hid', hentries'⟩ := ih hrest
      refine ⟨hid'.trans hid, ?_⟩
      rw [hentries', hentries, declared_cons, List.append_assoc]

/-- Names stay unique. -/
theorem nodup_of_serve (hp : p.names.Nodup) (h : p.serve patience request = .ok (q, answer)) :
    q.names.Nodup := by
  obtain ⟨_, hentries, hfresh⟩ := registers_of_serve h
  rw [← map_name_entries] at hp ⊢
  rw [hentries]
  cases hanswer : answer.declared? with
  | none => rwa [Option.toList_none, List.append_nil]
  | some entry =>
      have hnew := hfresh entry hanswer
      rw [← map_name_entries] at hnew
      rw [Option.toList_some, List.map_append, List.map_singleton]
      refine List.nodup_append.2 ⟨hp, List.pairwise_singleton .., fun name hname other hother => ?_⟩
      rintro rfl
      exact hnew (List.mem_singleton.1 hother ▸ hname)

theorem nodup_of_serveAll (hp : p.names.Nodup)
    (h : p.serveAll patience requests = .ok (r, answers)) : r.names.Nodup := by
  induction requests generalizing p answers with
  | nil =>
      cases h
      exact hp
  | cons request requests ih =>
      obtain ⟨q, answer, rest, hserve, hrest, _⟩ := serveAll_cons.1 h
      exact ih (nodup_of_serve hp hserve) hrest

end Program

end Ratchet

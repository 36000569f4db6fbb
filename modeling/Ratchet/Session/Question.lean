import Ratchet.Session.Basic

/-!
# Questions to protocols

What can be asked about a protocol that was declared in a session, and the answers.
-/

namespace Ratchet

/-- The questions that can be asked about protocols. -/
inductive Question where
  /-- Whether a quorum was reached, or a tally is done. -/
  | isReached
  | tally
  | isRaceDone (race : String)
  | best (source target : String)
  | value (key : String)
  | currentTerm
  | isLeader
  | leader

/-- The answers to questions about protocols. -/
inductive Answer where
  | truth (value : Bool)
  | int (value : Int64)
  | path (value : Option Path)
  | stored (value : Option Dynamic)
  | addr (value : Option String)

namespace Service

/-- The answer of a protocol to a question, if it is a question to this kind of protocol. -/
def answer? (service : Service) (p : Program) : Question → Option (Except Fault Answer)
  | .isReached =>
    match service with
    | .threshold count => some (.truth <$> count.isDone p)
    | .addressedQuorum quorum => some (.truth <$> quorum.isReached p)
    | _ => none
  | .tally =>
    match service with
    | .addressedQuorum quorum => some (.int <$> quorum.count p)
    | _ => none
  | .isRaceDone race =>
    match service with
    | .raceTally count => some (.truth <$> count.isDone p race)
    | _ => none
  | .best source target =>
    match service with
    | .shortestPath search => some (.path <$> search.best p source target)
    | _ => none
  | .value key =>
    match service with
    | .replica store => some (.stored <$> store.value p key)
    | _ => none
  | .currentTerm =>
    match service with
    | .member m => some (.int <$> m.termOf p)
    | _ => none
  | .isLeader =>
    match service with
    | .member m => some (.truth <$> m.leads p)
    | _ => none
  | .leader =>
    match service with
    | .member m => some (.addr <$> m.leader p)
    | _ => none

end Service

namespace Session

/-- Asks a protocol about a program; `none` if there is no such protocol or it has no answer. -/
def ask (label name : String) (question : Question) : Step (Option Answer) := do
  let p ← program label
  match (← get).services.get? name with
  | none => return none
  | some service =>
    match service.answer? p question with
    | none => return none
    | some answer => some <$> orFault answer

end Session

end Ratchet

import Ratchet.Session.Basic

/-!
# A catalogue of rules

The rules that a session can add to a program, each with a fixed selector.

## Main definitions

* `Wiring`: the rules of the catalogue, over relations by name.
* `Session.wire`: adds a rule of the catalogue to a program.
-/

namespace Ratchet

open Session

/-- A relation by name whose tuples are integers: a set or a register. -/
inductive IntRef where
  | set (r : Ref (.set .int))
  | max (r : Ref .max)

/-- A weighted sum of integers, kept where it lies between two bounds. -/
structure LinearForm where
  constant : Int
  weights : List Int
  lower : Int64
  upper : Int64

/-- The sum for a row, if it lies between the bounds. -/
def LinearForm.eval (f : LinearForm) (row : List Int64) : Option Int64 :=
  let sum := (f.weights.zipWith (fun w x => w * x.toInt) row).foldl (· + ·) f.constant
  if f.lower.toInt ≤ sum ∧ sum ≤ f.upper.toInt then some (Int64.ofInt sum) else none

/-- The rules of the catalogue. -/
inductive Wiring where
  | copy {t : RelationType} (source target : Ref t)
  /-- Copies the members of a set of integers to a register, or the other way round. -/
  | copyInt (source target : IntRef)
  /-- Copies the members of a set of texts to a register. -/
  | copyTexts (source : Ref (.set .text)) (target : Ref .maxText)
  | copyText (source : Ref .maxText) (target : Ref (.set .text))
  | const {t : RelationType} (target : Ref t) (tuple : t.Tuple)
  | constMerge {t : RelationType} (target : Ref t) (value : t.Value)
  | mergeFrom {t : RelationType} (whole target : Ref t)
  | size {t : RelationType} (whole : Ref t) (target : Ref .max)
  /-- Compares a register with the one that it has to reach; an unreadable one counts as zero. -/
  | reaches (reading need : Ref .max) (target : Ref .flag)
  | pair (first second : Ref (.set .int)) (target : Ref (.set .intPair))
  | compose (first second : Ref (.set .intPair)) (target : Ref (.set .intPair))
  | entry (source : Ref (.set .textInt)) (target : Ref (.map .max))
  | mergeEntry (source : Ref (.set .textInt)) (target : Ref (.map .max))
  | trueKeys (source : Ref (.map .flag)) (target : Ref (.set .text))
  | gate (guard : Ref .flag) (source target : Ref (.set .text))
  | linear (sources : List IntRef) (form : LinearForm) (target : IntRef)

namespace Session

/-! ## Selectors -/

/-- The number of tuples of a relation. -/
def countTuples {t : RelationType} (h : Handle t) (facts : Facts) :
    Except Fault (Option Int64) := do
  return some (MaxInt.ofCount (← facts.tuples h).length).value

/-- Whether a register has reached another one. -/
def hasReached (reading need : Handle .max) (facts : Facts) : Except Fault (Option Bool) := do
  let threshold := match facts.tryGet need with
    | .ok register => register.value
    | .error _ => 0
  return some (decide (threshold ≤ (← facts.get reading).value))

/-- The composition of two pairs. -/
def composePairs (row : (Int64 × Int64) × (Int64 × Int64)) : Option (Int64 × Int64) :=
  if row.1.2 = row.2.1 then some (row.1.1, row.2.2) else none

/-! ## Sources of integers -/

/-- A handle whose tuples are integers. -/
inductive IntHandle where
  | set (h : Handle (.set .int))
  | max (h : Handle .max)

/-- The handle of a relation of integers. -/
def resolveInt (label : String) : IntRef → Step IntHandle
  | .set r => .set <$> resolve label r
  | .max r => .max <$> resolve label r

/-- The integers of a relation. -/
def IntHandle.source : IntHandle → Source Int64
  | .set h => .of h
  | .max h => .of h

/-- Every combination of integers, one from each relation. -/
def intRows : List IntHandle → Source (List Int64)
  | [] => Source.unit.map fun () => []
  | h :: hs => (h.source.product (intRows hs)).map fun row => row.1 :: row.2

/-! ## Adding rules -/

/-- Adds a rule that writes single facts. -/
def addJoin {ρ : Type} {t : RelationType} (label : String) (timing : Timing) (source : Source ρ)
    (target : Handle t) (select : Facts → ρ → Except Fault (Option t.Tuple)) : Step Unit :=
  setUp label (Setup.join source target timing select)

/-- Adds a rule that writes whole relations. -/
def addJoinMerge {ρ : Type} {t : RelationType} (label : String) (timing : Timing)
    (source : Source ρ) (target : Handle t)
    (select : Facts → ρ → Except Fault (Option t.Value)) : Step Unit :=
  setUp label (Setup.joinMerge source target timing select)

/-- Adds a rule that writes integers. -/
def addIntJoin {ρ : Type} (label : String) (timing : Timing) (source : Source ρ)
    (select : ρ → Option Int64) : IntHandle → Step Unit
  | .set h => addJoin label timing source h fun _ row => .ok (select row)
  | .max h => addJoin label timing source h fun _ row => .ok (select row)

/-- Adds a rule of the catalogue to a program.  The relations are looked up first: the sources,
then those that the selector reads, then the target. -/
def wire (label : String) (timing : Timing) : Wiring → Step Unit
  | .copy source target => do
    let g ← resolve label source
    let h ← resolve label target
    addJoin label timing (.of g) h fun _ tuple => .ok (some tuple)
  | .copyInt source target => do
    let g ← resolveInt label source
    let h ← resolveInt label target
    addIntJoin label timing g.source some h
  | .copyTexts source target => do
    let g ← resolve label source
    let h ← resolve label target
    addJoin label timing (.of g) h fun _ tuple => .ok (some tuple)
  | .copyText source target => do
    let g ← resolve label source
    let h ← resolve label target
    addJoin label timing (.of g) h fun _ tuple => .ok (some tuple)
  | .const target tuple => do
    let h ← resolve label target
    addJoin label timing .unit h fun _ () => .ok (some tuple)
  | .constMerge target value => do
    let h ← resolve label target
    addJoinMerge label timing .unit h fun _ () => .ok (some value)
  | .mergeFrom whole target => do
    let g ← resolve label whole
    let h ← resolve label target
    addJoinMerge label timing .unit h fun facts () => some <$> facts.get g
  | .size whole target => do
    let g ← resolve label whole
    let h ← resolve label target
    addJoin label timing .unit h fun facts () => countTuples g facts
  | .reaches reading need target => do
    let f ← resolve label reading
    let g ← resolve label need
    let h ← resolve label target
    addJoin label timing .unit h fun facts () => hasReached f g facts
  | .pair first second target => do
    let f ← resolve label first
    let g ← resolve label second
    let h ← resolve label target
    addJoin label timing (.product (.of f) (.of g)) h fun _ row => .ok (some row)
  | .compose first second target => do
    let f ← resolve label first
    let g ← resolve label second
    let h ← resolve label target
    addJoin label timing (.product (.of f) (.of g)) h fun _ row => .ok (composePairs row)
  | .entry source target => do
    let g ← resolve label source
    let h ← resolve label target
    addJoin label timing (.of g) h fun _ row => .ok (some ⟨row.1, ⟨row.2⟩⟩)
  | .mergeEntry source target => do
    let g ← resolve label source
    let h ← resolve label target
    addJoinMerge label timing (.of g) h fun _ row => .ok (some (.singleton row.1 ⟨row.2⟩))
  | .trueKeys source target => do
    let g ← resolve label source
    let h ← resolve label target
    addJoin label timing (.of g) h fun _ row =>
      .ok (if row.value.value then some row.key else none)
  | .gate guard source target => do
    let f ← resolve label guard
    let g ← resolve label source
    let h ← resolve label target
    addJoin label timing (.product (.of f) (.of g)) h fun _ row =>
      .ok (if row.1 then some row.2 else none)
  | .linear sources form target => do
    let gs ← sources.mapM (resolveInt label)
    let h ← resolveInt label target
    addIntJoin label timing (intRows gs) form.eval h

end Session

end Ratchet

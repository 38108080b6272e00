import LibPetri.Verification.GraphDecision
import LibPetri.Verification.OpenNet

/-! # The guarantee of a contract

What a quiescent marking breaks: the count clauses, and the places where a token is stranded.  A violation
carries its firing sequence, and of that the steps that touch the boundary of the subnet.
-/

namespace LibPetri.Verification

open LibPetri.Basis LibPetri.Core LibPetri.Runtime

/-! ## Counts in words -/

/-- `exactly 1`, `at most 1`, `at least 2`, `between 1 and 3`, `any number`. -/
def countPhrase (min : Nat) (max : WithTop ℕ) : String :=
  match max with
  | none => if min = 0 then "any number" else s!"at least {min}"
  | some max =>
    if min = max then s!"exactly {min}"
    else if min = 0 then s!"at most {max}"
    else s!"between {min} and {max}"

/-- `exactly 1 across {a, b}`. -/
def countAcross (min : Nat) (max : WithTop ℕ) (places : List PlaceName) : String :=
  countPhrase min max ++ " across \x7b" ++ ", ".intercalate places ++ "\x7d"

/-! ## Findings -/

/-- One thing a quiescent marking breaks. -/
inductive Finding
  | clause (clause : CountClause) (count : Nat) (bound : CountSide)
  | stranded (place : PlaceName) (count : Nat)

/-- The contract's rest set. -/
structure RestDeclaration where
  sinks : List PlaceName
  conditional : List ConditionalSinks

section Predicate

variable {V N : Type}

/-- Clause places, rest places and the environment's own places as sinks, each designed terminal as a
conditional sink. -/
def restDeclarationOf (contract : OpenNetContract V N) (closed : ClosedNet V N) : RestDeclaration where
  sinks := (contract.clauses.flatMap CountClause.places ++ contract.rest ++
    closed.environmentPlaces).eraseDups
  conditional := contract.terminals.map fun t => ⟨t.marker, t.excused⟩

/-- The waivers of the lower bounds. -/
def waiverMarkers (contract : OpenNetContract V N) : List PlaceName :=
  contract.terminals.map DesignedTerminal.marker

/-- The places that hold a stranded token. -/
def strandedPlaces (m : MarkingState) (sinkPlaces : List PlaceName)
    (conditional : List ConditionalSinks) : List PlaceName :=
  m.placesWithTokens.filter fun p => p ∉ restingNames m sinkPlaces conditional

/-- The places `m` strands, in code-point order. -/
def strandedNames (m : MarkingState) (rest : RestDeclaration) : List PlaceName :=
  (strandedPlaces m rest.sinks rest.conditional).insertionSort (· ≤ ·)

/-- What a quiescent marking breaks: clauses in contract order, then stranded places. -/
def quiescenceFindings (m : MarkingState) (contract : OpenNetContract V N) (rest : RestDeclaration) :
    List Finding :=
  (contract.clauses.filterMap fun clause =>
    (countViolation m clause.places clause.min clause.max (waiverMarkers contract)).map fun bound =>
      .clause clause (tokensAcross m clause.places) bound) ++
  (strandedNames m rest).map fun place => .stranded place (m.tokens place)

end Predicate

namespace Finding

/-- `clause` or `stranded`. -/
def kind : Finding → String
  | clause _ _ _ => "clause"
  | stranded _ _ => "stranded"

def subjectOf : Finding → String
  | clause c _ _ => c.name
  | stranded place _ => place

/-- The finding in words. -/
def describe : Finding → String
  | stranded place count =>
    s!"{place} holds {count} at quiescence, and nothing in the contract lets a token rest there"
  | clause c count .upper =>
    countAcross c.min c.max c.places ++
      s!" at quiescence, found {count} (an upper bound holds under a terminal too)"
  | clause c count .lower =>
    countAcross c.min c.max c.places ++ s!" at quiescence, found {count}"

end Finding

/-! ## Violations -/

inductive ContractViolationKind
  | clause
  | stranded
  | termination
  deriving DecidableEq, Repr

/-- A firing that touches the boundary: an environment step, or a change on a contract place. -/
structure PortStep where
  /-- The position of the firing, counting from 1. -/
  step : Nat
  transition : String
  environment : Option EnvironmentStep
  changes : List (PlaceName × Int)
  deriving DecidableEq

/-- One broken part of the contract, with a firing sequence that breaks it. -/
structure ContractViolation where
  kind : ContractViolationKind
  subject : String
  detail : String
  transitions : List String
  markings : List MarkingState
  /-- Where the repeating cycle of a run that never rests starts. -/
  cycleStart : Option Nat
  portTrace : List PortStep
  /-- Whether the transitions are a firing sequence in order. -/
  confirmed : Bool
  deriving DecidableEq

/-- The changes of one firing on the traced places. -/
def portChanges (tracedPlaces : List PlaceName) (before after : MarkingState) :
    List (PlaceName × Int) :=
  tracedPlaces.filterMap fun p =>
    let delta : Int := (after.tokens p : Int) - before.tokens p
    if delta ≠ 0 then some (p, delta) else none

/-- The port trace of a firing sequence, read off its consecutive markings. -/
def portTrace (environment : List (String × EnvironmentStep)) (tracedPlaces : List PlaceName)
    (transitions : List String) (markings : List MarkingState) : List PortStep :=
  if markings.length = transitions.length + 1 then
    ((transitions.zip (markings.zip (markings.drop 1))).zipIdx).filterMap
      fun ((transition, before, after), i) =>
        let changes := portChanges tracedPlaces before after
        let env := environment.lookup transition
        if changes ≠ [] ∨ env.isSome then some ⟨i + 1, transition, env, changes⟩ else none
  else []

/-- A violation with its port trace. -/
def contractViolation {V N : Type} (closed : ClosedNet V N) (tracedPlaces : List PlaceName)
    (kind : ContractViolationKind) (subject detail : String) (transitions : List String)
    (markings : List MarkingState) (cycleStart : Option Nat) (confirmed : Bool) :
    ContractViolation :=
  { kind, subject, detail, transitions, markings, cycleStart, confirmed
    portTrace := portTrace closed.environment tracedPlaces transitions markings }

end LibPetri.Verification

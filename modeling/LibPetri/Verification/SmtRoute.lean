import LibPetri.Verification.OpenNetPredicate

/-! # The contract as queries

The parts of a contract that are asked of the encoder when the graph does not close: stranding as deadlock
freedom, each count clause as a count at quiescence.
-/

namespace LibPetri.Verification

open LibPetri.Basis LibPetri.Core LibPetri.Runtime

/-- The counterexample of a violated query. -/
structure QueryResult where
  counterexampleConfirmed : Bool
  counterexampleTrace : List MarkingState
  counterexampleTransitions : List String

/-- A confirmed counterexample ends in the quiescent marking it reached. -/
def QueryResult.quiescentMarking (result : QueryResult) : Option MarkingState :=
  if result.counterexampleConfirmed then result.counterexampleTrace.getLast? else none

/-- What a violated query reports: kind, subject and detail. -/
structure Reported where
  kind : ContractViolationKind
  subject : String
  detail : String
  deriving DecidableEq

structure Query where
  subject : String
  property : SmtProperty
  sinks : List PlaceName
  conditional : List ConditionalSinks
  /-- The violation a violated query means. -/
  onViolated : QueryResult → Reported

/-- One part of the contract: a query to run, or a clause no marking can fail. -/
inductive Part
  | query (query : Query)
  | vacuous (subject detail : String)

section Parts

variable {V N : Type} (closed : ClosedNet V N) (contract : OpenNetContract V N)

/-- What a query on stranding reports: the stranded places, where the replay names a marking. -/
def strandingReported (rest : RestDeclaration) (result : QueryResult) : Reported :=
  let stranded := match result.quiescentMarking with
    | none => []
    | some last => strandedNames last rest
  let names := ", ".intercalate stranded
  { kind := .stranded
    subject := if stranded = [] then "stranding" else names
    detail :=
      if stranded = [] then
        "the solver found a reachable quiescent marking that leaves a token where the contract " ++
          "lets none rest"
      else
        let hold := if stranded.length = 1 then "holds" else "hold"
        s!"{names} {hold} a token at quiescence, and nothing in the contract lets one rest there" }

def strandingQuery : Query :=
  let rest := restDeclarationOf contract closed
  { subject := "stranding"
    property := .deadlockFree
    sinks := rest.sinks
    conditional := rest.conditional
    onViolated := strandingReported rest }

def clausePart (clause : CountClause) : Part :=
  let across := countAcross clause.min clause.max clause.places
  if clause.min = 0 ∧ clause.max = ⊤ then .vacuous clause.name s!"{across} at quiescence"
  else
    .query
      { subject := clause.name
        property := .quiescentCount clause.places clause.min clause.max (waiverMarkers contract)
        sinks := []
        conditional := []
        onViolated := fun result =>
          { kind := .clause
            subject := clause.name
            detail := match result.quiescentMarking with
              | none => s!"{across} at quiescence: the solver found a quiescent marking outside it"
              | some last => s!"{across} at quiescence, found {tokensAcross last clause.places}" } }

def partsFor : List Part :=
  .query (strandingQuery closed contract) :: contract.clauses.map (clausePart contract)

end Parts

end LibPetri.Verification

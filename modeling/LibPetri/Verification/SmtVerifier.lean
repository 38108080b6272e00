import LibPetri.Verification.InFlight
import LibPetri.Verification.StateSpaceCache

/-! # The enumeration route of the verifier

What the verifier derives from its configuration before any route runs, and the enumeration with and
without a cache.
-/

namespace LibPetri.Verification

open LibPetri.Basis LibPetri.Core LibPetri.Runtime

variable {V N : Type}

/-! ## Terminal places -/

/-- The net with each of its terminal places inhibiting every transition.  It declares none. -/
def withTerminalInhibitors (net : PetriNet V N) : PetriNet V N :=
  if net.terminals = [] then net
  else
    rebuilt net net.places
      (net.transitions.map fun t =>
        { t with inhibitors := t.inhibitors ++ net.terminals.filter fun p => p ∉ t.inhibitors }) []

/-- The places each terminal excuses while it is marked. -/
def terminalExcusedPlaces (net : PetriNet V N) : List PlaceName := net.places

/-- Adds a terminal to the sinks. -/
def addTerminalSink (sinkPlaces : List PlaceName) (p : PlaceName) : List PlaceName :=
  if p ∈ sinkPlaces then sinkPlaces else sinkPlaces ++ [p]

/-- Excuses places under a terminal. -/
def addTerminalExcuse (excused : List PlaceName) (conditionalSinks : List ConditionalSinks)
    (p : PlaceName) : List ConditionalSinks :=
  if conditionalSinks.any fun c => c.marker = p then
    conditionalSinks.map fun c =>
      if c.marker = p then { c with places := c.places ++ excused.filter fun q => q ∉ c.places } else c
  else conditionalSinks ++ [⟨p, excused⟩]

/-! ## Inert places -/

/-- The net with each place that `marking` marks and the net does not declare. -/
def withInertMarkedPlaces (net : PetriNet V N) (marking : MarkingState) : PetriNet V N :=
  let inert := marking.placesWithTokens.filter fun p => p ∉ net.places
  if inert = [] then net else rebuilt net (net.places ++ inert) net.transitions net.terminals

/-! ## The verifier -/

/-- The configuration of one verification: the net instance and the place objects of the caller, and the
declarations that reach the enumeration. -/
structure SmtVerifier (I O : Type) where
  callerNet : I
  initialMarking : MarkingState
  objectOf : PlaceName → O
  property : SmtProperty
  sinkPlaces : List PlaceName
  conditionalSinks : List ConditionalSinks
  environmentPlaces : List PlaceName
  environmentSteps : List String
  carrierPlaces : List PlaceName
  assumeAtomicFiring : Bool
  /-- Whether Route B will read conflict priority. -/
  conflictPruning : Bool
  partialOrderReduction : Bool
  enumerationMaxClasses : Nat

/-- What every route reads. -/
structure Prepared (V N : Type) where
  net : PetriNet V N
  sinkPlaces : List PlaceName
  conditionalSinks : List ConditionalSinks
  inFlightSplit : List String
  inFlightRefusal : Option String

namespace SmtVerifier

variable {I O : Type} (netOf : I → PetriNet V N) (verifier : SmtVerifier I O)

/-- The demand of a verification.  Conflict priority is turned off where its split cannot be made. -/
def splitDemand (net : PetriNet V N) : SplitDemand :=
  let terminal := quiescentCountDemand net verifier.property
  let conflict := if verifier.conflictPruning then conflictDemand net else emptyDemand
  let demand := unionDemand terminal conflict
  let split := inFlightTransitionsFor net verifier.environmentSteps demand
  if conflict.forced ≠ [] ∧ (firstUnsplittable net verifier.carrierPlaces split).isSome then terminal
  else demand

/-- The in-flight split of a net: the net, the transitions split, and the refusal. -/
def applyInFlight (net : PetriNet V N) : PetriNet V N × List String × Option String :=
  if verifier.assumeAtomicFiring then (net, [], none)
  else
    match splitInFlightFor net verifier.carrierPlaces verifier.environmentSteps
        (verifier.splitDemand net) with
    | .atomic => (net, [], none)
    | .split rewritten split => (rewritten, split, none)
    | .refused reason => (net, [], some reason)

/-- The terminal places of a net as inhibitors, sinks and conditional sinks. -/
def applyNetTerminals (net : PetriNet V N) (split : List String) (refusal : Option String) :
    Prepared V N where
  net := withTerminalInhibitors net
  sinkPlaces := net.terminals.foldl addTerminalSink verifier.sinkPlaces
  conditionalSinks :=
    net.terminals.foldl (addTerminalExcuse (terminalExcusedPlaces net)) verifier.conditionalSinks
  inFlightSplit := split
  inFlightRefusal := refusal

/-- The inert places, the in-flight split and the terminal rewrite, in that order. -/
def prepare : Prepared V N :=
  let net := withInertMarkedPlaces (netOf verifier.callerNet) verifier.initialMarking
  let (net, split, refusal) := verifier.applyInFlight net
  verifier.applyNetTerminals net split refusal

/-- Whether the enumeration reads a reduced graph: a quiescence property, on a net without a drained
forward. -/
def stubbornEnumeration (net : PetriNet V N) : Bool :=
  match verifier.property with
  | .deadlockFree | .terminatesAtSink | .joinedOrDeadLettered _ | .quiescentCount _ _ _ _ =>
    verifier.partialOrderReduction && !drainedForward net
  | _ => false

/-- Whether the enumeration runs. -/
def enumerationRoute : Bool :=
  let prepared := verifier.prepare netOf
  prepared.inFlightRefusal.isNone && prepared.net.transitions.all (fun t => t.matchSpec.isNone) &&
    verifier.environmentPlaces = [] && 0 < verifier.enumerationMaxClasses && isUntimed prepared.net

/-- The enumeration without a cache. -/
def enumerateUncached : Except Thrown ScgOutcome :=
  let prepared := verifier.prepare netOf
  ScgVerifier.verifyViaStateClassGraph prepared.net verifier.initialMarking verifier.property
    prepared.sinkPlaces verifier.enumerationMaxClasses prepared.conditionalSinks
    (verifier.stubbornEnumeration prepared.net)

/-- The caller's own marking stands in for the first of a trace, and a truncation is reported at the
caller's budget where it was not built. -/
def ownOutcome (declined : Bool) : ScgOutcome → ScgOutcome
  | .decided verdict (_ :: trace) transitions classCount truncated =>
    .decided verdict (verifier.initialMarking :: trace) transitions classCount truncated
  | .decided verdict [] transitions classCount truncated =>
    .decided verdict [] transitions classCount truncated
  | .truncated classCount => .truncated (if declined then verifier.enumerationMaxClasses else classCount)

/-- Reads the outcome off what the cache answered. -/
def decideLookup (lookup : StateSpaceLookup V N) : Except Thrown ScgOutcome := do
  let prepared := verifier.prepare netOf
  let decided ← ScgVerifier.decideOverStateSpace lookup.space.graph verifier.property
    prepared.sinkPlaces prepared.conditionalSinks lookup.isDeclined []
  return verifier.ownOutcome lookup.isDeclined decided

variable [DecidableEq I] [DecidableEq O]

/-- What the cache answers, and the cache behind it. -/
def lookup (cache : StateSpaceCache V N I O) :
    Except Thrown (StateSpaceLookup V N) × StateSpaceCache V N I O :=
  let prepared := verifier.prepare netOf
  cache.resolveStateSpace verifier.callerNet prepared.inFlightSplit prepared.net
    verifier.initialMarking verifier.objectOf verifier.enumerationMaxClasses
    (verifier.stubbornEnumeration prepared.net)

/-- The enumeration through a cache. -/
def enumerate (cache : StateSpaceCache V N I O) : Except Thrown ScgOutcome × StateSpaceCache V N I O :=
  match verifier.lookup netOf cache with
  | (.error e, cache) => (.error e, cache)
  | (.ok lookup, cache) => (verifier.decideLookup netOf lookup, cache)

/-- One verification: only where the enumeration runs does it come to the cache. -/
def verify (cache : StateSpaceCache V N I O) : StateSpaceCache V N I O :=
  if verifier.enumerationRoute netOf then (verifier.enumerate netOf cache).2 else cache

end SmtVerifier

end LibPetri.Verification

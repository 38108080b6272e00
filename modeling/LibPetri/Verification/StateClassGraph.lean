import LibPetri.Basis.Worklist
import LibPetri.Verification.Dbm
import LibPetri.Verification.StubbornSets

/-! # The state class graph

A class is a marking with the firing domain of its enabled transitions.  The graph is explored in
breadth-first order from the initial class; classes with one key are one class.  Every firing is one
atomic step, and every outcome of a firing has its own successor.
-/

namespace LibPetri.Verification

open LibPetri.Basis LibPetri.Core LibPetri.Runtime

/-! ## Environment places -/

inductive EnvironmentAnalysisMode
  | alwaysAvailable
  | bounded (maxTokens : Nat)
  | arrivals (minTokens maxTokens : Nat)
  | ignore
  deriving DecidableEq, Repr

/-- The environment places of an analysis, and how it treats them. -/
structure Environment where
  places : List PlaceName
  mode : EnvironmentAnalysisMode

def arrivalsNotModelled (location : String) : Thrown :=
  .error "Error" (s!"{location}: EnvironmentAnalysisMode.arrivals(k) is a net rewrite applied by " ++
    "SmtVerifier (VER-006); close the net first (closeArrivals) and analyse it without environment " ++
    "places")

/-! ## Classes -/

variable {V N : Type}

/-- A marking with the firing domain of the transitions it enables. -/
structure StateClass (net : PetriNet V N) where
  marking : MarkingState
  firingDomain : DBM
  enabledTransitions : List (NetTransition net)

namespace StateClassGraph

variable {net : PetriNet V N}

def classKey (sc : StateClass net) : String :=
  sc.marking.toString ++ "|" ++ sc.firingDomain.zoneKey

/-- The order of an enabled set by transition name, ties kept as they come.  None where the set is in
order. -/
def canonicalOrder (ts : List (NetTransition net)) : Option (List Nat) :=
  let name (i : Nat) : String := (ts[i]?.map fun t => (transitionAt t).name).getD ""
  if (List.range (ts.length - 1)).all fun i => name i ≤ name (i + 1) then none
  else some ((List.range ts.length).insertionSort fun a b => name a ≤ name b)

def permute {α : Type} (items : List α) (order : List Nat) : List α :=
  order.filterMap fun k => items[k]?

/-- The clock of a newly enabled transition, in seconds. -/
def clockOf (untimed : Bool) (t : NetTransition net) : Clock :=
  let timing := if untimed then Timing.immediate else (transitionAt t).timing
  ⟨(transitionAt t).name, timing.earliest / 1000, ((timing.latest / 1000 : ℚ) : Bound)⟩

/-! ## Enabling and firing -/

variable (env : Environment)

/-- Whether an environment place is supplied by the analysis. -/
def supplied (place : PlaceName) : Bool := place ∈ env.places ∧ env.mode ≠ .ignore

/-- The `arrivals` mode does not get here with environment places. -/
def checkPlaceEnabled (place : PlaceName) (required : Nat) (marking : MarkingState) : Bool :=
  if place ∉ env.places then required ≤ marking.tokens place
  else
    match env.mode with
    | .alwaysAvailable => true
    | .bounded maxTokens => required ≤ maxTokens
    | .arrivals _ _ => false
    | .ignore => required ≤ marking.tokens place

def isEnabled (t : Transition V N) (marking : MarkingState) : Bool :=
  (t.inputSpecs.all fun spec => checkPlaceEnabled env spec.place spec.requiredCount marking) &&
    (t.reads.all fun p => checkPlaceEnabled env p 1 marking) &&
    t.inhibitors.all fun p => !marking.hasTokens p

variable (net) in
def findEnabledTransitions (marking : MarkingState) : List (NetTransition net) :=
  (List.finRange _).filter fun t => isEnabled env (transitionAt t) marking

/-- `consumptionCount(spec, available)`, where the tokens suffice. -/
def inputConsumeCount (spec : In) (available : Nat) : Nat :=
  match spec with
  | .one _ => 1
  | .exactly count _ => count
  | .all _ => available
  | .atLeast _ _ => available

/-- Takes the tokens of one input.  `marking` is the marking the firing started from. -/
def consumeInput (marking builder : MarkingState) (spec : In) : MarkingState :=
  let available := marking.tokens spec.place
  if available < spec.requiredCount then builder
  else if supplied env spec.place then builder
  else builder.removeTokens spec.place (inputConsumeCount spec available)

/-- The first half of a firing: inputs consumed, reset places drained. -/
def consumeInputs (marking : MarkingState) (t : Transition V N) : MarkingState :=
  t.resets.foldl (fun builder p => builder.setTokens p 0)
    (t.inputSpecs.foldl (consumeInput env marking) marking)

/-- The tokens a firing consumes from `source`. -/
def drainedFrom (marking : MarkingState) (t : Transition V N) (source : PlaceName) : Nat :=
  match t.inputSpecs.find? fun s => s.place = source with
  | none => 0
  | some spec =>
    if supplied env spec.place then spec.requiredCount
    else
      let available := marking.tokens spec.place
      if available < spec.requiredCount then available else inputConsumeCount spec available

/-- The second half of a firing: the tokens of its outcome. -/
def produceOutputs (marking intermediate : MarkingState) (t : Transition V N) (outcome : Outcome) :
    MarkingState :=
  outcome.deposits.foldl (fun builder d =>
    builder.addTokens d.1 (depositCount (drainedFrom env marking t) d.2)) intermediate

/-! ## Classes of the graph -/

section Classes

variable (untimed : Bool)

variable (net) in
def initialStateClass (initialMarking : MarkingState) : StateClass net :=
  let found := findEnabledTransitions net env initialMarking
  let enabledTransitions := match canonicalOrder found with
    | none => found
    | some order => permute found order
  { marking := initialMarking
    firingDomain := (DBM.create (enabledTransitions.map (clockOf untimed))).letTimePass
    enabledTransitions }

/-- One way a firing of a transition can end. -/
structure VirtualTransition (net : PetriNet V N) where
  transition : NetTransition net
  branchIndex : Nat
  outcome : Outcome

/-- An enabling condition beyond the counts: in the intermediate marking, and in the new one. -/
structure EnablingGate (net : PetriNet V N) where
  between : NetTransition net → Bool
  after : NetTransition net → Bool

def expandTransition (t : NetTransition net) : List (VirtualTransition net) :=
  (outcomes (transitionAt t)).mapIdx fun i outcome => ⟨t, i, outcome⟩

/-- The positions of the transitions whose clock persists: they are not the fired one and stay enabled
across the whole firing. -/
def persistentIndices (gate : Option (EnablingGate net)) (current : StateClass net)
    (fired : NetTransition net) (intermediate : MarkingState)
    (newEnabledAll : List (NetTransition net)) : List Nat :=
  (List.range current.enabledTransitions.length).filter fun i =>
    match current.enabledTransitions[i]? with
    | none => false
    | some u => u ≠ fired && newEnabledAll.contains u && isEnabled env (transitionAt u) intermediate &&
        gate.all fun g => g.between u

/-- The class of a marking and a domain, its clocks put in the canonical order. -/
def inCanonicalOrder (marking : MarkingState) (domain : DBM)
    (enabled : List (NetTransition net)) : StateClass net :=
  match canonicalOrder enabled with
  | none => ⟨marking, domain.letTimePass, enabled⟩
  | some order => ⟨marking, (domain.permuted order).letTimePass, permute enabled order⟩

/-- The class behind the firing of an enabled transition. -/
def computeSuccessor (gate : Option (EnablingGate net)) (current : StateClass net)
    (fired : VirtualTransition net) : StateClass net :=
  let t := transitionAt fired.transition
  let intermediate := consumeInputs env current.marking t
  let newMarking := produceOutputs env current.marking intermediate t fired.outcome
  let newEnabledAll := (findEnabledTransitions net env newMarking).filter fun u =>
    gate.all fun g => g.after u
  let indices := persistentIndices env gate current fired.transition intermediate newEnabledAll
  let persistent := permute current.enabledTransitions indices
  let newlyEnabled := newEnabledAll.filter fun u => !persistent.contains u
  let firedDBM := current.firingDomain.fireTransition
    (current.enabledTransitions.idxOf fired.transition) (newlyEnabled.map (clockOf untimed)) indices
  inCanonicalOrder newMarking firedDBM (persistent ++ newlyEnabled)

/-- The transitions the exploration expands at a class. -/
def expand (stubborn : Bool) (current : StateClass net) : List (NetTransition net) :=
  if stubborn then StubbornSets.select current.marking current.enabledTransitions
  else current.enabledTransitions

/-- The label of an edge: the transition, and which of its outcomes. -/
abbrev EdgeLabel (net : PetriNet V N) : Type := NetTransition net × Nat

/-- The successors of a class, in the order the exploration meets them. -/
def successors (stubborn : Bool) (current : StateClass net) :
    List (EdgeLabel net × StateClass net) :=
  (expand stubborn current).flatMap fun t =>
    (expandTransition t).filterMap fun vt =>
      let successor := computeSuccessor env untimed none current vt
      if successor.firingDomain.isEmpty then none
      else some ((vt.transition, vt.branchIndex), successor)

end Classes

end StateClassGraph

/-- The options of a build. -/
structure StateClassGraphOptions where
  untimed : Bool := false
  stubborn : Bool := false
  deriving DecidableEq

/-- An explored graph: its classes in the order of their discovery, the outgoing edges of the expanded
ones, and whether it is complete. -/
abbrev StateClassGraph (net : PetriNet V N) : Type :=
  Exploration (StateClass net) (StateClassGraph.EdgeLabel net)

namespace StateClassGraph

variable (net : PetriNet V N) (initialMarking : MarkingState) (maxClasses : Nat)

def build (env : Environment) (options : StateClassGraphOptions) :
    Except Thrown (StateClassGraph net) :=
  match env.mode, env.places with
  | .arrivals _ _, _ :: _ => .error (arrivalsNotModelled "StateClassGraph.build")
  | _, _ => .ok (Exploration.build classKey (successors env options.untimed options.stubborn)
      maxClasses (initialStateClass net env options.untimed initialMarking))

end StateClassGraph

end LibPetri.Verification

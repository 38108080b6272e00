import LibPetri.Verification.BranchOutcomes
import LibPetri.Verification.MarkingState

/-! # Open nets and their closure

What a subnet promises when its ports are played by the environment, and the closed net that its contract
makes of it: each arrival group becomes a source of the tokens it must deliver, with a transition to each
of its places, and a source of the optional ones, which may also be declined.
-/

namespace LibPetri.Verification

open LibPetri.Basis LibPetri.Core LibPetri.Runtime

/-! ## Contracts -/

/-- Between `min` and `max` tokens in total, each onto one of `places`. -/
structure ArrivalGroup where
  places : List PlaceName
  min : Nat
  max : Nat
  some_place : places ≠ []
  places_nodup : places.Nodup
  min_le : min ≤ max
  some_token : 1 ≤ max

/-- At every quiescent marking the tokens across `places` number between `min` and `max`. -/
structure CountClause where
  name : String
  places : List PlaceName
  min : Nat
  max : WithTop ℕ
  places_nodup : places.Nodup

/-- While `marker` holds a token, lower bounds are waived and tokens may rest on `excused`. -/
structure DesignedTerminal where
  marker : PlaceName
  excused : List PlaceName

/-- Every place an arc of `t` touches. -/
def transitionPlaces {V N : Type} (t : Transition V N) : List PlaceName :=
  t.inputSpecs.map In.place ++ t.reads ++ t.inhibitors ++ t.resets ++ t.outputPlaces

structure OpenNetContract (V N : Type) where
  initialMarking : MarkingState
  arrivals : List ArrivalGroup
  clauses : List CountClause
  rest : List PlaceName
  terminals : List DesignedTerminal
  environment : List (Transition V N)
  requiresTermination : Bool
  clauses_nodup : (clauses.map CountClause.name).Nodup
  rest_nodup : rest.Nodup
  markers_nodup : (terminals.map DesignedTerminal.marker).Nodup
  environment_nodup : (environment.map Transition.name).Nodup

namespace OpenNetContract

variable {V N : Type} (contract : OpenNetContract V N)

/-- Every place the contract names, excused places left out, in first-mention order. -/
def places : List PlaceName :=
  (contract.initialMarking.placesWithTokens ++ contract.arrivals.flatMap ArrivalGroup.places ++
    contract.clauses.flatMap CountClause.places ++ contract.rest ++
      contract.terminals.map DesignedTerminal.marker ++
        contract.environment.flatMap transitionPlaces).eraseDups

end OpenNetContract

/-! ## The closure -/

/-- What an environment transition of the closure does. -/
inductive EnvironmentStep
  | arrival (group : Nat) (place : PlaceName)
  | decline (group : Nat)
  | transition
  deriving DecidableEq, Repr

structure ClosedNet (V N : Type) where
  net : PetriNet V N
  initialMarking : MarkingState
  environment : List (String × EnvironmentStep)
  environmentPlaces : List PlaceName
  undeclared : List PlaceName

namespace Closure

variable {V N : Type}

def arrivalsName (group : Nat) : PlaceName := s!"env:arrivals[{group}]"

def optionalName (group : Nat) : PlaceName := s!"env:optional[{group}]"

def arriveName (group : Nat) (optional : Bool) (target : PlaceName) : String :=
  let mark := if optional then "?" else ""
  s!"env:arrive{mark}[{group}]:{target}"

def declineName (group : Nat) : String := s!"env:decline[{group}]"

theorem source_nodup (source : PlaceName) : ([In.one source].map In.place).Nodup :=
  List.nodup_singleton _

theorem source_required (source : PlaceName) :
    ∀ spec ∈ [In.one source], 1 ≤ spec.requiredCount := fun spec mem => by
  rw [List.mem_singleton.mp mem]
  exact le_rfl

/-- A transition that takes one token of a source. -/
def sourceTransition (name : String) (source : PlaceName) (outputSpec : Option Out) :
    Transition V N where
  name := name
  inputSpecs := [.one source]
  outputSpec := outputSpec
  inhibitors := []
  reads := []
  resets := []
  timing := .immediate
  priority := 0
  placeAlias := []
  matchSpec := none
  inputs_nodup := source_nodup source
  required_pos := source_required source
  timing_valid := trivial
  keys_nodup := fun _ mem => by cases mem
  keys_inputs := fun _ mem => by cases mem

/-- What the closure has added so far. -/
structure Added (V N : Type) where
  taken : List String
  marking : MarkingState
  transitions : List (Transition V N)
  steps : List (String × EnvironmentStep)

/-- Takes a name that is not taken. -/
def fresh (taken : List String) (name : String) : Except Thrown (List String) :=
  if name ∈ taken then
    .error (.error "Error"
      s!"VER-022: closing the net would add '{name}', which the net already declares")
  else .ok (taken ++ [name])

/-- A source that holds `count` tokens. -/
def addSource (source : PlaceName) (count : Nat) (added : Added V N) : Except Thrown (Added V N) := do
  let taken ← fresh added.taken source
  return { added with taken, marking := added.marking.setTokens source count }

/-- A transition of a source. -/
def addTransition (name : String) (source : PlaceName) (outputSpec : Option Out)
    (step : EnvironmentStep) (added : Added V N) : Except Thrown (Added V N) := do
  let taken ← fresh added.taken name
  return { added with
    taken
    transitions := added.transitions ++ [sourceTransition name source outputSpec]
    steps := added.steps ++ [(name, step)] }

/-- The transition that moves a token of a source to a target. -/
def inject (group : Nat) (source : PlaceName) (optional : Bool) (added : Added V N)
    (target : PlaceName) : Except Thrown (Added V N) :=
  addTransition (arriveName group optional target) source (some (.place target))
    (.arrival group target) added

/-- The source of the tokens a group must deliver. -/
def addArrivals (i : Nat) (group : ArrivalGroup) (added : Added V N) : Except Thrown (Added V N) :=
  if 0 < group.min then do
    let added ← addSource (arrivalsName i) group.min added
    group.places.foldlM (inject i (arrivalsName i) false) added
  else .ok added

/-- The source of the tokens a group may deliver or decline. -/
def addOptional (i : Nat) (group : ArrivalGroup) (added : Added V N) : Except Thrown (Added V N) :=
  if group.min < group.max then do
    let added ← addSource (optionalName i) (group.max - group.min) added
    let added ← group.places.foldlM (inject i (optionalName i) true) added
    addTransition (declineName i) (optionalName i) none (.decline i) added
  else .ok added

def addGroup (added : Added V N) (group : ArrivalGroup × Nat) : Except Thrown (Added V N) := do
  addOptional group.2 group.1 (← addArrivals group.2 group.1 added)

end Closure

section Closing

open Closure

variable {V N : Type} (net : PetriNet V N) (contract : OpenNetContract V N)

/-- The places that only the contract's environment transitions touch. -/
def environmentPlacesOf : List PlaceName :=
  ((contract.environment.flatMap transitionPlaces).filter fun p => p ∉ net.places).eraseDups

/-- The places that only the contract names. -/
def undeclaredPlaces : List PlaceName :=
  ((contract.places ++ contract.terminals.flatMap DesignedTerminal.excused).filter fun p =>
    p ∉ net.places ∧ p ∉ environmentPlacesOf net contract).eraseDups

/-- Why a transition may not be in a net with these terminals: a terminal place may be no input and no
read. -/
def terminalRefusal (netName : String) (terminals : List PlaceName) (t : Transition V N) :
    Option String :=
  let name := t.name
  match (t.inputSpecs.map In.place).find? (· ∈ terminals), t.reads.find? (· ∈ terminals) with
  | some p, _ => some (s!"Net '{netName}': terminal place '{p}' is an input of transition " ++
      s!"'{name}'. A terminal place ends the run once marked, so no transition may consume " ++
      "it (EXEC-042).")
  | none, some p => some (s!"Net '{netName}': terminal place '{p}' is a read-arc place of " ++
      s!"transition '{name}'. A terminal place ends the run once marked, so no transition may read " ++
      "it (EXEC-042).")
  | none, none => none

def requireWellFormedTerminals (netName : String) (terminals : List PlaceName)
    (transitions : List (Transition V N)) : Except Thrown Unit :=
  match transitions.findSome? (terminalRefusal netName terminals) with
  | some text => .error (.error "Error" text)
  | none => .ok ()

/-- The places a transition adds to a net that is built. -/
def collectedPlaces (t : Transition V N) : List PlaceName :=
  t.inputSpecs.map In.place ++ t.outputPlaces ++ t.inhibitors ++ t.reads ++ t.resets

/-- The places of the closed net: the net's, those that only the contract names, and those of the arcs. -/
def closedPlaces (transitions : List (Transition V N)) : List PlaceName :=
  (net.places ++ undeclaredPlaces net contract ++ transitions.flatMap collectedPlaces ++
    net.terminals).eraseDups

theorem terminals_subset_closedPlaces (transitions : List (Transition V N)) :
    ∀ p ∈ net.terminals, p ∈ closedPlaces net contract transitions := fun p mem => by
  simp [closedPlaces, mem]

/-- What the closure starts from: the names of the net, of the environment transitions and of their
places. -/
def closingNames : Except Thrown (List String) := do
  let taken ← (contract.environment.map Transition.name).foldlM fresh
    (net.places ++ net.transitions.map Transition.name)
  return taken ++ environmentPlacesOf net contract

/-- The net closed by the environment of a contract. -/
def closeOpenNet : Except Thrown (ClosedNet V N) := do
  let taken ← closingNames net contract
  let added ← contract.arrivals.zipIdx.foldlM addGroup ⟨taken, contract.initialMarking, [], []⟩
  let name := s!"{net.name}+environment"
  let transitions := net.transitions ++ contract.environment ++ added.transitions
  requireWellFormedTerminals name net.terminals transitions
  return {
    net :=
      { name
        places := closedPlaces net contract transitions
        transitions
        terminals := net.terminals
        terminals_declared := terminals_subset_closedPlaces net contract transitions }
    initialMarking := added.marking
    environment := contract.environment.map (fun t => (t.name, .transition)) ++ added.steps
    environmentPlaces := environmentPlacesOf net contract
    undeclared := undeclaredPlaces net contract }

end Closing

end LibPetri.Verification

import LibPetri.Verification.SccAnalyzer
import LibPetri.Verification.SmtVerifier

/-! # Liveness on the state class graph

The analysis builds the graph of the net in its two-step form, splits it into strongly connected components and
reads both liveness properties off the terminal ones and the classes a goal class is reached from.  Classes go by
their position in the graph.
-/

namespace LibPetri.Verification

open LibPetri.Basis LibPetri.Core LibPetri.Runtime

variable {V N : Type}

/-! ## Queries of the graph -/

namespace StateClassGraph

variable {net : PetriNet V N} (g : StateClassGraph net)

/-- All outgoing edges of a class. -/
def outgoingBranchEdges (i : Nat) : List (EdgeLabel net × Nat) := g.rows.getD i []

def successorsOf (i : Nat) : List Nat := ((outgoingBranchEdges g i).map Prod.snd).eraseDups

def predecessorsOf (j : Nat) : List Nat :=
  (List.range g.classes.length).filter fun i => (outgoingBranchEdges g i).any fun edge => edge.2 = j

/-- The transitions with an edge from a class. -/
def enabledTransitionsOf (i : Nat) : List (NetTransition net) :=
  ((outgoingBranchEdges g i).map fun edge => edge.1.1).eraseDups

def branchEdges (i : Nat) (t : NetTransition net) : List (EdgeLabel net × Nat) :=
  (outgoingBranchEdges g i).filter fun edge => edge.1.1 = t

end StateClassGraph

/-- The name a completion step fires for; every other transition fires for its own. -/
def sourceTransitionName (net : PetriNet V N) (name : String) : String :=
  match net.transitions.find? fun t => t.name = name with
  | some t => if isCompletion t then String.ofList (name.toList.drop "complete:".toList.length) else name
  | none => name

namespace TimePetriNetAnalyzer

/-- The net whose graph is built: split where that is possible, and stopped at its terminal places. -/
def analysedNet (net : PetriNet V N) : PetriNet V N :=
  withTerminalInhibitors (match splitInFlight net [] [] with
    | .split rewritten _ => rewritten
    | .atomic | .refused _ => net)

section Graph

variable {net : PetriNet V N} (g : StateClassGraph net)

def goalClasses (goalPlaces : List PlaceName) : List Nat :=
  (List.range g.classes.length).filter fun i =>
    (g.classes[i]?).any fun sc => sc.marking.hasTokensInAny goalPlaces

/-- Takes a class that has not been met into the set and the queue. -/
def admitPredecessor (met : List Nat × List Nat) (pred : Nat) : List Nat × List Nat :=
  if pred ∈ met.1 then met else (met.1 ++ [pred], met.2 ++ [pred])

/-- The loop over the queue.  Every class is queued at most once, so as many turns as there are classes do. -/
def backwardFrom : Nat → List Nat → List Nat → List Nat
  | 0, reachable, _ => reachable
  | _ + 1, reachable, [] => reachable
  | fuel + 1, reachable, current :: queue =>
    let met := (StateClassGraph.predecessorsOf g current).foldl admitPredecessor (reachable, queue)
    backwardFrom fuel met.1 met.2

/-- The classes from which a goal is reached. -/
def computeBackwardReachability (goals : List Nat) : List Nat :=
  backwardFrom g (g.classes.length + 1) goals goals

/-- The names fired by edges inside a component. -/
def transitionsInSCC (scc : List Nat) : List String :=
  scc.flatMap fun i => (StateClassGraph.enabledTransitionsOf g i).flatMap fun t =>
    ((StateClassGraph.branchEdges g i t).filter fun edge => edge.2 ∈ scc).map fun _ =>
      sourceTransitionName net (transitionAt t).name

end Graph

/-- What the analysis returns; the graph and the report's text are left out. -/
structure LivenessResult where
  allSCCs : List (List Nat)
  terminalSCCs : List (List Nat)
  goalClasses : List Nat
  canReachGoal : List Nat
  isGoalLive : Bool
  isL4Live : Bool
  isComplete : Bool
  deriving DecidableEq

/-- The phases after the graph is built, for the transitions of the caller's net. -/
def liveness {net : PetriNet V N} (g : StateClassGraph net) (goalPlaces : List PlaceName)
    (allTransitions : List String) : Option LivenessResult := do
  let classes := List.range g.classes.length
  let goals := goalClasses g goalPlaces
  let allSCCs ← computeSCCs (StateClassGraph.successorsOf g) classes
  let terminalSCCs ← findTerminalSCCs (StateClassGraph.successorsOf g) classes
  let terminalSCCsWithoutGoal := terminalSCCs.filter fun scc => !scc.any fun i => i ∈ goals
  let canReachGoal := computeBackwardReachability g goals
  let statesNotReachingGoal := g.classes.length - canReachGoal.length
  let terminalSCCsMissingTransitions := terminalSCCs.filter fun scc =>
    !(allTransitions.filter fun t => t ∉ transitionsInSCC g scc).isEmpty
  return {
    allSCCs
    terminalSCCs
    goalClasses := goals
    canReachGoal
    isGoalLive := terminalSCCsWithoutGoal.isEmpty && statesNotReachingGoal = 0
    isL4Live := terminalSCCsMissingTransitions.isEmpty && g.complete
    isComplete := g.complete }

/-- Builds the graph and analyses it.  `none` stands for a recursion that did not end. -/
def analyze (net : PetriNet V N) (initialMarking : MarkingState) (goalPlaces : List PlaceName) (maxClasses : Nat)
    (env : Environment) : Except Thrown (Option LivenessResult) := do
  let g ← StateClassGraph.build (analysedNet net) initialMarking maxClasses env {}
  return liveness g goalPlaces (net.transitions.map Transition.name)

end TimePetriNetAnalyzer

end LibPetri.Verification

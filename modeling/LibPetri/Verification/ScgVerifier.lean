import LibPetri.Verification.GraphDecision
import LibPetri.Verification.StateClassGraph

/-! # Bounded state-space enumeration

Decides a property by building the state-class graph of an untimed net up to a class budget, and
reading the verdict off it.
-/

namespace LibPetri.Verification

open LibPetri.Basis LibPetri.Core LibPetri.Runtime

variable {V N : Type}

/-- Every transition is immediate. -/
def isUntimed (net : PetriNet V N) : Bool := net.transitions.all fun t => t.timing = .immediate

inductive Verdict
  | proven (method : String)
  | violated
  | unknown (reason : String)
  deriving DecidableEq

inductive ScgOutcome
  | decided (verdict : Verdict) (trace : List MarkingState) (transitions : List String)
      (classCount : Nat) (truncated : Bool)
  | truncated (classCount : Nat)
  deriving DecidableEq

namespace ScgVerifier

variable (net : PetriNet V N) (initial : MarkingState) (maxClasses : Nat) (stubborn : Bool)

def buildStateSpace : Except Thrown (StateClassGraph net) :=
  StateClassGraph.build net initial maxClasses ⟨[], .ignore⟩ { stubborn := stubborn }

/-! ## The path to a class -/

/-- Breadth-first search for a class: the classes seen, in the order they are visited, and for each the
class it was reached from with the label of the edge. -/
structure Search (L : Type) where
  queue : List Nat
  parent : List (Nat × (Nat × L))

section Paths

variable {S L : Type} (graph : Exploration S L) (target : Nat)

def visit (current : Nat) (s : Search L) (edge : L × Nat) : Search L :=
  if edge.2 ∈ s.queue then s
  else ⟨s.queue ++ [edge.2], (edge.2, (current, edge.1)) :: s.parent⟩

/-- The rows of a class, none where it has not been expanded. -/
def outgoingBranchEdges (current : Nat) : List (L × Nat) := (graph.rows[current]?).getD []

/-- Visits the queue from `head` on, until the target comes up.  Every class is queued once. -/
def search : Nat → Nat → Search L → Search L
  | 0, _, s => s
  | fuel + 1, head, s =>
    match s.queue[head]? with
    | none => s
    | some current =>
      if current = target then s
      else search fuel (head + 1) ((outgoingBranchEdges graph current).foldl (visit current) s)

/-- A class and those it was reached through, back to the initial one. -/
def chain (parent : List (Nat × (Nat × L))) : Nat → Nat → List Nat
  | 0, cur => [cur]
  | fuel + 1, cur =>
    match parent.lookup cur with
    | none => [cur]
    | some (before, _) => cur :: chain parent fuel before

end Paths

variable {net}

/-- Shortest firing sequence from the initial class to `target`, as markings and transition names. -/
def counterexamplePath (graph : StateClassGraph net) (target : Nat) :
    List MarkingState × List String :=
  let s := search graph target graph.classes.length 0 ⟨[0], []⟩
  let path := (chain s.parent graph.classes.length target).reverse
  (path.filterMap fun i => (graph.classes[i]?).map StateClass.marking,
    (path.drop 1).filterMap fun i =>
      (s.parent.lookup i).map fun step => (transitionAt step.2.1).name)

/-! ## The verdict -/

/-- The graph as the decision reads it.  A class that was not expanded is not quiescent. -/
def classView (graph : StateClassGraph net) (reapable : List String) : ClassView where
  count := graph.classes.length
  markingOf i := ((graph.classes[i]?).map StateClass.marking).getD MarkingState.empty
  isQuiescent i :=
    i < graph.expanded && (outgoingBranchEdges graph i = [] ||
      (reapable ≠ [] && ((graph.classes[i]?).map StateClass.enabledTransitions).any fun enabled =>
        enabled.all fun t => (transitionAt t).name ∈ reapable))

/-- A graph that has not closed, or that is read as a prefix of a larger budget, proves nothing. -/
def decideOverStateSpace (graph : StateClassGraph net) (property : SmtProperty)
    (sinkPlaces : List PlaceName) (conditionalSinks : List ConditionalSinks) (asPrefix : Bool)
    (reapable : List String) : Except Thrown ScgOutcome :=
  match property.routeBOnlyReason with
  | some reason => .ok (.decided (.unknown reason) [] [] graph.classes.length false)
  | none => do
    let closed := graph.complete && !asPrefix
    match ← decideOverClasses (classView graph reapable) property sinkPlaces conditionalSinks with
    | some violating =>
      let path := counterexamplePath graph violating
      return .decided .violated path.1 path.2 graph.classes.length !closed
    | none =>
      if !closed then return .truncated graph.classes.length
      else
        let method := "state-space enumeration (VER-017)"
        return .decided (.proven method) [] [] graph.classes.length false

def verifyViaStateClassGraph (net : PetriNet V N) (initial : MarkingState) (property : SmtProperty)
    (sinkPlaces : List PlaceName) (maxClasses : Nat) (conditionalSinks : List ConditionalSinks)
    (stubborn : Bool) : Except Thrown ScgOutcome := do
  let graph ← buildStateSpace net initial maxClasses stubborn
  decideOverStateSpace graph property sinkPlaces conditionalSinks false []

end ScgVerifier

end LibPetri.Verification

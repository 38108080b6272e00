import LibPetri.Basis.DepthFirst
import LibPetri.Verification.OpenNetPredicate
import LibPetri.Verification.ScgVerifier

/-! # The contract on the graph

A contract decided on the graph of the closed net, built without its timing: every quiescent class is
judged, and any cycle is a run that never rests.
-/

namespace LibPetri.Verification

open LibPetri.Basis LibPetri.Core LibPetri.Runtime
open ScgVerifier

variable {V N : Type}

structure GraphRouteOutcome where
  complete : Bool
  classCount : Nat
  /-- The shallowest witness of each subject, then termination. -/
  violations : List ContractViolation

namespace GraphRoute

section Graph

variable {net : PetriNet V N} (graph : StateClassGraph net)

/-- For each class the class it was first reached from, with the label of the edge. -/
def bfsTree : List (Nat × (Nat × StateClassGraph.EdgeLabel net)) :=
  (search graph graph.classes.length graph.classes.length 0 ⟨[0], []⟩).parent

/-- The shortest way to a class: the classes it goes through, and the transitions it fires. -/
def pathTo (tree : List (Nat × (Nat × StateClassGraph.EdgeLabel net))) (target : Nat) :
    List Nat × List String :=
  let path := (chain tree graph.classes.length target).reverse
  (path, (path.drop 1).filterMap fun i => (tree.lookup i).map fun e => (transitionAt e.2.1).name)

def markingsOf (path : List Nat) : List MarkingState :=
  path.filterMap fun i => (graph.classes[i]?).map StateClass.marking

/-- What every quiescent class breaks, in the order of the classes. -/
def findings (contract : OpenNetContract V N) (rest : RestDeclaration) (reapable : List String) :
    List (Finding × Nat) :=
  graph.classes.zipIdx.flatMap fun (sc, i) =>
    if sc.enabledTransitions.all fun t => (transitionAt t).name ∈ reapable then
      (quiescenceFindings sc.marking contract rest).map fun finding => (finding, i)
    else []

/-- `kind:subject`. -/
def findingKey (finding : Finding) : String := s!"{finding.kind}:{finding.subjectOf}"

/-- The first finding of each key. -/
def firstFindings (found : List (Finding × Nat)) : List (Finding × Nat) :=
  found.foldl (fun first f =>
    if first.any fun g => findingKey g.1 = findingKey f.1 then first else first ++ [f]) []

/-- The position of a clause in the contract, stranded places behind them all. -/
def rank (contract : OpenNetContract V N) : Finding → Nat
  | .clause clause _ _ => (contract.clauses.map CountClause.name).idxOf clause.name
  | .stranded _ _ => contract.clauses.length

/-- Clauses in contract order, then stranded places in code-point order. -/
def ordered (contract : OpenNetContract V N) (first : List (Finding × Nat)) : List (Finding × Nat) :=
  first.insertionSort fun a b =>
    rank contract a.1 < rank contract b.1 ∨
      rank contract a.1 = rank contract b.1 ∧ a.1.subjectOf ≤ b.1.subjectOf

/-- The edges of a class. -/
def edgesOf (i : Nat) : List (String × Nat) :=
  (outgoingBranchEdges graph i).map fun e => ((transitionAt e.1.1).name, e.2)

/-- A reachable cycle as a lasso: the shortest stem to its entry, then the loop. -/
def findCycle (closed : ClosedNet V N) (tracedPlaces : List PlaceName)
    (tree : List (Nat × (Nat × StateClassGraph.EdgeLabel net))) : Option ContractViolation :=
  (DepthFirst.findCycle (edgesOf graph) graph.classes.length 0).map fun found =>
    let stem := pathTo graph tree found.entry
    let inner := found.loop.drop 1
    let cycle := inner.filterMap DepthFirst.Frame.via ++ [found.via]
    let around := " → ".intercalate cycle
    contractViolation closed tracedPlaces .termination "termination"
      s!"a run can repeat {around} forever without coming to rest" (stem.2 ++ cycle)
      (markingsOf graph stem.1 ++ markingsOf graph (inner.map DepthFirst.Frame.node ++ [found.entry]))
      (some stem.2.length) true

end Graph

/-- The violation of a finding. -/
def findingViolation (closed : ClosedNet V N) (tracedPlaces : List PlaceName)
    (graph : StateClassGraph closed.net)
    (tree : List (Nat × (Nat × StateClassGraph.EdgeLabel closed.net))) (found : Finding × Nat) :
    ContractViolation :=
  let path := pathTo graph tree found.2
  let kind := match found.1 with
    | .clause _ _ _ => ContractViolationKind.clause
    | .stranded _ _ => .stranded
  contractViolation closed tracedPlaces kind found.1.subjectOf found.1.describe path.2
    (markingsOf graph path.1) none true

end GraphRoute

open GraphRoute in
/-- The closed net's graph, judged against the contract. -/
def decideOnGraph (closed : ClosedNet V N) (contract : OpenNetContract V N) (maxClasses : Nat)
    (tracedPlaces : List PlaceName) (reapable : List String) : Except Thrown GraphRouteOutcome := do
  let graph ← StateClassGraph.build closed.net closed.initialMarking maxClasses ⟨[], .ignore⟩
    { untimed := true }
  let rest := restDeclarationOf contract closed
  let tree := bfsTree graph
  let first := firstFindings (findings graph contract rest reapable)
  let violations := (ordered contract first).map (findingViolation closed tracedPlaces graph tree)
  let cycle := if contract.requiresTermination then findCycle graph closed tracedPlaces tree else none
  return {
    complete := graph.complete
    classCount := graph.classes.length
    violations := violations ++ cycle.toList }

end LibPetri.Verification

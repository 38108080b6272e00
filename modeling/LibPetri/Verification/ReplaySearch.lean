import LibPetri.Basis.WitnessSearch
import LibPetri.Verification.AbstractReplayer

/-! # Searches for a violating run

Two breadth-first searches of the replayer's steps for a violating state: one guided by the states decoded
from a counterexample, one that fires each transition at most as often as a vector of counts says.
-/

namespace LibPetri.Verification

open LibPetri.Basis LibPetri.Core LibPetri.Runtime

namespace AbstractReplayer

variable {S : Type}

/-! ## Replaying a counterexample -/

/-- Canonical key of a vector of counts. -/
def stateKey (counts : List Int) : String := ",".intercalate (counts.map Int.repr)

/-- The counts of a state, in the order of the places. -/
def countsOf {P : Nat} (state : AbstractState P) : List Int :=
  (List.finRange P).map fun p => (state p : Int)

/-- `confirmed` with a chain in firing order, `noChain` where the search ran to its end. -/
inductive ReplayOutcome (P : Nat)
  | confirmed (states : List (AbstractState P)) (steps : List ReplayStep) (nodesExplored : Nat)
  | noChain (nodesExplored : Nat)
  | exhausted (reason : String) (nodesExplored : Nat)

/-- A state, and the steps taken since the last decoded one. -/
structure Segment (P : Nat) where
  state : AbstractState P
  segment : Nat

section Replay

variable (flatNet : FlatNet S) (anchors : List String) (segmentBudget nodeBudget : Nat)

/-- The successors of a node, none once it is `segmentBudget` steps from a decoded state. -/
def segmentSuccessors (node : Segment flatNet.places.length) :
    List (ReplayStep × Segment flatNet.places.length) :=
  if segmentBudget ≤ node.segment then []
  else (successors flatNet node.state).map fun succ =>
    (succ.step, ⟨succ.state,
      if stateKey (countsOf succ.state) ∈ anchors then 0 else node.segment + 1⟩)

/-- `bestSegment`: a state is entered again only with fewer steps since a decoded state. -/
def undominated {P : Nat} (bestSegment : OrderedMap String Nat) (node : Segment P) :
    Option (OrderedMap String Nat) :=
  let key := stateKey (countsOf node.state)
  match bestSegment.get? key with
  | none => some (bestSegment.set key node.segment)
  | some prior => if prior ≤ node.segment then none else some (bestSegment.set key node.segment)

/-- Whether a state violates the property, which has been judged before. -/
def isBad (property : SmtProperty) (sinkPlaces : List PlaceName)
    (conditionalSinks : List ConditionalSinks) (state : flatNet.State) : Bool :=
  match satisfiesBad flatNet property sinkPlaces conditionalSinks state with
  | .ok bad => bad
  | .error _ => false

/-- Searches from `initial` for a chain of steps to a violating state, no more than `segmentBudget` steps
between the decoded states on it. -/
def replayCounterexample (initial : flatNet.State) (decodedStates : List (List Int))
    (property : SmtProperty) (sinkPlaces : List PlaceName) (segmentBudget nodeBudget : Nat)
    (conditionalSinks : List ConditionalSinks) : Except Thrown (ReplayOutcome flatNet.places.length) :=
  let anchors := decodedStates.map stateKey
  let initKey := stateKey (countsOf initial)
  if anchors = [] then .ok (.exhausted "no decoded states to replay" 0)
  else if initKey ∉ anchors then
    .ok (.exhausted "the initial marking is not among the decoded states" 0)
  else do
    -- a property without a violation throws here, before anything is searched
    let _ ← satisfiesBad flatNet property sinkPlaces conditionalSinks initial
    match WitnessSearch.run (segmentSuccessors flatNet anchors segmentBudget) undominated
        (fun node => isBad flatNet property sinkPlaces conditionalSinks node.state) nodeBudget
        ⟨initial, 0⟩ (OrderedMap.empty.set initKey 0) with
    | .found nodes =>
      let chain := WitnessSearch.reconstruct nodes
      .ok (.confirmed (chain.1.map Segment.state) chain.2 nodes.length)
    | .exhausted nodes =>
      .ok (.exhausted (s!"search budget exhausted ({nodeBudget} nodes) before reaching a violating " ++
        "state") nodes.length)
    | .finished nodes bestSegment =>
      -- a node left unexpanded: the segment budget stopped the search, not the state space
      if nodes.any fun node => segmentBudget ≤ node.data.segment then
        .ok (.exhausted (s!"no violating state within {segmentBudget} abstract step(s) of a decoded " ++
          s!"state ({bestSegment.size} state(s) explored)") nodes.length)
      else .ok (.noChain nodes.length)

end Replay

end AbstractReplayer

/-! ## Searching within counts -/

namespace ParikhSearch

open AbstractReplayer

variable {S : Type} (flatNet : FlatNet S)

/-- `found` with a run in firing order, `none` where no run within the counts reaches a violation. -/
inductive WitnessOutcome (P : Nat)
  | found (states : List (AbstractState P)) (steps : List String) (nodes : Nat)
  | none (nodes : Nat)
  | exhausted (reason : String) (nodes : Nat)

/-- A state, and how often each transition may still fire. -/
structure Unspent where
  state : flatNet.State
  remaining : flatNet.Position → Int

/-- Fires each transition that has counts left, is enabled and stays within the caps. -/
def countedSuccessors (node : Unspent flatNet) : List (flatNet.Position × Unspent flatNet) :=
  (List.finRange _).filterMap fun t =>
    let ft := flatNet.transition t
    if node.remaining t ≤ 0 || !enabledA node.state ft then Option.none
    else if (environmentCaps flatNet).any fun (idx, cap) => cap < fireA node.state ft idx then Option.none
    else some (t, ⟨fireA node.state ft,
      Function.update node.remaining t (node.remaining t - 1)⟩)

variable {flatNet} in
def key (node : Unspent flatNet) : String :=
  stateKey (countsOf node.state) ++ "|" ++ stateKey ((List.finRange _).map node.remaining)

variable {flatNet} in
/-- `seen`: two runs that meet with the same counts left share a future. -/
def unseen (seen : List String) (node : Unspent flatNet) : Option (List String) :=
  if key node ∈ seen then Option.none else some (key node :: seen)

/-- Searches the runs from `initial` that fire each transition `t` at most `counts t` times for a state that
`isBad` accepts. -/
def searchWithinCounts (initial : flatNet.State) (counts : flatNet.Position → Int)
    (isBad : flatNet.State → Bool) (nodeBudget : Nat) : WitnessOutcome flatNet.places.length :=
  let start : Unspent flatNet := ⟨initial, counts⟩
  match WitnessSearch.run (countedSuccessors flatNet) unseen (fun node => isBad node.state) nodeBudget
      start [key start] with
  | .found nodes =>
    let run := WitnessSearch.reconstruct nodes
    .found (run.1.map Unspent.state) (run.2.map fun t => (flatNet.transition t).name) nodes.length
  | .exhausted nodes => .exhausted s!"search budget exhausted ({nodeBudget} nodes)" nodes.length
  | .finished nodes _ =>
    -- out of counted runs, not of budget: an injection might extend one
    if 0 < flatNet.environmentInjection.size then
      .exhausted "environment injection is not searched" nodes.length
    else .none nodes.length

end ParikhSearch

end LibPetri.Verification

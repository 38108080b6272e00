import LibPetri.Verification.GraphDecision
import LibPetri.Verification.OpenNet

/-! # Actions in flight

Every route reads a firing as one atomic step.  A transition some of whose outputs is tested
non-monotonically is split into a start, which consumes into the fresh place `inflight:<t>`, and a
completion step `complete:<t>`, which deposits.
-/

namespace LibPetri.Verification

open LibPetri.Basis LibPetri.Core LibPetri.Runtime

variable {V N : Type}

/-- The in-flight place of a transition. -/
def inFlightPlace (t : String) : PlaceName := s!"inflight:{t}"

/-- The completion transition of a transition. -/
def completionTransition (t : String) : String := s!"complete:{t}"

/-! ## The transitions to split -/

/-- `spec.type === 'all' || spec.type === 'at-least'`. -/
def drains : In → Bool
  | .one _ => false
  | .exactly _ _ => false
  | .all _ => true
  | .atLeast _ _ => true

/-- Every place some transition tests non-monotonically, and every terminal place. -/
def nonMonotonePlaces (net : PetriNet V N) : List PlaceName :=
  net.terminals ++ net.transitions.flatMap fun t =>
    t.inhibitors ++ t.resets ++ (t.inputSpecs.filter drains).map In.place

/-- A completion step: `complete:<x>`, whose one input is `one(inflight:<x>)`. -/
def isCompletion (t : Transition V N) : Bool :=
  let completing := "complete:".toList
  completing.isPrefixOf t.name.toList &&
    (match t.inputSpecs with
      | [.one p] => p = inFlightPlace (String.ofList (t.name.toList.drop completing.length))
      | _ => false) && t.reads = [] && t.resets = []

/-- What a verification tests beyond the arcs of its net. -/
structure SplitDemand where
  /-- Places tested non-monotonically. -/
  tested : List PlaceName
  /-- Transitions split whatever their outputs. -/
  forced : List String

def emptyDemand : SplitDemand := ⟨[], []⟩

def unionDemand (a b : SplitDemand) : SplitDemand := ⟨a.tested ++ b.tested, a.forced ++ b.forced⟩

section Split

variable (net : PetriNet V N) (environment : List String) (demand : SplitDemand)

/-- Whether a transition is split: some output is tested, or it is forced.  Environment steps and
completion steps stay atomic. -/
def needsSplit (t : Transition V N) : Bool :=
  !isCompletion t && t.name ∉ environment &&
    (t.name ∈ demand.forced || t.outputPlaces.any fun p => p ∈ nonMonotonePlaces net ++ demand.tested)

def inFlightTransitionsFor : List String :=
  (net.transitions.filter (needsSplit net environment demand)).map Transition.name

def inFlightTransitions : List String := inFlightTransitionsFor net environment emptyDemand

/-- The places a terminal stop can leave short. -/
def quiescentCountDemand (property : SmtProperty) : SplitDemand :=
  match property with
  | .quiescentCount places min _ waivedBy =>
    if min = 0 ∨ net.terminals.all fun p => p ∈ waivedBy then emptyDemand
    else ⟨places ++ waivedBy, []⟩
  | _ => emptyDemand

/-- The transitions that can pre-empt another one under conflict priority. -/
def conflictPruners : List String :=
  (net.transitions.filter fun h => net.transitions.any fun l =>
    l.name ≠ h.name && l.priority < h.priority &&
      l.inputSpecs.any fun s => s.place ∈ h.inputSpecs.map In.place).map Transition.name

/-- What conflict priority adds to the split. -/
def conflictDemand : SplitDemand :=
  let pruning := net.transitions.filter fun h => h.name ∈ conflictPruners net
  ⟨pruning.flatMap fun h => h.inputSpecs.map In.place ++ h.reads, pruning.map Transition.name⟩

/-! ## What the split cannot express -/

mutual

/-- The first `forwardInput` under a `timeout` whose source input is not `one`. -/
def multiTokenForward (t : Transition V N) (underTimeout : Bool) :
    Out → Option (PlaceName × PlaceName)
  | .place _ => none
  | .forwardInput source target =>
    let single := match t.inputSpecs.find? fun s => s.place = source with
      | none => true
      | some spec => !spec.needsCardinality
    if underTimeout && !single then some (source, target) else none
  | .timeout _ child => multiTokenForward t true child
  | .and children => multiTokenForwardAll t underTimeout children
  | .xor children => multiTokenForwardAll t underTimeout children

def multiTokenForwardAll (t : Transition V N) (underTimeout : Bool) :
    List Out → Option (PlaceName × PlaceName)
  | [] => none
  | child :: children =>
    match multiTokenForward t underTimeout child with
    | some found => some found
    | none => multiTokenForwardAll t underTimeout children

end

/-- Why `t` cannot be split, if it cannot. -/
def refusalCause (t : Transition V N) (coloured : List PlaceName) (names : List String) :
    Option String :=
  if t.matchSpec.isSome then
    some "it is a ν-join, whose outputs carry the matched name (NU-020, NU-054)"
  else
    match (t.outputPlaces.insertionSort (· ≤ ·)).find? fun p => p ∈ coloured with
    | some p => some s!"it writes the coloured place '{p}', whose tokens carry a ν name"
    | none =>
      match t.outputSpec.bind (multiTokenForward t false) with
      | some (source, target) =>
        some (s!"its timeout forwards input '{source}' to '{target}', one token per token " ++
          "consumed (IO-014), a count its completion step cannot see")
      | none =>
        ([inFlightPlace t.name, completionTransition t.name].find? fun added => added ∈ names).map
          fun added => s!"the net already uses the name '{added}' the split would add"

/-- The keys and relay targets of the match specs. -/
def matchPlaces : List PlaceName :=
  net.transitions.flatMap fun t =>
    match t.matchSpec with
    | none => []
    | some spec => spec.keys.map MatchKey.place ++ spec.relays.map MatchKey.place

/-- The first transition of `split`, in net order, that the split cannot express, with the cause. -/
def firstUnsplittable (coloured : List PlaceName) (split : List String) : Option (String × String) :=
  let allColoured := coloured ++ matchPlaces net
  let names := net.places ++ net.transitions.map Transition.name
  net.transitions.findSome? fun t =>
    if t.name ∈ split then (refusalCause t allColoured names).map fun cause => (t.name, cause)
    else none

def refusalHead (name : String) : String :=
  s!"transition '{name}' must be verified as two steps, since its action runs between " ++
    "consuming and depositing and another transition tests one of its outputs with an " ++
    "inhibitor, reset or drain (VER-004), but"

def demandRefusalHead (name : String) : String :=
  s!"transition '{name}' must be verified as two steps, since a terminal place can stop " ++
    "the net while its action runs and the property's lower bound counts a place it " ++
    "deposits into (VER-004, EXEC-042), but"

end Split

/-! ## The split net -/

mutual

/-- The output specification of a completion step: a `forwardInput(from, to)` leaf becomes `to`. -/
def completionOutput : Out → Out
  | .place p => .place p
  | .forwardInput _ target => .place target
  | .and children => .and (completionOutputAll children)
  | .xor children => .xor (completionOutputAll children)
  | .timeout afterMs child => .timeout afterMs (completionOutput child)

def completionOutputAll : List Out → List Out
  | [] => []
  | child :: children => completionOutput child :: completionOutputAll children

end

/-- The first half of `t`: everything but its outputs. -/
def startOf (t : Transition V N) : Transition V N :=
  { t with outputSpec := some (.place (inFlightPlace t.name)) }

/-- The second half of `t`: its outputs. -/
def completionOf (t : Transition V N) : Transition V N :=
  { Closure.sourceTransition (completionTransition t.name) (inFlightPlace t.name)
      (t.outputSpec.map completionOutput) with
    priority := t.priority }

/-- The start and the completion step of `t`. -/
def halves (t : Transition V N) : List (Transition V N) := [startOf t, completionOf t]

/-- The places of a net that is built: those declared, those of the arcs, and the terminals. -/
def builtPlaces (places : List PlaceName) (transitions : List (Transition V N))
    (terminals : List PlaceName) : List PlaceName :=
  (places ++ transitions.flatMap collectedPlaces ++ terminals).eraseDups

theorem terminals_subset_builtPlaces (places : List PlaceName) (transitions : List (Transition V N))
    (terminals : List PlaceName) : ∀ p ∈ terminals, p ∈ builtPlaces places transitions terminals :=
  fun p mem => by simp [builtPlaces, mem]

/-- A net rebuilt with other places, transitions or terminals.  What the builder refuses is not in a net
that has been built, and no rewrite of this development adds it. -/
def rebuilt (net : PetriNet V N) (places : List PlaceName) (transitions : List (Transition V N))
    (terminals : List PlaceName) : PetriNet V N where
  name := net.name
  places := builtPlaces places transitions terminals
  transitions := transitions
  terminals := terminals
  terminals_declared := terminals_subset_builtPlaces places transitions terminals

/-- The net with every transition that `split` names in two steps. -/
def splitNet (net : PetriNet V N) (split : List String) : PetriNet V N :=
  rebuilt net net.places
    (net.transitions.flatMap fun t => if t.name ∈ split then halves t else [t]) net.terminals

/-- What the split did to a net. -/
inductive InFlight (V N : Type)
  | atomic
  | split (net : PetriNet V N) (split : List String)
  | refused (reason : String)

def splitInFlightFor (net : PetriNet V N) (coloured : List PlaceName) (environment : List String)
    (demand : SplitDemand) : InFlight V N :=
  let split := inFlightTransitionsFor net environment demand
  if split = [] then .atomic
  else
    match firstUnsplittable net coloured split with
    | some (t, cause) =>
      let head := if t ∈ inFlightTransitions net environment then refusalHead t
        else demandRefusalHead t
      .refused (head ++ " " ++ cause)
    | none => .split (splitNet net split) split

/-- Splits every transition that needs the executor's two-step firing. -/
def splitInFlight (net : PetriNet V N) (coloured : List PlaceName) (environment : List String) :
    InFlight V N :=
  splitInFlightFor net coloured environment emptyDemand

end LibPetri.Verification

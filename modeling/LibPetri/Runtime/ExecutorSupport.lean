import LibPetri.Basis.OrderedMap
import LibPetri.Basis.Prog
import LibPetri.Core.Net

/-! # What both executors share

The events they emit, the normalisation of what was thrown, the validation of a firing's output
against its specification and its relays, and the output of a timeout branch.
-/

namespace LibPetri.Runtime

open LibPetri.Basis LibPetri.Core

variable {V N : Type}

/-! ## Events -/

inductive NetEvent (V : Type)
  | executionStarted (timestamp : Ms) (netName executionId : String)
  | markingSnapshot (timestamp : Ms) (marking : List (PlaceName × List (Token V)))
  | transitionEnabled (timestamp : Ms) (transitionName : String)
  | transitionClockRestarted (timestamp : Ms) (transitionName : String)
  | transitionStarted (timestamp : Ms) (transitionName : String) (consumedTokens : List (Token V))
  | transitionCompleted (timestamp : Ms) (transitionName : String) (producedTokens : List (Token V))
      (durationMs : Ms)
  | transitionFailed (timestamp : Ms) (transitionName errorMessage exceptionType : String)
  | transitionTimedOut (timestamp : Ms) (transitionName : String) (deadlineMs : Ms)
      (actualDurationMs : WithTop Ms)
  | actionTimedOut (timestamp : Ms) (transitionName : String) (timeoutMs : Ms)
  | tokenAdded (timestamp : Ms) (placeName : PlaceName) (token : Token V)
  | tokenRemoved (timestamp : Ms) (placeName : PlaceName) (token : Token V)
  | logMessage (timestamp : Ms) (transitionName logger level message : String)
      (error errorMessage : Option String)
  | executionCompleted (timestamp : Ms) (netName executionId : String) (totalDurationMs : Ms)
  deriving DecidableEq

/-! ## Errors -/

/-- `e instanceof Error ? e : new Error(String(e))`: the name and message of the error, or what the
conversion throws. -/
def asError : Thrown → Except Thrown (String × String)
  | .error name message => .ok (name, message)
  | .other _ (some text) => .ok ("Error", text)
  | .other _ none => .error (.error "TypeError" "Cannot convert object to primitive value")

def outViolation (message : String) : Thrown := .error "OutViolationError" message

/-! ## String order -/

/-- The UTF-16 code units of a string. -/
def codeUnits (s : String) : List Nat :=
  s.toList.flatMap fun c =>
    if c.toNat < 0x10000 then [c.toNat]
    else [0xd800 + (c.toNat - 0x10000) / 0x400, 0xdc00 + (c.toNat - 0x10000) % 0x400]

/-- The default sort: ascending code units. -/
def sortCodeUnits (names : List String) : List String :=
  names.insertionSort fun a b => codeUnits a ≤ codeUnits b

/-- `entries.sort((a, b) => compareCodePoints(a[0], b[0]))`. -/
def sortByName {α : Type} (entries : List (PlaceName × α)) : List (PlaceName × α) :=
  entries.insertionSort fun a b => a.1 ≤ b.1

/-! ## Output validation -/

/-- Collapses identical claims, keeping at most two of each. -/
def capMultiplicity (claims : List (List PlaceName)) : List (List PlaceName) :=
  if claims.length < 3 then claims
  else
    (claims.foldl (fun (acc : OrderedMap String Nat × List (List PlaceName)) claim =>
      let key := "\x00".intercalate (sortCodeUnits claim)
      let n := (acc.1.get? key).getD 0
      if 2 ≤ n then acc else (acc.1.set key (n + 1), acc.2 ++ [claim])) (OrderedMap.empty, [])).2

/-- Adds the names of `claim` to the set `merged`. -/
def mergeClaim (merged claim : List PlaceName) : List PlaceName :=
  claim.foldl (fun s name => if name ∈ s then s else s ++ [name]) merged

mutual

/-- The claims of the assignments whose claim is a subset of `produced`. -/
def claimsWithin (produced : List PlaceName) : Out → List (List PlaceName)
  | .place p => if p ∈ produced then [[p]] else []
  | .forwardInput _ target => if target ∈ produced then [[target]] else []
  | .timeout _ child => claimsWithin produced child
  | .xor children => capMultiplicity (claimsWithinXor produced children)
  | .and children => claimsWithinAnd produced children [[]]

def claimsWithinXor (produced : List PlaceName) : List Out → List (List PlaceName)
  | [] => []
  | child :: children => claimsWithin produced child ++ claimsWithinXor produced children

def claimsWithinAnd (produced : List PlaceName) : List Out → List (List PlaceName) →
    List (List PlaceName)
  | [], acc => acc
  | child :: children, acc =>
    let childClaims := claimsWithin produced child
    if childClaims = [] then []
    else claimsWithinAnd produced children
      (capMultiplicity (acc.flatMap fun merged => childClaims.map (mergeClaim merged)))

end

/-- The one claim that equals the produced places the specification names. -/
def validateOutSpec (tName : String) (spec : Out) (producedPlaceNames : List PlaceName) :
    Except Thrown (List PlaceName) :=
  let relevant := producedPlaceNames.filter fun name => name ∈ spec.collectPlaces
  let exact := (claimsWithin producedPlaceNames spec).filter fun claim =>
    claim.length = relevant.length
  let wrote := ", ".intercalate (sortCodeUnits relevant)
  match exact with
  | [] => .error (outViolation
      (s!"'{tName}': output does not match the declared spec - produced \x7b{wrote}\x7d, " ++
        "which no single branch of the spec claims exactly"))
  | [claim] => .ok claim
  | _ => .error (outViolation
      s!"'{tName}': ambiguous output - \x7b{wrote}\x7d is claimed by more than one branch")

/-- The name a token in a relay target carries: none for an absent value or a throwing projection. -/
def relayedName [Value V] (key : KeyFn V N) (value : V) : Option N :=
  if Value.isNullish value then none
  else match key value with
    | .ok found => found
    | .error _ => none

/-- The relay check of one entry. -/
def validateRelay [Value V] [DecidableEq N] [ToString N] (t : Transition V N) (ms : MatchSpec V N)
    (matched : Option N) (entry : PlaceName × Token V) : Except Thrown Unit :=
  match ms.relays.find? fun r => r.place = entry.1 with
  | none => .ok ()
  | some r =>
    let found := relayedName r.key entry.2.value
    if found = matched ∧ found ≠ none then .ok ()
    else
      let foundText := match found with
        | none => "no name"
        | some name => s!"name '{name}'"
      let matchedText := match matched with
        | none => ""
        | some name => toString name
      .error (outViolation
        (s!"'{t.name}': relay target '{r.place}' received a token with {foundText}, " ++
          s!"but the join matched name '{matchedText}' (NU-054)"))

/-- Every token in a relay target carries the matched name. -/
def validateRelays [Value V] [DecidableEq N] [ToString N] (t : Transition V N)
    (entries : List (PlaceName × Token V)) (matched : Option N) : Except Thrown Unit :=
  match t.matchSpec with
  | none => .ok ()
  | some ms => entries.forM (validateRelay t ms matched)

/-- `outputs.placesWithTokens()`. -/
def placesWithTokens (entries : List (PlaceName × Token V)) : List PlaceName :=
  (entries.map Prod.fst).eraseDups

/-! ## Timeout output -/

/-- What a timeout branch has written: the entries, and the epoch readings its tokens took. -/
structure Harvest (V : Type) where
  epochReads : Nat
  entries : List (PlaceName × Token V)

/-- `requireOutput`. -/
def requireOutput (t : Transition V N) (place : PlaceName) : Except Thrown Unit :=
  if place ∈ t.outputPlaces then .ok ()
  else
    let declared := ", ".intercalate t.outputPlaces.eraseDups
    .error (.error "Error" s!"Place '{place}' not in declared outputs: [{declared}]")

/-- `requireInput`. -/
def requireInput (t : Transition V N) (place : PlaceName) : Except Thrown Unit :=
  if place ∈ t.inputSpecs.map In.place then .ok ()
  else
    let declared := ", ".intercalate (t.inputSpecs.map In.place).eraseDups
    .error (.error "Error" s!"Place '{place}' not in declared inputs: [{declared}]")

section Timeout

variable [Value V] (t : Transition V N) (epochNow : Nat → Ms) (inputs : List (PlaceName × Token V))

/-- `context.outputToHarvest(place, null)`. -/
def outputToHarvest (place : PlaceName) : Prog Thrown (Harvest V) Unit := do
  let actual := t.resolve place
  Prog.lift (requireOutput t actual)
  Prog.modify fun h =>
    { epochReads := h.epochReads + 1
      entries := h.entries ++ [(actual, ⟨Value.null, epochNow h.epochReads⟩)] }

/-- `context.forwardToHarvest(from, to)`: the consumed tokens themselves, in consumption order. -/
def forwardToHarvest (source target : PlaceName) : Prog Thrown (Harvest V) Unit := do
  let from_ := t.resolve source
  Prog.lift (requireInput t from_)
  let to_ := t.resolve target
  Prog.lift (requireOutput t to_)
  Prog.modify fun h =>
    { h with entries := h.entries ++ (inputs.filter fun e => e.1 = from_).map fun e => (to_, e.2) }

mutual

def produceTimeoutOutput : Out → Prog Thrown (Harvest V) Unit
  | .place p => outputToHarvest t epochNow p
  | .forwardInput source target => forwardToHarvest t inputs source target
  | .and children => produceTimeoutOutputs children
  | .xor _ => Prog.throw (.error "Error"
      "unreachable: a xor node in a Timeout child is rejected at transition build (IO-013)")
  | .timeout _ _ => Prog.throw (.error "Error"
      "unreachable: a timeout node in a Timeout child is rejected at transition build (IO-013)")

def produceTimeoutOutputs : List Out → Prog Thrown (Harvest V) Unit
  | [] => pure ()
  | child :: children => do
    produceTimeoutOutput child
    produceTimeoutOutputs children

end

end Timeout

/-! ## Messages -/

/-- The warning for a token on a place the net does not declare. -/
def unknownPlaceMessage (place : PlaceName) : String :=
  s!"unknown place '{place}': tokens are retained in the marking but inert " ++
    "(the net declares no arc on it)"

/-- The places named by the claim that were written more than once, with their counts. -/
def repeatedPlaces (entries : List (PlaceName × Token V)) (claim : List PlaceName) : List String :=
  let names := (entries.map Prod.fst).filter fun name => name ∈ claim
  (names.eraseDups.filter fun name => 1 < names.count name).map fun name =>
    s!"{name}: {names.count name}"

def multiplicityMessage (transitionName : String) (repeated : List String) : String :=
  let listed := ", ".intercalate repeated
  s!"'{transitionName}': wrote more than one token to a place its output spec names once " ++
    s!"({listed}); branch-enumerating analyses model one token per named place, " ++
    "so this firing exceeds what they explore (IO-016)"

/-- An arc that can never have an effect. -/
structure DeadArc where
  kind : String
  transition : String
  place : PlaceName
  deriving DecidableEq, Repr

/-- The read, inhibitor and reset arcs on places no transition produces into or consumes from. -/
def unconnectedArcs (net : PetriNet V N) : List DeadArc :=
  let connected := net.transitions.flatMap fun t => t.inputSpecs.map In.place ++ t.outputPlaces
  net.transitions.flatMap fun t =>
    let dead (kind : String) (places : List PlaceName) : List DeadArc :=
      (places.filter fun p => p ∉ connected).map fun p => ⟨kind, t.name, p⟩
    dead "read" t.reads ++ dead "inhibitor" t.inhibitors ++ dead "reset" t.resets

def findDeadArcs (net : PetriNet V N) (initiallyMarked isEnvironment : PlaceName → Bool) :
    List DeadArc :=
  (unconnectedArcs net).filter fun arc => !isEnvironment arc.place && !initiallyMarked arc.place

def deadArcMessage (arc : DeadArc) : String :=
  let effect :=
    if arc.kind = "read" then "the transition can never be enabled"
    else if arc.kind = "inhibitor" then "the arc never blocks"
    else "the arc has no effect"
  s!"{arc.kind} arc of '{arc.transition}' on '{arc.place}': no transition produces into " ++
    s!"or consumes from it and it starts empty; {effect}."

end LibPetri.Runtime

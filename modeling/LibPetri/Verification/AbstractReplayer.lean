import LibPetri.Verification.FlatNet
import LibPetri.Verification.GraphDecision

/-! # The abstract replayer

The count semantics of a flat net, evaluated: when a flat transition is enabled, what its firing and
an environment injection do to the counts, which counts follow on a state, and which states violate a
property.
-/

namespace LibPetri.Verification

open LibPetri.Basis LibPetri.Core LibPetri.Runtime

variable {S : Type}

/-- The tokens in each flat place. -/
abbrev AbstractState (P : Nat) : Type := Fin P → Nat

namespace FlatNet

variable (flatNet : FlatNet S)

abbrev State : Type := AbstractState flatNet.places.length

/-- The counts of a marking in the flat places. -/
def vectorize (marking : MarkingState) : flatNet.State := fun p => marking.tokens (flatNet.placeAt p)

end FlatNet

namespace AbstractReplayer

/-! ## Steps -/

section Steps

variable {P : Nat} (state : AbstractState P) (ft : FlatTransition S P)

def enabledA : Bool :=
  ((List.finRange P).all fun p => !(0 < ft.preVector p && state p < ft.preVector p)) &&
    (ft.readPlaces.all fun p => !(state p < 1)) && ft.inhibitorPlaces.all fun p => state p = 0

/-- The counts behind a firing.  It is asked for enabled transitions only, so nothing is overdrawn. -/
def fireA : AbstractState P := fun p =>
  if p ∈ ft.resetPlaces || ft.consumeAll p then ft.postVector p
  else state p - ft.preVector p + ft.postVector p

/-- One more token at `idx`. -/
def injectA (idx : Fin P) : AbstractState P := Function.update state idx (state idx + 1)

end Steps

inductive ReplayStep
  | fire (transition : String)
  | inject (place : PlaceName)
  deriving DecidableEq, Repr

structure Successor (P : Nat) where
  state : AbstractState P
  step : ReplayStep

section Successors

variable (flatNet : FlatNet S)

/-- The injected places that resolve, with their injection bounds. -/
def envInj : List (flatNet.Index × Option Nat) :=
  flatNet.environmentInjection.entries.filterMap fun e =>
    (flatNet.placeIndex e.1).map fun idx => (idx, e.2)

/-- The capped places that resolve, with their caps. -/
def environmentCaps : List (flatNet.Index × Nat) :=
  flatNet.environmentBounds.entries.filterMap fun e =>
    (flatNet.placeIndex e.1).map fun idx => (idx, e.2)

def withinEnvBounds (state : flatNet.State) : Bool :=
  (environmentCaps flatNet).all fun (idx, cap) => !(cap < state idx)

variable (state : flatNet.State)

/-- The firings of a state: each enabled flat transition whose successor is within the caps. -/
def firings : List (FlatTransition S flatNet.places.length × flatNet.State) :=
  flatNet.transitions.filterMap fun ft =>
    if enabledA state ft && withinEnvBounds flatNet (fireA state ft) then some (ft, fireA state ft)
    else none

/-- The injections a state has room for. -/
def injections : List (Successor flatNet.places.length) :=
  flatNet.environmentInjection.entries.filterMap fun (name, bound) =>
    (flatNet.placeIndex name).bind fun idx =>
      if bound.all fun k => state idx < k then some ⟨injectA state idx, .inject name⟩ else none

/-- All successors of a state: its firings, then the injections. -/
def successors : List (Successor flatNet.places.length) :=
  ((firings flatNet state).map fun f => ⟨f.2, .fire f.1.name⟩) ++ injections flatNet state

end Successors

/-! ## Violations -/

section Violations

variable (flatNet : FlatNet S)

/-- A place meets a demand: by injection where it is injected, else by its own tokens. -/
def supplies (state : flatNet.State) (p : flatNet.Index) (need : Nat) : Bool :=
  match (envInj flatNet).lookup p with
  | some bound => bound.all fun k => need ≤ k
  | none => need ≤ state p

/-- Enablement with the injected places at the discretion of the environment. -/
def enabledRelaxEnv (state : flatNet.State) (ft : FlatTransition S flatNet.places.length) : Bool :=
  ((List.finRange _).all fun p => ft.preVector p = 0 ||
      supplies flatNet state p (ft.preVector p)) &&
    (ft.readPlaces.all fun p => supplies flatNet state p 1) &&
    ft.inhibitorPlaces.all fun p => state p = 0

/-- No flat transition is enabled that a late executor would not reap. -/
def isQuiescent (state : flatNet.State) : Bool :=
  flatNet.transitions.all fun ft => ft.reapable || !enabledRelaxEnv flatNet state ft

/-- The indices of the places that resolve, ascending, each once. -/
def indexOrdered (places : List PlaceName) : List flatNet.Index :=
  (List.finRange _).filter fun p => flatNet.placeAt p ∈ places

/-- How a token resting in a place is excused: `none` where it never counts as stranded, else by the
markers whose presence excuses it. -/
def strandingExcuses (sinkPlaces : List PlaceName) (conditional : List ConditionalSinks)
    (p : flatNet.Index) : Option (List flatNet.Index) :=
  let name := flatNet.placeAt p
  if name ∈ sinkPlaces ∨ ∃ c ∈ conditional, c.marker = name then none
  else some ((List.finRange _).filter fun k =>
    conditional.any fun c => c.marker = flatNet.placeAt k && name ∈ c.places)

/-- Some token of a state is stranded. -/
def strandsSome (sinkPlaces : List PlaceName) (conditional : List ConditionalSinks)
    (state : flatNet.State) : Bool :=
  (List.finRange _).any fun pid =>
    match strandingExcuses flatNet sinkPlaces conditional pid with
    | none => false
    | some markers => 1 ≤ state pid && markers.all fun k => state k = 0

/-- Whether a state violates a property.  A name-alignment property is refused. -/
def satisfiesBad (property : SmtProperty) (sinkPlaces : List PlaceName)
    (conditionalSinks : List ConditionalSinks) (state : flatNet.State) : Except Thrown Bool :=
  match property with
  | .deadlockFree =>
    .ok (isQuiescent flatNet state && strandsSome flatNet sinkPlaces conditionalSinks state)
  | .terminatesAtSink =>
    .ok (isQuiescent flatNet state &&
      (indexOrdered flatNet sinkPlaces).all fun pid => state pid = 0)
  | .mutualExclusion p1 p2 =>
    .ok (match flatNet.placeIndex p1, flatNet.placeIndex p2 with
      | some idx1, some idx2 => 1 ≤ state idx1 && 1 ≤ state idx2
      | _, _ => false)
  | .placeBound place bound => .ok (aboveBound place bound)
  | .branchPlaceBound place bound => .ok (aboveBound place bound)
  | .joinedOrDeadLettered pending =>
    .ok (match flatNet.placeIndex pending with
      | none => false
      | some idx => isQuiescent flatNet state && 1 ≤ state idx)
  | .unreachable places =>
    let resolved := places.filterMap flatNet.placeIndex
    .ok (resolved.all (fun idx => 1 ≤ state idx) && resolved ≠ [])
  | .quiescentCount places min max waivedBy =>
    let count := ((indexOrdered flatNet places).map state).sum
    .ok (isQuiescent flatNet state && (max < (count : WithTop ℕ) || count < min &&
      (indexOrdered flatNet waivedBy).all fun k => state k = 0))
  | .nameAligned places => .error (refused (.nameAligned places))
  | .quiescentNameAligned places => .error (refused (.quiescentNameAligned places))
where
  aboveBound (place : PlaceName) (bound : Bound) : Bool :=
    match flatNet.placeIndex place with
    | none => false
    | some idx => bound < ((state idx : ℚ) : Bound)
  refused (property : SmtProperty) : Thrown :=
    .error "Error" (property.routeBOnlyReason.getD "")

end Violations

end AbstractReplayer

end LibPetri.Verification

import LibPetri.Basis.BoundMatrix
import LibPetri.Verification.MarkingState

/-! # Deciding a property over classes

The predicate the state-class-graph routes decide.  Reachability-safety properties read the marking of
a class alone, quiescence properties also whether the class has successors.
-/

namespace LibPetri.Verification

open LibPetri.Basis LibPetri.Core LibPetri.Runtime

/-! ## Properties -/

inductive SmtProperty
  | deadlockFree
  | terminatesAtSink
  | mutualExclusion (p1 p2 : PlaceName)
  | placeBound (place : PlaceName) (bound : Bound)
  | unreachable (places : List PlaceName)
  | branchPlaceBound (place : PlaceName) (bound : Bound)
  | joinedOrDeadLettered (pending : PlaceName)
  | quiescentCount (places : List PlaceName) (min : Nat) (max : WithTop ℕ)
      (waivedBy : List PlaceName)
  | nameAligned (places : List PlaceName)
  | quiescentNameAligned (places : List PlaceName)

namespace SmtProperty

/-- `a`, `a and b`, `a, b and c`. -/
def placeList (places : List PlaceName) : String :=
  match places.getLast? with
  | none => ""
  | some last =>
    if places.dropLast = [] then last
    else ", ".intercalate places.dropLast ++ " and " ++ last

/-- The description of a name-alignment property, the only properties a route declines. -/
def alignmentDescription : SmtProperty → Option String
  | nameAligned places => some s!"Name alignment of {placeList places}"
  | quiescentNameAligned places => some s!"Quiescent name alignment of {placeList places}"
  | _ => none

/-- Why a route without names gives the property no verdict, where it is a name-alignment property. -/
def routeBOnlyReason (property : SmtProperty) : Option String :=
  property.alignmentDescription.map fun description =>
    s!"{description} is decided only by the name-partition state-class graph (NU-055, Route B)"

end SmtProperty

/-! ## Where a token may rest -/

/-- Places where a token may rest while `marker` holds a token. -/
structure ConditionalSinks where
  marker : PlaceName
  places : List PlaceName

section RestSet

variable (m : MarkingState) (sinkPlaces : List PlaceName) (conditional : List ConditionalSinks)

/-- The places where a token may rest: sinks, markers, and the places of every marked marker. -/
def restingNames : List PlaceName :=
  sinkPlaces ++ conditional.flatMap fun c =>
    c.marker :: if m.hasTokens c.marker then c.places else []

/-- Some token is outside every place where resting is permitted. -/
def strandsToken : Bool :=
  m.placesWithTokens.any fun p => p ∉ restingNames m sinkPlaces conditional

def anySinkMarked : Bool := m.placesWithTokens.any fun p => p ∈ sinkPlaces

end RestSet

/-! ## Counts -/

inductive CountSide
  | lower
  | upper
  deriving DecidableEq

/-- The tokens across `places`, each place counted once. -/
def tokensAcross (m : MarkingState) (places : List PlaceName) : Nat :=
  (places.eraseDups.map m.tokens).sum

/-- Which bound of a count a marking breaks. -/
def countViolation (m : MarkingState) (places : List PlaceName) (min : Nat) (max : WithTop ℕ)
    (waivedBy : List PlaceName) : Option CountSide :=
  let count := tokensAcross m places
  if max < (count : WithTop ℕ) then some .upper
  else if count < min ∧ m.hasTokensInAny waivedBy = false then some .lower
  else none

/-! ## The decision -/

/-- A finite graph of classes, class 0 the initial one. -/
structure ClassView where
  count : Nat
  markingOf : Nat → MarkingState
  isQuiescent : Nat → Bool

/-- Whether a marking violates a reachability-safety property.  The name-alignment properties do not
get here. -/
def safetyViolation : SmtProperty → Option (MarkingState → Bool)
  | .placeBound place bound => some fun m => bound < ((m.tokens place : ℚ) : Bound)
  | .branchPlaceBound place bound => some fun m => bound < ((m.tokens place : ℚ) : Bound)
  | .unreachable places => some fun m => places.all m.hasTokens
  | .mutualExclusion p1 p2 => some fun m => m.hasTokens p1 && m.hasTokens p2
  | _ => none

/-- Whether a quiescent marking violates a quiescence property. -/
def restViolation (property : SmtProperty) (sinkPlaces : List PlaceName)
    (conditionalSinks : List ConditionalSinks) (m : MarkingState) : Bool :=
  match property with
  | .deadlockFree => strandsToken m sinkPlaces conditionalSinks
  | .terminatesAtSink => !anySinkMarked m sinkPlaces
  | .joinedOrDeadLettered pending => m.hasTokens pending
  | .quiescentCount places min max waivedBy =>
    (countViolation m places min max waivedBy).isSome
  | _ => false

section Decide

variable (view : ClassView) (property : SmtProperty) (sinkPlaces : List PlaceName)
  (conditionalSinks : List ConditionalSinks)

/-- Whether class `i` witnesses a violation. -/
def classViolates (i : Nat) : Bool :=
  match safetyViolation property with
  | some violates => violates (view.markingOf i)
  | none =>
    view.isQuiescent i && restViolation property sinkPlaces conditionalSinks (view.markingOf i)

/-- The index of the first class that witnesses a violation.  Every name is aligned where there are
none, so a name-alignment property is refused. -/
def decideOverClasses : Except Thrown (Option Nat) :=
  match property.routeBOnlyReason with
  | some reason => .error (.error "Error" reason)
  | none =>
    .ok ((List.range view.count).find? (classViolates view property sinkPlaces conditionalSinks))

end Decide

end LibPetri.Verification

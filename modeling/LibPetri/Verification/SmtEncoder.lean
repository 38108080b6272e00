import LibPetri.Basis.Smt
import LibPetri.Verification.AbstractReplayer

/-! # The encoder

The conditions the solver scripts are assembled from: one step of a flat net, the marking equation over
firing counters, invariants, and the violation of a property.  The state is a vector of terms, one for
each flat place.
-/

namespace LibPetri.Verification

open LibPetri.Basis LibPetri.Basis.Smt LibPetri.Core LibPetri.Runtime

/-- A conservation law: the weighted sum over its support is constant. -/
structure PInvariant (P : Nat) where
  weights : Fin P → Int
  constant : Int
  support : List (Fin P)

namespace SmtEncoder

variable {S V : Type}

/-- A numeral. -/
abbrev num (n : Int) : Term V := .lit n

/-! ## Environment -/

section Environment

variable (flatNet : FlatNet S)

/-- The injected places, in index order, with their injection bounds. -/
def resolveEnvInjection : List (flatNet.Index × Option Nat) :=
  (List.finRange _).filterMap fun pid =>
    (flatNet.environmentInjection.get? (flatNet.placeAt pid)).map fun bound => (pid, bound)

/-- The capped places, in index order, with their caps. -/
def envBounds : List (flatNet.Index × Nat) :=
  (List.finRange _).filterMap fun pid =>
    (flatNet.environmentBounds.get? (flatNet.placeAt pid)).map fun max => (pid, max)

/-- A consume-all or reset arc of some transition clears the place. -/
def nonlinearPlaces (p : flatNet.Index) : Bool :=
  flatNet.transitions.any fun ft => ft.consumeAll p || p ∈ ft.resetPlaces

end Environment

/-! ## The marking equation -/

section StateEquation

/-- The counters after the firing of `fired`, or after an injection. -/
def counterConditions {T : Nat} (fired : Option (Fin T)) (nVars npVars : Fin T → Term V) :
    List (Formula V) :=
  ((List.finRange T).map fun k =>
    if fired = some k then .eq (npVars k) (.add [nVars k, num 1]) else .eq (npVars k) (nVars k)) ++
  (List.finRange T).map fun k => .ge (npVars k) (num 0)

variable (flatNet : FlatNet S)

/-- `post − pre`. -/
def column (t : flatNet.Position) (p : flatNet.Index) : Int :=
  (flatNet.transition t).postVector p - (flatNet.transition t).preVector p

/-- The marking equation: an equality on a place whose column is exact in every step, an upper bound on
a cleared place, and nothing on an injected one. -/
def stateEquationConditions (initialMarking : MarkingState) (nVars : flatNet.Position → Term V)
    (mVars : flatNet.Index → Term V) : List (Formula V) :=
  let injected := (resolveEnvInjection flatNet).map Prod.fst
  ((List.finRange _).filter fun p => p ∉ injected).map fun p =>
    let terms := (List.finRange _).filterMap fun t =>
      let c := column flatNet t p
      if c = 0 then none else some (intTerm c (nVars t))
    let m0 := initialMarking.tokens (flatNet.placeAt p)
    let rhs := if terms = [] then num m0 else .add (num m0 :: terms)
    if nonlinearPlaces flatNet p then .le (mVars p) rhs else .eq (mVars p) rhs

end StateEquation

/-! ## Steps -/

section Steps

variable {P : Nat}

/-- What a firing makes of one place: a cleared place holds what is deposited. -/
def updateCondition (ft : FlatTransition S P) (mVars mpVars : Fin P → Term V) (i : Fin P) :
    Formula V :=
  if i ∈ ft.resetPlaces || ft.consumeAll i then .eq (mpVars i) (num (ft.postVector i))
  else
    let delta : Int := ft.postVector i - ft.preVector i
    if 0 < delta then .eq (mpVars i) (.add [mVars i, num delta])
    else if delta < 0 then .eq (mpVars i) (.sub (mVars i) (num (-delta)))
    else .eq (mpVars i) (mVars i)

/-- The guard of a flat transition. -/
def guardConditions (ft : FlatTransition S P) (mVars : Fin P → Term V) : List (Formula V) :=
  let inputs : List (Formula V) := ((List.finRange P).filter fun i => 0 < ft.preVector i).map
    fun i => .ge (mVars i) (num (ft.preVector i))
  let inhibitors : List (Formula V) := ft.inhibitorPlaces.map fun inh => .eq (mVars inh) (num 0)
  let reads : List (Formula V) := ft.readPlaces.map fun rd => .ge (mVars rd) (num 1)
  inputs ++ inhibitors ++ reads

/-- Enablement, firing and non-negativity of one flat transition. -/
def firingConditions (ft : FlatTransition S P) (mVars mpVars : Fin P → Term V) :
    List (Formula V) :=
  guardConditions ft mVars ++ (List.finRange P).map (updateCondition ft mVars mpVars) ++
    (List.finRange P).map fun i => .ge (mpVars i) (num 0)

def invariantConditions (invariants : List (PInvariant P)) (names : Fin P → Term V) :
    List (Formula V) :=
  invariants.filterMap fun inv =>
    let terms := ((List.finRange P).filter fun i => i ∈ inv.support).map fun i =>
      Term.mul (inv.weights i) (names i)
    if terms = [] then none else some (.eq (sumTerms terms) (num inv.constant))

/-- One more token at `pid`, where the injection bound has room. -/
def injectionConditions (pid : Fin P) (bound : Option Nat) (mVars mpVars : Fin P → Term V) :
    List (Formula V) :=
  (bound.toList.map fun bound => .lt (mVars pid) (num bound)) ++
  (List.finRange P).map fun i =>
    if i = pid then .eq (mpVars i) (.add [mVars i, num 1]) else .eq (mpVars i) (mVars i)

variable (flatNet : FlatNet S)

def envBoundConditions (mpVars : flatNet.Index → Term V) : List (Formula V) :=
  (envBounds flatNet).map fun (pid, max) => .le (mpVars pid) (num max)

/-- The one-step relation, without any strengthening: a disjunct for each flat transition and for each
injection, with the counters where the marking equation is encoded. -/
def encodeStepRelation (stateEquation : Bool) (mVars mpVars : flatNet.Index → Term V)
    (nVars npVars : flatNet.Position → Term V) : Formula V :=
  let counters (fired : Option flatNet.Position) :=
    if stateEquation then counterConditions fired nVars npVars else []
  disjoin (((List.finRange _).map fun k =>
      conjoin (firingConditions (flatNet.transition k) mVars mpVars ++ counters (some k) ++
        envBoundConditions flatNet mpVars)) ++
    (resolveEnvInjection flatNet).map fun (pid, bound) =>
      conjoin (injectionConditions pid bound mVars mpVars ++ counters none))

end Steps

/-! ## Violations -/

section Violations

variable (flatNet : FlatNet S)

/-- No injection meets a demand: it is beyond the injection bound of the place. -/
def exceedsInjection (i : flatNet.Index) (need : Nat) : Bool :=
  ((resolveEnvInjection flatNet).lookup i).any fun bound => bound.any fun k => k < need

def isInjected (i : flatNet.Index) : Bool := ((resolveEnvInjection flatNet).lookup i).isSome

def permanentlyDisabled (ft : FlatTransition S flatNet.places.length) : Bool :=
  ((List.finRange _).any fun i => 0 < ft.preVector i && exceedsInjection flatNet i (ft.preVector i)) ||
    ft.readPlaces.any fun rd => exceedsInjection flatNet rd 1

variable (mVars : flatNet.Index → Term V)

/-- What may disable a flat transition, injected places left out. -/
def disableReasons (ft : FlatTransition S flatNet.places.length) : List (Formula V) :=
  let inputs : List (Formula V) :=
    ((List.finRange _).filter fun i => 0 < ft.preVector i && !isInjected flatNet i).map
      fun i => .lt (mVars i) (num (ft.preVector i))
  let inhibitors : List (Formula V) := ft.inhibitorPlaces.map fun inh => .gt (mVars inh) (num 0)
  let reads : List (Formula V) := (ft.readPlaces.filter fun rd => !isInjected flatNet rd).map
    fun rd => .lt (mVars rd) (num 1)
  inputs ++ inhibitors ++ reads

/-- A flat transition is disabled.  `none` where it is always enabled, possibly by injection. -/
def disabledCondition (ft : FlatTransition S flatNet.places.length) : Option (Formula V) :=
  if permanentlyDisabled flatNet ft then some .tt
  else if disableReasons flatNet mVars ft = [] then none
  else some (.or (disableReasons flatNet mVars ft))

/-- Every transition that is not reapable is disabled.  `none` where no marking is quiescent. -/
def encodeQuiescent : Option (List (Formula V)) :=
  (flatNet.transitions.filter fun ft => !ft.reapable).mapM (disabledCondition flatNet mVars)

/-- A token is stranded in some place. -/
def strandedConditions (sinkPlaces : List PlaceName) (conditionalSinks : List ConditionalSinks) :
    List (Formula V) :=
  (List.finRange _).filterMap fun pid =>
    (AbstractReplayer.strandingExcuses flatNet sinkPlaces conditionalSinks pid).map fun markers =>
      if markers = [] then .ge (mVars pid) (num 1)
      else .and (.ge (mVars pid) (num 1) :: markers.map fun k => .eq (mVars k) (num 0))

/-- The count is below `min` with every waiver empty. -/
def belowCondition (counts waivers : List (Term V)) (min : Nat) : List (Formula V) :=
  let below : Formula V := .lt (sumTerms counts) (num min)
  if 0 < min then
    [if waivers = [] then below else .and (below :: waivers.map fun w => .eq w (num 0))]
  else []

/-- The count is above `max`. -/
def aboveCondition (counts : List (Term V)) (max : WithTop ℕ) : List (Formula V) :=
  match max with
  | none => []
  | some max => [.gt (sumTerms counts) (num max)]

/-- The count is below `min` or above `max`.  `none` where neither bound asks for anything. -/
def countViolationCondition (counts waivers : List (Term V)) (min : Nat) (max : WithTop ℕ) :
    Option (Formula V) :=
  let parts := belowCondition counts waivers min ++ aboveCondition counts max
  if parts = [] then none else some (disjoin parts)

/-- `true` for no conditions, their conjunction otherwise. -/
def joinConditions (conditions : List (Formula V)) : Formula V :=
  if conditions = [] then .tt else .and conditions

/-- A quiescence property: `false` where no marking is quiescent. -/
def quiescent (own : List (Formula V)) : Formula V :=
  match encodeQuiescent flatNet mVars with
  | none => .ff
  | some conditions => joinConditions (conditions ++ own)

/-- The marking violates the property.  `none` where there is no such formula: a name-alignment property
is refused, and an infinite bound has no numeral. -/
def encodePropertyViolation (property : SmtProperty) (sinkPlaces : List PlaceName)
    (conditionalSinks : List ConditionalSinks) : Option (Formula V) :=
  match property with
  | .deadlockFree =>
    let stranded := strandedConditions flatNet mVars sinkPlaces conditionalSinks
    some (if stranded = [] then .ff else quiescent flatNet mVars [.or stranded])
  | .terminatesAtSink =>
    some (quiescent flatNet mVars ((indexOrdered sinkPlaces).map fun pid => .eq (mVars pid) (num 0)))
  | .mutualExclusion p1 p2 => some (marked [p1, p2])
  | .placeBound place bound => exceeds place bound
  | .branchPlaceBound place bound => exceeds place bound
  | .unreachable places => some (marked places)
  | .joinedOrDeadLettered pending =>
    some (match flatNet.placeIndex pending with
      | none => .ff
      | some pid => quiescent flatNet mVars [.ge (mVars pid) (num 1)])
  | .quiescentCount places min max waivedBy =>
    some (match countViolationCondition ((indexOrdered places).map mVars)
        ((indexOrdered waivedBy).map mVars) min max with
      | none => .ff
      | some bad => quiescent flatNet mVars [bad])
  | .nameAligned _ => none
  | .quiescentNameAligned _ => none
where
  indexOrdered (places : List PlaceName) : List flatNet.Index :=
    AbstractReplayer.indexOrdered flatNet places
  marked (places : List PlaceName) : Formula V :=
    let conditions : List (Formula V) := (indexOrdered places).map fun i => .ge (mVars i) (num 1)
    if conditions = [] then .ff else .and conditions
  exceeds (place : PlaceName) (bound : Bound) : Option (Formula V) :=
    match bound with
    | none => none
    | some bound =>
      some (match flatNet.placeIndex place with
        | none => .ff
        | some pid => .gt (mVars pid) (.lit bound))

end Violations

end SmtEncoder

end LibPetri.Verification

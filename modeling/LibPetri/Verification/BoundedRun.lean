import LibPetri.Verification.SmtEncoder

/-! # Bounded runs

The firing bound of a ranking, the unrolled formula of the runs up to a depth, and the phase that
doubles the depth up to the bound.
-/

namespace LibPetri.Verification

open LibPetri.Basis LibPetri.Basis.Smt LibPetri.Core LibPetri.Runtime

namespace BoundedRun

open AbstractReplayer

variable {S : Type}

/-! ## Rankings -/

section Rankings

/-- A flat transition that does not inhibit a place it needs. -/
def canFire {P : Nat} (ft : FlatTransition S P) : Bool :=
  ft.inhibitorPlaces.all fun p => !(0 < ft.preVector p || p ∈ ft.readPlaces)

structure FiringBound where
  weights : List Int
  bound : Int
  deriving Repr

variable (flatNet : FlatNet S)

/-- `r·M`. -/
def weigh (weights : List Int) (counts : flatNet.Index → Int) : Int :=
  ((List.finRange _).map fun p : flatNet.Index => weights.getD p 0 * counts p).sum

/-- A ranking is not negative, and every flat transition that can fire lowers it by one at least. -/
def checkRankingExact (initial : flatNet.State) (weights : List Int) : Option FiringBound :=
  if weights.length ≠ flatNet.places.length || weights.any (· < 0) then none
  else if flatNet.transitions.all fun ft =>
      !canFire ft || weigh flatNet weights (fun p => ft.postVector p - ft.preVector p) ≤ -1 then
    some ⟨weights, weigh flatNet weights fun p => initial p⟩
  else none

end Rankings

/-! ## Unrolled runs -/

/-- The constants of an unrolled run: a selector for each step, and the marking after it. -/
inductive RunVar (P : Nat)
  | s (i : Nat)
  | m (i : Nat) (p : Fin P)

section Unrolled

variable {P : Nat}

def clears (ft : FlatTransition S P) (p : Fin P) : Bool := ft.consumeAll p || p ∈ ft.resetPlaces

def guardConditions {V : Type} (ft : FlatTransition S P) (m : Fin P → Term V) : List (Formula V) :=
  SmtEncoder.guardConditions ft m

def shifted {V : Type} (v : Term V) (delta : Int) : Term V :=
  if delta = 0 then v
  else if 0 < delta then .add [v, SmtEncoder.num delta]
  else .sub v (SmtEncoder.num (-delta))

variable (flatNet : FlatNet S) (initial : flatNet.State)

abbrev RunFormula : Type := Formula (RunVar flatNet.places.length)

/-- The count of a place after `i` steps. -/
def markingTerm (i : Nat) (p : flatNet.Index) : Term (RunVar flatNet.places.length) :=
  if i = 0 then SmtEncoder.num (initial p) else .var (.m i p)

/-- The selector of a step. -/
def selector (i : Nat) : Term (RunVar flatNet.places.length) := .var (.s i)

/-- The transitions that change a place, last first. -/
def nesting (p : flatNet.Index) : List flatNet.Position :=
  (List.finRange _).reverse.filter fun t =>
    clears (flatNet.transition t) p ||
      (flatNet.transition t).postVector p ≠ (flatNet.transition t).preVector p

/-- What a place holds after step `i`: a chain of tests of the selector, the last transition tested
innermost. -/
def nextTerm (i : Nat) (p : flatNet.Index) : Term (RunVar flatNet.places.length) :=
  (nesting flatNet p).foldl (fun value t =>
    let ft := flatNet.transition t
    let next := if clears ft p then SmtEncoder.num (ft.postVector p)
      else shifted (markingTerm flatNet initial i p) (ft.postVector p - ft.preVector p : Int)
    .ite (selector flatNet i) (SmtEncoder.num t.val) next value) (markingTerm flatNet initial i p)

/-- The asserts of step `i`: the selector is in range, an idle step is followed by idle steps, the
selected transition is enabled, and the next marking is its. -/
def stepConditions (depth i : Nat) : List (RunFormula flatNet) :=
  let T := flatNet.transitions.length
  let s := selector flatNet
  let range : List (RunFormula flatNet) :=
    [.and [.ge (s i) (SmtEncoder.num 0), .le (s i) (SmtEncoder.num T)]]
  let idle : List (RunFormula flatNet) :=
    if i + 1 < depth then
      [.imp (.eq (s i) (SmtEncoder.num T)) (.eq (s (i + 1)) (SmtEncoder.num T))]
    else []
  let guards : List (RunFormula flatNet) := (List.finRange _).map fun t =>
    .imp (.eq (s i) (SmtEncoder.num t.val))
      (conjoin (guardConditions (flatNet.transition t) (markingTerm flatNet initial i)))
  let updates : List (RunFormula flatNet) := (List.finRange _).map fun p =>
    .eq (markingTerm flatNet initial (i + 1) p) (nextTerm flatNet initial i p)
  let caps : List (RunFormula flatNet) := (environmentCaps flatNet).map fun (p, cap) =>
    .le (markingTerm flatNet initial (i + 1) p) (SmtEncoder.num cap)
  range ++ idle ++ guards ++ updates ++ caps

/-- The asserts of the bounded model check.  `none` where the violation has no formula. -/
def encodeBoundedRun (property : SmtProperty) (sinkPlaces : List PlaceName)
    (conditionalSinks : List ConditionalSinks) (depth : Nat) : Option (List (RunFormula flatNet)) :=
  (SmtEncoder.encodePropertyViolation flatNet (markingTerm flatNet initial depth) property sinkPlaces
    conditionalSinks).map fun bad =>
      (List.range depth).flatMap (stepConditions flatNet initial depth) ++ [bad]

end Unrolled

/-! ## Replay -/

section Replay

variable (flatNet : FlatNet S) (isBad : flatNet.State → Bool)

/-- The markings and step names of a firing sequence that ends in a violation. -/
def replayRun (initial : flatNet.State) :
    List flatNet.Position → Option (List flatNet.State × List String)
  | [] => if isBad initial then some ([initial], []) else none
  | t :: firings =>
    let ft := flatNet.transition t
    if enabledA initial ft && withinEnvBounds flatNet (fireA initial ft) then
      (replayRun (fireA initial ft) firings).map fun (states, steps) =>
        (initial :: states, ft.name :: steps)
    else none

end Replay

/-! ## The phase -/

/-- The reply to the ranking query. -/
inductive RankingReply
  | failed (reason : String)
  | sat (weights : Option (List Int))
  | unsat (repeatable : Option (List Nat))
  | unknown

/-- The reply to a bounded run, with the firings decoded from a model. -/
inductive BoundedReply (T : Nat)
  | failed (reason : String)
  | sat (firings : Option (List (Fin T)))
  | unsat
  | unknown

inductive FiringBoundOutcome (P : Nat)
  | proven (bound : FiringBound)
  | violated (bound : FiringBound) (states : List (AbstractState P)) (steps : List String)
  | unbounded (repeatable : Option (List Nat))
  | inconclusive (reason : String) (bound : Option FiringBound)

section Phase

variable (flatNet : FlatNet S) (isBad : flatNet.State → Bool) (initial : flatNet.State)
  (bound : FiringBound) (K maxDepth : Nat)
  (reply : Nat → BoundedReply flatNet.transitions.length)

/-- The turns of the bounded model check.  A depth of zero is the last one. -/
def deepen (depth : Nat) (last : depth = 0 → K = 0 ∨ maxDepth = 0) :
    FiringBoundOutcome flatNet.places.length :=
  match reply depth with
  | .failed reason => .inconclusive reason (some bound)
  | .unknown =>
    .inconclusive s!"the bounded run at depth {depth} answered unknown" (some bound)
  | .sat firings =>
    match firings.bind (replayRun flatNet isBad initial) with
    | none => .inconclusive "the bounded run did not replay under the exact semantics" (some bound)
    | some (states, steps) => .violated bound states steps
  | .unsat =>
    if K ≤ depth then .proven bound
    else if maxDepth ≤ depth then
      .inconclusive s!"the firing bound {K} exceeds the depth limit {maxDepth}" (some bound)
    else deepen (min (2 * depth) (min K maxDepth)) (by omega)
termination_by K - depth
decreasing_by omega

end Phase

/-- `Number.MAX_SAFE_INTEGER`. -/
def maxSafeInteger : Int := 9007199254740991

/-- The phase, over the replies of a solver. -/
def runFiringBoundPhase (flatNet : FlatNet S) (initialMarking : MarkingState) (property : SmtProperty)
    (sinkPlaces : List PlaceName) (conditionalSinks : List ConditionalSinks) (maxDepth : Nat)
    (ranking : RankingReply) (reply : Nat → BoundedReply flatNet.transitions.length) :
    FiringBoundOutcome flatNet.places.length :=
  let initial := flatNet.vectorize initialMarking
  let isBad (state : flatNet.State) : Bool :=
    match satisfiesBad flatNet property sinkPlaces conditionalSinks state with
    | .ok bad => bad
    | .error _ => false
  match property.routeBOnlyReason with
  | some reason => .inconclusive reason none
  | none =>
    if flatNet.environmentInjection.entries ≠ [] then
      .inconclusive "environment injection has no firing bound" none
    else match ranking with
      | .failed reason => .inconclusive reason none
      | .unsat repeatable => .unbounded repeatable
      | .unknown => .inconclusive "the ranking query answered unknown" none
      | .sat weights =>
        match weights.bind (checkRankingExact flatNet initial) with
        | none => .inconclusive "the ranking failed the exact re-check" none
        | some bound =>
          if maxSafeInteger < bound.bound then
            .inconclusive s!"firing bound {bound.bound} is too large" (some bound)
          else
            deepen flatNet isBad initial bound bound.bound.toNat maxDepth reply
              (min 8 (min bound.bound.toNat maxDepth)) (by omega)

end BoundedRun

end LibPetri.Verification

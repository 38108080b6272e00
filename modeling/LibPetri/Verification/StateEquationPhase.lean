import LibPetri.Verification.Refinements

/-! # The state-equation phase

The query whether a marking that the equation and the refinements admit violates the property, and the
loop that refines its candidates away.
-/

namespace LibPetri.Verification

open LibPetri.Basis LibPetri.Basis.Smt LibPetri.Core LibPetri.Runtime

namespace StateEquationPhase

open AbstractReplayer SmtEncoder InvariantSynthesis TrapRefinement

/-! ## The query -/

/-- The constants of the query. -/
inductive QueryVar (P T : Nat)
  | m (i : Fin P)
  | n (k : Fin T)

/-- The inequality as a formula, read the other way round when no weight is positive. -/
def inequalityTerm {V : Type} {P : Nat} (inequality : MarkingInequality P) (vars : Fin P → Term V) :
    Formula V :=
  let flip := (List.finRange P).all fun p => inequality.weights p ≤ 0
  let lhs := sumTerms ((List.finRange P).filterMap fun p =>
    let w := if flip then -inequality.weights p else inequality.weights p
    if w = 0 then none else some (intTerm w (vars p)))
  if flip then .ge lhs (num (-inequality.constant)) else .le lhs (num inequality.constant)

variable {S : Type} (flatNet : FlatNet S)

abbrev QueryFormula : Type := Formula (QueryVar flatNet.places.length flatNet.transitions.length)

abbrev Refinement : Type := MarkingInequality flatNet.places.length

/-- The asserts of the query.  `none` where the violation has no formula. -/
def encodeStateEquationQuery (initialMarking : MarkingState) (property : SmtProperty)
    (sinkPlaces : List PlaceName) (conditionalSinks : List ConditionalSinks)
    (refinements : List (Refinement flatNet)) : Option (List (QueryFormula flatNet)) :=
  let mVars := fun i => Term.var (QueryVar.m i)
  let nVars := fun k => Term.var (QueryVar.n k)
  let nonNegative : List (QueryFormula flatNet) :=
    ((List.finRange _).map mVars ++ (List.finRange _).map nVars).map fun v => .ge v (num 0)
  (encodePropertyViolation flatNet mVars property sinkPlaces conditionalSinks).map fun bad =>
    nonNegative ++ stateEquationConditions flatNet initialMarking nVars mVars ++
      refinements.map (fun r => inequalityTerm r mVars) ++ [bad]

/-! ## The loop -/

/-- A marking the equation admits, and the firing counts it takes. -/
structure Candidate where
  marking : flatNet.Index → Int
  counts : flatNet.Position → Int

/-- The reply to a script: its `sat` comes with what is decoded from the model. -/
inductive Reply (M : Type)
  | failed (reason : String)
  | sat (model : Option M)
  | unsat
  | unknown

/-- The weights and the bound that a synthesis query found. -/
abbrev Synthesized : Type := (flatNet.Index → Int) × Int

/-- A solver: its replies to the query of some refinements, and to the synthesis queries of a candidate
found with them. -/
structure Solver where
  query : List (Refinement flatNet) → Reply (Candidate flatNet)
  inductiveInequality : List (Refinement flatNet) → Candidate flatNet → Reply (Synthesized flatNet)
  relativeInequality : List (Refinement flatNet) → Candidate flatNet → Reply (Synthesized flatNet)

/-- A run that reaches a violation. -/
structure Witness where
  states : List flatNet.State
  steps : List String

inductive Outcome
  | proven (refinements : List (Refinement flatNet))
  | violated (witness : Witness flatNet) (refinements : List (Refinement flatNet))
  | inconclusive (reason : String) (refinements : List (Refinement flatNet))
    (candidate : Option (Candidate flatNet))

/-- The default bound on the weights of a synthesized inequality. -/
def defaultWeightBound (initial : flatNet.State) : Nat :=
  max 8 ((List.finRange _).map initial).sum

/-- The inequality a synthesis query found, `none` when it proved there is none. -/
def synthesize {flatNet : FlatNet S} (origin : RefinementOrigin) :
    Reply (Synthesized flatNet) → Except String (Option (Refinement flatNet))
  | .failed reason => .error reason
  | .unknown => .error "the inductive-inequality query answered unknown"
  | .unsat => .ok none
  | .sat none => .error "the inductive-inequality model could not be decoded"
  | .sat (some (weights, constant)) => .ok (some ⟨weights, constant, origin⟩)

/-- The refinement that excludes a candidate: a trap, then an inequality that every step keeps, then one
kept from the markings of the equation. -/
def refine (solver : Solver flatNet) (initial : flatNet.State)
    (refinements : List (Refinement flatNet)) (candidate : Candidate flatNet) :
    Except String (Refinement flatNet) :=
  match refutingTrap flatNet.transitions initial candidate.marking with
  | some trap => .ok trap
  | none => do
    match ← synthesize .inductiveStep (solver.inductiveInequality refinements candidate) with
    | some inequality =>
      if !checkInductiveExact flatNet initial inequality || inequality.holdsAt candidate.marking then
        .error "an inductive inequality failed the exact re-check"
      else .ok inequality
    | none =>
      match ← synthesize .relative (solver.relativeInequality refinements candidate) with
      | none =>
        let weightBound := defaultWeightBound flatNet initial
        .error ("no trap and no inductive inequality with weights within " ++
          s!"±{weightBound} excludes the candidate")
      | some inequality =>
        if inequality.holdsAt candidate.marking then
          .error "an inductive inequality does not exclude its candidate"
        else .ok inequality

/-- The turns of the phase, `remaining` refinements before it gives up. -/
def refineUntilDecided (solver : Solver flatNet) (search : Candidate flatNet → Option (Witness flatNet))
    (initial : flatNet.State) (maxRefinements : Nat) :
    Nat → List (Refinement flatNet) → Outcome flatNet
  | remaining, refinements =>
    match solver.query refinements with
    | .failed reason => .inconclusive reason refinements none
    | .unsat => .proven refinements
    | .unknown => .inconclusive "the state-equation query answered unknown" refinements none
    | .sat none => .inconclusive "the state-equation model could not be decoded" refinements none
    | .sat (some candidate) =>
      match search candidate with
      | some witness => .violated witness refinements
      | none =>
        match remaining with
        | 0 => .inconclusive s!"refinement budget exhausted ({maxRefinements} refinements)" refinements
            (some candidate)
        | remaining + 1 =>
          match refine flatNet solver initial refinements candidate with
          | .error reason => .inconclusive reason refinements (some candidate)
          | .ok refinement =>
            refineUntilDecided solver search initial maxRefinements remaining
              (refinements ++ [refinement])

/-- The phase.  `search` looks for a violating run within the counts of a candidate. -/
def runStateEquationPhase (initialMarking : MarkingState) (property : SmtProperty)
    (solver : Solver flatNet) (search : Candidate flatNet → Option (Witness flatNet))
    (maxRefinements : Nat) : Outcome flatNet :=
  match property.routeBOnlyReason with
  | some reason => .inconclusive reason [] none
  | none => refineUntilDecided flatNet solver search (flatNet.vectorize initialMarking) maxRefinements
      maxRefinements []

end StateEquationPhase

end LibPetri.Verification

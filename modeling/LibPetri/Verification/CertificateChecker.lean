import LibPetri.Verification.SmtEncoder

/-! # The certificate checker

A certificate interprets `Reachable`.  With the invariants, and with the marking equation where counters
are kept, it is a candidate for an inductive invariant; three verification conditions ask a solver to
refute that it is one and that it excludes every violation.
-/

namespace LibPetri.Verification

open LibPetri.Basis LibPetri.Basis.Smt LibPetri.Core LibPetri.Runtime

/-- The constants of the scripts: the counts and the counters, before and after a step. -/
inductive StateVar (P T : Nat)
  | m (i : Fin P)
  | mp (i : Fin P)
  | n (k : Fin T)
  | np (k : Fin T)

namespace CertificateChecker

open SmtEncoder

variable {S : Type} (flatNet : FlatNet S)

/-- The formulas over the counts and counters of one step. -/
abbrev StepFormula : Type := Formula (StateVar flatNet.places.length flatNet.transitions.length)

abbrev StepTerm : Type := Term (StateVar flatNet.places.length flatNet.transitions.length)

variable {flatNet} in
/-- The counters that are in use. -/
def counters (stateEquation : Bool) (n : flatNet.Position → StepTerm flatNet) :
    List (StepTerm flatNet) :=
  if stateEquation then (List.finRange _).map n else []

/-- The candidate invariant over given counts and counters. -/
def candidateOf (initialMarking : MarkingState) (invariants : List (PInvariant flatNet.places.length))
    (stateEquation : Bool) (m : flatNet.Index → StepTerm flatNet)
    (n : flatNet.Position → StepTerm flatNet) : StepFormula flatNet :=
  let certified : List (StepFormula flatNet) :=
    [.app ((List.finRange _).map m ++ counters stateEquation n)]
  let equation : List (StepFormula flatNet) :=
    if 0 < (counters stateEquation n).length then
      (counters stateEquation n).map (fun v => .ge v (num 0)) ++
        stateEquationConditions flatNet initialMarking n m
    else []
  conjoin (certified ++ invariantConditions invariants m ++ equation)

/-- The asserts of the three conditions: initiation, consecution and safety.  `none` where the violation
has no formula. -/
def buildVerificationConditions (initialMarking : MarkingState) (property : SmtProperty)
    (sinkPlaces : List PlaceName) (invariants : List (PInvariant flatNet.places.length))
    (conditionalSinks : List ConditionalSinks) (stateEquation : Bool) :
    Option (List (List (StepFormula flatNet))) :=
  let candidate := candidateOf flatNet initialMarking invariants stateEquation
  let mVars := fun i => Term.var (StateVar.m i)
  let mpVars := fun i => Term.var (StateVar.mp i)
  let nVars := fun k => Term.var (StateVar.n k)
  let npVars := fun k => Term.var (StateVar.np k)
  let m0 := fun i => num (initialMarking.tokens (flatNet.placeAt i))
  let nonNegative : List (StepFormula flatNet) :=
    ((List.finRange _).map mVars ++ counters stateEquation nVars).map fun v => .ge v (num 0)
  let step := encodeStepRelation flatNet stateEquation mVars mpVars nVars npVars
  (encodePropertyViolation flatNet mVars property sinkPlaces conditionalSinks).map fun bad =>
    [[.not (candidate m0 fun _ => num 0)],
      nonNegative ++ [candidate mVars nVars, step, .not (candidate mpVars npVars)],
      nonNegative ++ [candidate mVars nVars, bad]]

end CertificateChecker

end LibPetri.Verification

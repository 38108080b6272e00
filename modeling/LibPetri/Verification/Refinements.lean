import LibPetri.Verification.SmtEncoder

/-! # Refinements of the marking equation

The inequalities that the state-equation phase adds: initially marked traps, inequalities that every step
keeps, and inequalities that every step keeps from markings the equation admits.
-/

namespace LibPetri.Verification

open LibPetri.Basis LibPetri.Basis.Smt LibPetri.Core LibPetri.Runtime

inductive RefinementOrigin
  | trap
  | inductiveStep
  | relative
  deriving DecidableEq, Repr

/-- `Σ weights[p]·m_p ≤ constant`. -/
structure MarkingInequality (P : Nat) where
  weights : Fin P → Int
  constant : Int
  origin : RefinementOrigin

section Dot

variable {P : Nat}

def dot (weights values : Fin P → Int) : Int := ((List.finRange P).map fun p => weights p * values p).sum

def MarkingInequality.holdsAt (inequality : MarkingInequality P) (marking : Fin P → Int) : Bool :=
  dot inequality.weights marking ≤ inequality.constant

end Dot

/-! ## Traps -/

namespace TrapRefinement

variable {S : Type} {P : Nat}

/-- The places a firing can take tokens from. -/
def drainedPlaces (ft : FlatTransition S P) : Finset (Fin P) :=
  {p | p ∈ ft.resetPlaces ∨ 0 < ft.preVector p ∨ ft.consumeAll p = true}

/-- The places a firing puts a token into. -/
def fedPlaces (ft : FlatTransition S P) : Finset (Fin P) := {p | 0 < ft.postVector p}

/-- One transition drops the places it drains when it feeds nothing back. -/
def dropDrained (trap : Finset (Fin P)) (ft : FlatTransition S P) : Finset (Fin P) :=
  if Disjoint (drainedPlaces ft) trap then trap
  else if ¬Disjoint (fedPlaces ft) trap then trap
  else trap \ drainedPlaces ft

theorem dropDrained_subset (trap : Finset (Fin P)) (ft : FlatTransition S P) :
    dropDrained trap ft ⊆ trap := by
  unfold dropDrained
  split
  · exact subset_rfl
  · split
    · exact subset_rfl
    · exact Finset.sdiff_subset

variable (transitions : List (FlatTransition S P))

/-- One turn over the transitions. -/
def sweep (trap : Finset (Fin P)) : Finset (Fin P) := transitions.foldl dropDrained trap

theorem sweep_subset (trap : Finset (Fin P)) : sweep transitions trap ⊆ trap := by
  unfold sweep
  induction transitions generalizing trap with
  | nil => exact subset_rfl
  | cons ft fts ih => exact (ih _).trans (dropDrained_subset trap ft)

/-- The largest trap inside a set of places: turns until nothing is dropped. -/
def maximalTrap (trap : Finset (Fin P)) : Finset (Fin P) :=
  if sweep transitions trap = trap then trap else maximalTrap (sweep transitions trap)
termination_by trap.card
decreasing_by
  next changed =>
    exact Finset.card_lt_card ((sweep_subset transitions trap).ssubset_of_ne changed)

def markedIn (places : Finset (Fin P)) (marking : Fin P → Nat) : Bool :=
  (List.finRange P).any fun p => p ∈ places && 0 < marking p

/-- A smaller trap without one of the places, where there is one that is still marked. -/
def shrink (initial : Fin P → Nat) (trap : Finset (Fin P)) (p : Fin P) : Finset (Fin P) :=
  if p ∉ trap then trap
  else
    let smaller := maximalTrap transitions (trap.erase p)
    if markedIn smaller initial then smaller else trap

/-- An initially marked trap that the candidate leaves empty, shrunk to a locally minimal one. -/
def refutingTrap (initial : Fin P → Nat) (candidate : Fin P → Int) : Option (MarkingInequality P) :=
  let trap := maximalTrap transitions {p | candidate p = 0}
  if markedIn trap initial then
    let trap := ((List.finRange P).filter fun p => p ∈ trap).foldl (shrink transitions initial) trap
    some ⟨fun p => if p ∈ trap then -1 else 0, -1, .trap⟩
  else none

end TrapRefinement

/-! ## Inductive inequalities -/

namespace InvariantSynthesis

open SmtEncoder

section Exact

variable {S : Type} {P : Nat}

/-- The two ways a transition can keep `a·M ≤ b`, as coefficient rows over the places. -/
structure StepShape (P : Nat) where
  keepNonNegative : List (Fin P)
  keep : Fin P → Int
  restoreFree : List (Fin P)
  restore : Fin P → Int

def inhibitsNeed (ft : FlatTransition S P) : Bool :=
  ft.inhibitorPlaces.any fun p => 0 < ft.preVector p || p ∈ ft.readPlaces

def isCleared (ft : FlatTransition S P) (p : Fin P) : Bool := p ∈ ft.resetPlaces || ft.consumeAll p

/-- What the guard asks of a place. -/
def lowerBound (ft : FlatTransition S P) (p : Fin P) : Nat :=
  max (ft.preVector p) (if p ∈ ft.readPlaces then 1 else 0)

/-- The shape of a transition, or `none` where it can never fire. -/
def stepShape (ft : FlatTransition S P) : Option (StepShape P) :=
  if inhibitsNeed ft then none
  else
    let inhibited (p : Fin P) := p ∈ ft.inhibitorPlaces
    some
      { keepNonNegative := (List.finRange P).filter fun p => isCleared ft p && !inhibited p
        keep := fun p =>
          if isCleared ft p then
            if inhibited p then ft.postVector p else ft.postVector p - lowerBound ft p
          else ft.postVector p - ft.preVector p
        restoreFree := (List.finRange P).filter fun p => isCleared ft p || inhibited p
        restore := fun p =>
          if isCleared ft p then ft.postVector p
          else if inhibited p then ft.postVector p - ft.preVector p
          else ft.postVector p - ft.preVector p + lowerBound ft p }

/-- The transition keeps the bound, or restores it from its guard. -/
def keepsBound (inequality : MarkingInequality P) (ft : FlatTransition S P) : Bool :=
  match stepShape ft with
  | none => true
  | some shape =>
    ((shape.keepNonNegative.all fun p => 0 ≤ inequality.weights p) &&
        dot inequality.weights shape.keep ≤ 0) ||
      (((List.finRange P).all fun p => inequality.weights p ≤ 0 || p ∈ shape.restoreFree) &&
        dot inequality.weights shape.restore ≤ inequality.constant)

end Exact

variable {S : Type} (flatNet : FlatNet S)

/-- The inequality holds initially, an injection lowers its left side, and every transition keeps it. -/
def checkInductiveExact (initial : flatNet.State)
    (inequality : MarkingInequality flatNet.places.length) : Bool :=
  dot inequality.weights (fun p => initial p) ≤ inequality.constant &&
    ((resolveEnvInjection flatNet).all fun inj => inequality.weights inj.1 ≤ 0) &&
    flatNet.transitions.all (keepsBound inequality)

/-! ## Inequalities relative to the marking equation -/

/-- The constants of the query: the weights and their positive and negative parts, the bound, and a
weighting of the equation for each transition. -/
inductive RelativeVar (P T : Nat)
  | a (p : Fin P)
  | u (p : Fin P)
  | w (p : Fin P)
  | b
  | e (t : Fin T) (p : Fin P)

abbrev RelativeTerm : Type := Term (RelativeVar flatNet.places.length flatNet.transitions.length)

abbrev RelativeFormula : Type := Formula (RelativeVar flatNet.places.length flatNet.transitions.length)

/-- `c·x`. -/
def scaled {V : Type} (c : Int) (x : Term V) : Term V := intTerm c x

/-- `Σ coeffs[p]·var(p)` over the coefficients that are not zero. -/
def linear {V : Type} {P : Nat} (coeffs : Fin P → Int) (v : Fin P → Term V) : Term V :=
  sumTerms ((List.finRange P).filterMap fun p =>
    if coeffs p = 0 then none else some (intTerm (coeffs p) (v p)))

/-- The weighting of transition `t` at a place: none at an injected one. -/
def etaTerm (t : flatNet.Position) (p : flatNet.Index) : RelativeTerm flatNet :=
  if isInjected flatNet p then num 0 else .var (.e t p)

/-- The weighting is a consequence of the equation: not negative on an upper bound, and not increased by
any column. -/
def weightingConditions (t : flatNet.Position) : List (RelativeFormula flatNet) :=
  let rows := (List.finRange _).filter fun p => !isInjected flatNet p
  let upper : List (RelativeFormula flatNet) := (rows.filter fun p => nonlinearPlaces flatNet p).map
    fun p => .ge (.var (.e t p)) (num 0)
  let columns : List (RelativeFormula flatNet) := (List.finRange _).filterMap fun j =>
    let terms := rows.filterMap fun p =>
      if column flatNet j p = 0 then none else some (scaled (column flatNet j p) (.var (.e t p)))
    if terms = [] then none else some (.le (sumTerms terms) (num 0))
  upper ++ columns

section Consecution

variable (t : flatNet.Position)

/-- `κ_t`. -/
def kappaTerm : RelativeTerm flatNet :=
  let ft := flatNet.transition t
  sumTerms ((List.finRange _).filterMap fun p =>
    let c : Int := if isCleared ft p then ft.postVector p else ft.postVector p - ft.preVector p
    if c = 0 then none else some (scaled c (.var (.a p))))

/-- The places whose count the guard leaves open. -/
def openPlaces : List flatNet.Index :=
  (List.finRange _).filter fun p => p ∉ (flatNet.transition t).inhibitorPlaces

/-- `−η·M0 + Σ ν_p·l_p`. -/
def slackTerm (initial : flatNet.State) (rate : flatNet.Index → RelativeTerm flatNet) :
    RelativeTerm flatNet :=
  let lower := lowerBound (flatNet.transition t)
  sumTerms ((((List.finRange _).filter fun p => !isInjected flatNet p && initial p ≠ 0).map fun p =>
      scaled (-(initial p : Int)) (.var (.e t p))) ++
    ((openPlaces flatNet t).filter fun p => lower p ≠ 0).map fun p => scaled (lower p) (rate p))

/-- `ν_p` where the transition keeps the bound. -/
def keepTerm (p : flatNet.Index) : RelativeTerm flatNet :=
  if isCleared (flatNet.transition t) p then .add [.var (.a p), etaTerm flatNet t p]
  else etaTerm flatNet t p

/-- `ν_p` where the transition restores the bound. -/
def restoreTerm (p : flatNet.Index) : RelativeTerm flatNet :=
  if isCleared (flatNet.transition t) p then etaTerm flatNet t p
  else .sub (etaTerm flatNet t p) (.var (.a p))

/-- The transition keeps the bound, or restores it, from a marking that the equation admits. -/
def consecutionCondition (initial : flatNet.State) : RelativeFormula flatNet :=
  let keepSign (p : flatNet.Index) : RelativeFormula flatNet := .ge (keepTerm flatNet t p) (num 0)
  let restoreSign (p : flatNet.Index) : RelativeFormula flatNet :=
    if isCleared (flatNet.transition t) p then .ge (etaTerm flatNet t p) (num 0)
    else .le (.var (.a p)) (etaTerm flatNet t p)
  .or [conjoin ((openPlaces flatNet t).map keepSign ++
      [.le (kappaTerm flatNet t) (slackTerm flatNet t initial (keepTerm flatNet t))]),
    conjoin ((openPlaces flatNet t).map restoreSign ++
      [.le (.sub (kappaTerm flatNet t) (.var .b))
        (slackTerm flatNet t initial (restoreTerm flatNet t))])]

end Consecution

/-- The asserts of the query. -/
def encodeRelativeInequality (initial : flatNet.State) (candidate : flatNet.Index → Int)
    (weightBound : Nat) : List (RelativeFormula flatNet) :=
  let a (p : flatNet.Index) : RelativeTerm flatNet := .var (.a p)
  let u (p : flatNet.Index) : RelativeTerm flatNet := .var (.u p)
  let w (p : flatNet.Index) : RelativeTerm flatNet := .var (.w p)
  let ranges : List (RelativeFormula flatNet) := (List.finRange _).flatMap fun p =>
    [.and [.ge (a p) (num (-weightBound)), .le (a p) (num weightBound)],
      .and [.ge (u p) (num 0), .ge (u p) (a p)], .and [.ge (w p) (num 0), .ge (w p) (.neg (a p))]]
  let separation : List (RelativeFormula flatNet) :=
    [.le (linear (fun p => initial p) a) (.var .b), .ge (linear candidate a) (.add [.var .b, num 1])]
  let injections : List (RelativeFormula flatNet) := (resolveEnvInjection flatNet).map fun inj =>
    .le (a inj.1) (num 0)
  let steps := ((List.finRange _).filter fun t => !inhibitsNeed (flatNet.transition t)).flatMap
    fun t => weightingConditions flatNet t ++ [consecutionCondition flatNet t initial]
  ranges ++ separation ++ injections ++ steps

end InvariantSynthesis

end LibPetri.Verification

import LibPetri.Verification.AbstractReplayer

/-! # The structural deadlock check

Finds every minimal siphon by a branching search, and for each one the largest trap inside it.  Where each
of these traps holds a token, no reachable marking is dead.
-/

namespace LibPetri.Verification

open LibPetri.Basis LibPetri.Core LibPetri.Runtime

variable {S : Type}

def MAX_PLACES_FOR_SIPHON_ANALYSIS : Nat := 50

/-- The budget of the siphon search, in search nodes. -/
def SIPHON_SEARCH_BUDGET : Nat := 10000

namespace StructuralCheck

variable (flatNet : FlatNet S)

/-! ## The siphon search -/

/-- The nodes visited, and the siphons found. -/
structure SiphonSearch (flatNet : FlatNet S) where
  nodes : Nat
  found : List (Finset flatNet.Index)

/-- The first transition with an output in the set and no input in it. -/
def violating (siphon : Finset flatNet.Index) : Option (FlatTransition S flatNet.places.length) :=
  flatNet.transitions.find? fun ft =>
    (∃ p ∈ siphon, 0 < ft.postVector p) ∧ ¬∃ p ∈ siphon, 0 < ft.preVector p

/-- The inputs of a transition. -/
def inputsOf (ft : FlatTransition S flatNet.places.length) : List flatNet.Index :=
  (List.finRange _).filter fun q => 0 < ft.preVector q

/-- Grows a set to the siphons around it; none past the budget.  Each call adds a place, so as many levels
as there are places are enough. -/
def grow (budget : WithTop ℕ) :
    Nat → Finset flatNet.Index → SiphonSearch flatNet → Option (SiphonSearch flatNet)
  | 0, _, _ => none
  | depth + 1, siphon, search =>
    let search := { search with nodes := search.nodes + 1 }
    if budget < (search.nodes : WithTop ℕ) then none
    else if ∃ f ∈ search.found, f ⊆ siphon then some search
    else
      match violating flatNet siphon with
      | none => some { search with found := search.found ++ [siphon] }
      | some ft =>
        (inputsOf flatNet ft).foldlM (fun search q => grow budget depth (insert q siphon) search) search

/-- The sets of a list of which no other one is a part. -/
def minimalOnes (found : List (Finset flatNet.Index)) : List (Finset flatNet.Index) :=
  (found.zipIdx.filter fun s => !found.zipIdx.any fun other => other.2 ≠ s.2 && other.1 ⊆ s.1).map
    Prod.fst

/-- All minimal siphons; none past the budget. -/
def findMinimalSiphons (budget : WithTop ℕ) : Option (List (Finset flatNet.Index)) :=
  ((List.finRange flatNet.places.length).foldlM
    (fun search start => grow flatNet budget flatNet.places.length {start} search)
    ⟨0, []⟩).map fun search => minimalOnes flatNet search.found

/-! ## The largest trap -/

/-- Every transition that takes from `p` puts into the set. -/
def satisfies (trap : Finset flatNet.Index) (p : flatNet.Index) : Bool :=
  flatNet.transitions.all fun ft => 0 < ft.preVector p → ∃ q ∈ trap, 0 < ft.postVector q

/-- Drops the places that violate the trap condition until none does.  Every pass but the last drops one,
so as many passes as there are places are enough. -/
def contract : Nat → Finset flatNet.Index → Finset flatNet.Index
  | 0, trap => trap
  | passes + 1, trap =>
    let kept := trap.filter fun p => satisfies flatNet trap p
    if kept = trap then trap else contract passes kept

def findMaximalTrapIn (places : Finset flatNet.Index) : Finset flatNet.Index :=
  contract flatNet places.card places

/-! ## The check -/

def isMarked (placeIndices : Finset flatNet.Index) (marking : MarkingState) : Bool :=
  ∃ p ∈ placeIndices, 0 < marking.tokens (flatNet.placeAt p)

/-- The transitions are ordinary: nothing but an empty input disables one. -/
def commonerApplies : Bool :=
  flatNet.transitions.all fun ft =>
    ft.readPlaces = [] && ft.inhibitorPlaces = [] && ft.resetPlaces = [] &&
      (List.finRange _).all fun p => !ft.consumeAll p && ft.preVector p ≤ 1

end StructuralCheck

open StructuralCheck

inductive StructuralCheckResult (flatNet : FlatNet S)
  | noPotentialDeadlock
  | potentialDeadlock (siphon : Finset flatNet.Index)
  | inconclusive (reason : String)
  deriving DecidableEq

def structuralCheck (flatNet : FlatNet S) (initialMarking : MarkingState) :
    StructuralCheckResult flatNet :=
  let P := flatNet.places.length
  if flatNet.transitions = [] then
    .inconclusive "net has no transitions; Commoner's theorem needs one"
  else if P = 0 then .noPotentialDeadlock
  else if MAX_PLACES_FOR_SIPHON_ANALYSIS < P then
    .inconclusive s!"Net has {P} places, siphon enumeration skipped"
  else
    match findMinimalSiphons flatNet SIPHON_SEARCH_BUDGET with
    | none => .inconclusive s!"siphon search exceeded {SIPHON_SEARCH_BUDGET} nodes"
    | some siphons =>
      match siphons.find? fun siphon =>
          let trap := findMaximalTrapIn flatNet siphon
          trap.card = 0 || !isMarked flatNet trap initialMarking with
      | some siphon => .potentialDeadlock siphon
      | none => .noPotentialDeadlock

end LibPetri.Verification

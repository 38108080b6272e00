import LibPetri.Verification.PInvariantComputer

/-! # The linear bound

A weighting that no firing raises bounds the weighted tokens of every reachable marking.  Where the least
that a violation demands is above the bound, no reachable marking violates the property.  The weighting
comes from a solver; here it is checked.
-/

namespace LibPetri.Verification

open LibPetri.Basis LibPetri.Core LibPetri.Runtime

namespace LinearBound

variable {S : Type} (flatNet : FlatNet S)

/-- The weights, `y·M0`, and what the violating markings need at least. -/
structure LinearBound where
  weights : List Int
  constant : Int
  demandValue : Int

/-- `demand.set(pid, count)` for each of the places that resolves. -/
def demandEach (places : List PlaceName) (count : Bound) : OrderedMap flatNet.Index Bound :=
  (places.filterMap flatNet.placeIndex).foldl (fun demand pid => demand.set pid count) OrderedMap.empty

/-- The least counts of a violating marking, by place: none where the property has no demand. -/
def demandOf : SmtProperty → OrderedMap flatNet.Index Bound
  | .unreachable places => demandEach flatNet places (1 : ℚ)
  | .mutualExclusion p1 p2 => demandEach flatNet [p1, p2] (1 : ℚ)
  | .placeBound place bound => demandEach flatNet [place] (bound + (1 : ℚ))
  | .branchPlaceBound place bound => demandEach flatNet [place] (bound + (1 : ℚ))
  | _ => OrderedMap.empty

def violationDemand (property : SmtProperty) : Option (OrderedMap flatNet.Index Bound) :=
  if (demandOf flatNet property).size = 0 then none else some (demandOf flatNet property)

/-- The places whose weight must be zero: those that a firing clears, and the injected ones. -/
def zeroWeight (p : flatNet.Index) : Bool :=
  SmtEncoder.nonlinearPlaces flatNet p || p ∈ (SmtEncoder.resolveEnvInjection flatNet).map Prod.fst

/-- `BigInt(n)`. -/
def bigInt : Bound → Except Thrown Int
  | some q => if q.isInt then .ok q.num else notAnInteger
  | none => notAnInteger
where
  notAnInteger : Except Thrown Int :=
    .error (.error "RangeError" "The number cannot be converted to a BigInt because it is not an integer")

/-- The bound of a weighting, `none` where it is not one that proves the property. -/
def checkLinearBoundExact (initialMarking : MarkingState) (property : SmtProperty) (y : List Int) :
    Except Thrown (Option LinearBound) :=
  match violationDemand flatNet property with
  | none => .ok none
  | some demand =>
    let weight := fun p : flatNet.Index => y.getD p 0
    if y.length ≠ flatNet.places.length then .ok none
    else if (List.finRange _).any fun p => weight p < 0 || zeroWeight flatNet p && weight p ≠ 0 then
      .ok none
    else if flatNet.transitions.any fun ft =>
        0 < ((List.finRange _).map fun p => weight p * (ft.postVector p - ft.preVector p : Int)).sum then
      .ok none
    else do
      let constant :=
        ((List.finRange _).map fun p => weight p * initialMarking.tokens (flatNet.placeAt p)).sum
      let demandValue := (← demand.entries.mapM fun (p, d) => do
        let least ← bigInt d
        .ok (weight p * least)).sum
      if demandValue < constant + 1 then .ok none else .ok (some ⟨y, constant, demandValue⟩)

end LinearBound

end LibPetri.Verification

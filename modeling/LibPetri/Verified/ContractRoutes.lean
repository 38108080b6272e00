import LibPetri.Verification.SmtRoute
import LibPetri.Verified.Agreement

/-! # Two routes to the verdict of a contract

At a marking that rests in the closed net, the graph route finds something broken exactly where some query
of the other route is violated.
-/

namespace LibPetri.Verified

open LibPetri.Basis LibPetri.Core LibPetri.Runtime LibPetri.Verification
open LibPetri.Verification.AbstractReplayer TokenGame

section Findings

variable {V N : Type} {contract : OpenNetContract V N} {m : MarkingState} {rest : RestDeclaration}

theorem mem_strandedNames {p : PlaceName} :
    p ∈ strandedNames m rest ↔ 0 < m.tokens p ∧ ¬Rests rest.sinks rest.conditional m.tokens p := by
  rw [strandedNames, (List.perm_insertionSort _ _).mem_iff, strandedPlaces, List.mem_filter,
    MarkingState.mem_placesWithTokens, decide_eq_true_eq, mem_restingNames]

theorem strandedNames_ne_nil :
    strandedNames m rest ≠ [] ↔ strandsToken m rest.sinks rest.conditional = true := by
  rw [strandsToken_iff, ← List.isEmpty_eq_false_iff, List.isEmpty_eq_false_iff_exists_mem]
  simp only [mem_strandedNames]

/-- A marking that rests breaks a contract where it strands a token or breaks a clause. -/
theorem quiescenceFindings_ne_nil :
    quiescenceFindings m contract rest ≠ [] ↔
      strandsToken m rest.sinks rest.conditional = true ∨
        ∃ clause ∈ contract.clauses, (countViolation m clause.places clause.min clause.max
          (waiverMarkers contract)).isSome = true := by
  have clauses : (contract.clauses.filterMap fun clause => (countViolation m clause.places clause.min
      clause.max (waiverMarkers contract)).map fun bound =>
        Finding.clause clause (tokensAcross m clause.places) bound) = [] ↔
      ¬∃ clause ∈ contract.clauses, (countViolation m clause.places clause.min clause.max
        (waiverMarkers contract)).isSome = true := by
    rw [List.filterMap_eq_nil_iff]
    push Not
    refine forall₂_congr fun clause _ => ?_
    rw [Option.map_eq_none_iff, ne_eq, Option.not_isSome_iff_eq_none]
  have stranded : (strandedNames m rest).map (fun p => Finding.stranded p (m.tokens p)) = [] ↔
      ¬strandsToken m rest.sinks rest.conditional = true := by
    rw [List.map_eq_nil_iff, ← strandedNames_ne_nil, not_not]
  rw [quiescenceFindings, ne_eq, List.append_eq_nil_iff, clauses, stranded, not_and_or, not_not, not_not]
  exact or_comm

end Findings

section Queries

variable {V N : Type} {closed : ClosedNet V N} {contract : OpenNetContract V N} {m : MarkingState}
  {reapable : Transition V N → Bool}
  (placed : Placed (closedFlatNet closed.net reapable) m)
  (rests : isQuiescent (closedFlatNet closed.net reapable)
    ((closedFlatNet closed.net reapable).vectorize m) = true)

include placed rests

/-- At rest, stranding is asked for as the marking shows it. -/
theorem strandingQuery_violated :
    FlatViolates (closedFlatNet closed.net reapable) (strandingQuery closed contract).property
        (strandingQuery closed contract).sinks (strandingQuery closed contract).conditional
        ((closedFlatNet closed.net reapable).vectorize m) ↔
      strandsToken m (restDeclarationOf contract closed).sinks
        (restDeclarationOf contract closed).conditional = true := by
  unfold FlatViolates strandingQuery satisfiesBad
  dsimp only
  rw [Except.ok.injEq, rests, Bool.true_and, strandsSome_vectorize placed]

/-- At rest, a count is asked for as the marking shows it. -/
theorem countQuery_violated {places waivedBy sinks : List PlaceName} {min : Nat} {max : WithTop ℕ}
    {conditional : List ConditionalSinks} :
    FlatViolates (closedFlatNet closed.net reapable) (.quiescentCount places min max waivedBy) sinks
        conditional ((closedFlatNet closed.net reapable).vectorize m) ↔
      (countViolation m places min max waivedBy).isSome = true := by
  unfold FlatViolates satisfiesBad
  rw [Except.ok.injEq, rests, Bool.true_and, countViolation_isSome]
  simp only [Bool.or_eq_true, Bool.and_eq_true, decide_eq_true_eq, sum_indexOrdered placed,
    forall_indexOrdered placed]

/-- **The routes judge alike.**  A marking that rests breaks the contract on the graph route exactly when it
violates the query of some part. -/
theorem routes_judge_alike :
    quiescenceFindings m contract (restDeclarationOf contract closed) ≠ [] ↔
      ∃ part ∈ partsFor closed contract, ∃ query, part = .query query ∧
        satisfiesBad (closedFlatNet closed.net reapable) query.property query.sinks query.conditional
          ((closedFlatNet closed.net reapable).vectorize m) = .ok true := by
  rw [quiescenceFindings_ne_nil]
  constructor
  · rintro (stranded | ⟨clause, mem, broken⟩)
    · exact ⟨_, List.mem_cons_self, _, rfl, (strandingQuery_violated placed rests).mpr stranded⟩
    · refine ⟨clausePart contract clause, List.mem_cons_of_mem _ (List.mem_map_of_mem mem), ?_⟩
      unfold clausePart
      dsimp only
      split
      next vacuous =>
        -- a clause that asks for nothing is broken by no marking
        rw [countViolation_isSome, vacuous.1, vacuous.2] at broken
        simp at broken
      next => exact ⟨_, rfl, (countQuery_violated placed rests).mpr broken⟩
  · rintro ⟨part, mem, query, rfl, violated⟩
    rcases List.mem_cons.mp mem with same | later
    · obtain rfl := Part.query.inj same
      exact .inl ((strandingQuery_violated placed rests).mp violated)
    · obtain ⟨clause, listed, same⟩ := List.mem_map.mp later
      unfold clausePart at same
      dsimp only at same
      split at same
      · cases same
      · obtain rfl := Part.query.inj same
        exact .inr ⟨clause, listed, (countQuery_violated placed rests).mp violated⟩

end Queries

/-- The net of one moved token, closed over no environment. -/
def closedMovingNet : ClosedNet Unit Unit where
  net := movingNet
  initialMarking := movingMarking
  environment := []
  environmentPlaces := []
  undeclared := []

/-- A contract on `b` that lets no token rest and asks for two, unless one is on `done`. -/
def twoOnB : OpenNetContract Unit Unit where
  initialMarking := movingMarking
  arrivals := []
  clauses := [⟨"two", ["b"], 2, ⊤, by decide⟩]
  rest := []
  terminals := [⟨"done", []⟩]
  environment := []
  requiresTermination := false
  clauses_nodup := by decide
  rest_nodup := by decide
  markers_nodup := by decide
  environment_nodup := by decide

theorem moved_rests : isQuiescent (closedFlatNet closedMovingNet.net (reapableNames []))
    ((closedFlatNet closedMovingNet.net (reapableNames [])).vectorize movedMarking) = true := by
  decide +kernel

/-- The one moved token breaks the contract in both ways. -/
theorem routes_judge_alike_moved :
    quiescenceFindings movedMarking twoOnB (restDeclarationOf twoOnB closedMovingNet) ≠ [] ∧
      ∃ part ∈ partsFor closedMovingNet twoOnB, ∃ query, part = .query query ∧
        satisfiesBad (closedFlatNet closedMovingNet.net (reapableNames [])) query.property query.sinks
          query.conditional ((closedFlatNet closedMovingNet.net (reapableNames [])).vectorize
            movedMarking) = .ok true :=
  have found : quiescenceFindings movedMarking twoOnB (restDeclarationOf twoOnB closedMovingNet) ≠ [] :=
    quiescenceFindings_ne_nil.mpr (.inr ⟨_, List.mem_cons_self, by decide +kernel⟩)
  ⟨found, (@routes_judge_alike _ _ closedMovingNet twoOnB _ _ moved_placed moved_rests).mp found⟩

end LibPetri.Verified

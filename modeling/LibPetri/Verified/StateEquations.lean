import LibPetri.Verified.Refinements

/-! # The state-equation phase is sound

Every run satisfies the marking equation and every refinement, so the counts of a violating run would
satisfy the last query of the phase.
-/

namespace LibPetri.Verified

open LibPetri.Basis LibPetri.Basis.Smt LibPetri.Core LibPetri.Runtime LibPetri.Verification
open LibPetri.Verification.AbstractReplayer LibPetri.Verification.SmtEncoder
open LibPetri.Verification.TrapRefinement LibPetri.Verification.InvariantSynthesis
open LibPetri.Verification.StateEquationPhase

variable {S V : Type} {flatNet : FlatNet S}

theorem holds_inequalityTerm {P : Nat} {a : V → ℚ} {R : List ℚ → Prop} {vars : Fin P → Term V}
    {s : Fin P → Nat} (now : Denotes a vars s) (r : MarkingInequality P) :
    (inequalityTerm r vars).HoldsWith a R ↔ Satisfies r s := by
  have rational : Satisfies r s ↔ ∑ p, (r.weights p : ℚ) * (s p : ℚ) ≤ r.constant := by
    rw [Satisfies, dot_eq_sum]
    exact_mod_cast Iff.rfl
  rw [rational]
  unfold inequalityTerm
  dsimp only
  split
  next flipped =>
    have lhs : (sumTerms ((List.finRange P).filterMap fun p =>
        if -r.weights p = 0 then none else some (intTerm ((-r.weights p : ℤ) : ℚ) (vars p)))).eval a =
        -∑ p, (r.weights p : ℚ) * (s p : ℚ) := by
      rw [eval_sumTerms, sum_eval_multiples, ← Fin.sum_univ_def, ← Finset.sum_neg_distrib]
      refine Finset.sum_congr rfl fun p _ => ?_
      rw [now p, Int.cast_neg, neg_mul]
    rw [holds_le, lhs, eval_num, Int.cast_neg, neg_le_neg_iff]
  next straight =>
    have lhs : (sumTerms ((List.finRange P).filterMap fun p =>
        if r.weights p = 0 then none else some (intTerm ((r.weights p : ℤ) : ℚ) (vars p)))).eval a =
        ∑ p, (r.weights p : ℚ) * (s p : ℚ) := by
      rw [eval_sumTerms, sum_eval_multiples, ← Fin.sum_univ_def]
      exact Finset.sum_congr rfl fun p _ => by rw [now p]
    rw [holds_le, lhs, eval_num]

/-! ## The query -/

section Query

variable {initialMarking : MarkingState} {property : SmtProperty} {sinkPlaces : List PlaceName}
  {conditionalSinks : List ConditionalSinks}

/-- The integers of a run. -/
def runAssignment (s : flatNet.State) (n : flatNet.Position → Nat) :
    QueryVar flatNet.places.length flatNet.transitions.length → ℤ
  | .m i => s i
  | .n k => n k

theorem denotes_query_m (s : flatNet.State) (n : flatNet.Position → Nat) :
    Denotes (fun v => (runAssignment s n v : ℚ)) (fun i => Term.var (QueryVar.m i)) s := fun i => by
  rw [eval_var, runAssignment, Int.cast_natCast]

theorem denotes_query_n (s : flatNet.State) (n : flatNet.Position → Nat) :
    Denotes (fun v => (runAssignment s n v : ℚ)) (fun k => Term.var (QueryVar.n k)) n := fun k => by
  rw [eval_var, runAssignment, Int.cast_natCast]

/-- The marking equation as its conditions say it. -/
theorem holds_stateEquationConditions_of_run {a : V → ℚ} {R : List ℚ → Prop}
    {nVars : flatNet.Position → Term V} {mVars : flatNet.Index → Term V}
    {labels : List (Option flatNet.Position)} {s : flatNet.State}
    (run : FlatRun flatNet (flatNet.vectorize initialMarking) labels s)
    (count : Denotes a nVars (firingCounts labels)) (now : Denotes a mVars s) :
    ∀ f ∈ stateEquationConditions flatNet initialMarking nVars mVars, f.HoldsWith a R := by
  rw [holds_stateEquationConditions]
  intro p uninjected
  simp only [count _, now _]
  exact markingEquation_of_run run p uninjected

/-- A violating run that satisfies the refinements is a model of the query. -/
theorem satisfiable_encodeStateEquationQuery {refinements : List (Refinement flatNet)}
    {script : List (QueryFormula flatNet)}
    (built : encodeStateEquationQuery flatNet initialMarking property sinkPlaces conditionalSinks
      refinements = some script)
    {labels : List (Option flatNet.Position)} {s : flatNet.State}
    (run : FlatRun flatNet (flatNet.vectorize initialMarking) labels s)
    (refined : ∀ r ∈ refinements, Satisfies r s)
    (violates : FlatViolates flatNet property sinkPlaces conditionalSinks s)
    (R : List ℤ → Prop) : SatisfiableWith R script := by
  obtain ⟨bad, found, rfl⟩ := Option.map_eq_some_iff.mp built
  have now := denotes_query_m s (firingCounts labels)
  have count := denotes_query_n s (firingCounts labels)
  refine ⟨runAssignment s (firingCounts labels), ?_⟩
  rw [List.forall_mem_append, List.forall_mem_append, List.forall_mem_append, List.forall_mem_map,
    List.forall_mem_map, List.forall_mem_singleton]
  refine ⟨⟨⟨fun v mem => ?_, holds_stateEquationConditions_of_run run count now⟩, ?_⟩,
    (holds_violation now found).1 violates⟩
  · rw [holds_le, eval_num, Int.cast_zero]
    rcases List.mem_append.mp mem with marking | counter
    · obtain ⟨i, -, rfl⟩ := List.mem_map.mp marking
      rw [now i]
      exact Nat.cast_nonneg _
    · obtain ⟨k, -, rfl⟩ := List.mem_map.mp counter
      rw [count k]
      exact Nat.cast_nonneg _
  · exact fun r mem => (holds_inequalityTerm now r).mpr (refined r mem)

end Query

/-! ## The phase -/

section Phase

variable {initialMarking : MarkingState} {property : SmtProperty} {sinkPlaces : List PlaceName}
  {conditionalSinks : List ConditionalSinks} {solver : Solver flatNet}
  {search : StateEquationPhase.Candidate flatNet → Option (Witness flatNet)}

/-- The answers a proof rests on: `unsat` of the query, and the models of the relative one.  The models
of the other synthesis query are checked again. -/
structure RightAnswers (solver : Solver flatNet) (initialMarking : MarkingState)
    (property : SmtProperty) (sinkPlaces : List PlaceName)
    (conditionalSinks : List ConditionalSinks) : Prop where
  query : ∀ refinements, solver.query refinements = .unsat → ∃ script,
    encodeStateEquationQuery flatNet initialMarking property sinkPlaces conditionalSinks refinements =
      some script ∧ ¬SatisfiableWith (fun _ => False) script
  relative : ∀ refinements candidate weights constant,
    solver.relativeInequality refinements candidate = .sat (some (weights, constant)) →
      ∃ a, ReadFrom a (flatNet.vectorize initialMarking) candidate.marking
        (defaultWeightBound flatNet (flatNet.vectorize initialMarking)) ⟨weights, constant, .relative⟩

/-- The inequality holds at the end of every run. -/
def HoldsInRuns (initialMarking : MarkingState) (r : Refinement flatNet) : Prop :=
  ∀ labels s, FlatRun flatNet (flatNet.vectorize initialMarking) labels s → Satisfies r s

theorem synthesize_eq_some {origin : RefinementOrigin} {reply : Reply (Synthesized flatNet)}
    {r : Refinement flatNet} (h : synthesize origin reply = .ok (some r)) :
    ∃ weights constant, reply = .sat (some (weights, constant)) ∧ r = ⟨weights, constant, origin⟩ := by
  unfold synthesize at h
  split at h
  next => cases h
  next => cases h
  next => cases h
  next => cases h
  next weights constant => exact ⟨weights, constant, rfl, (Option.some.inj (Except.ok.inj h)).symm⟩

theorem holdsInRuns_of_refine
    (right : RightAnswers solver initialMarking property sinkPlaces conditionalSinks)
    {refinements : List (Refinement flatNet)} {candidate : StateEquationPhase.Candidate flatNet}
    {r : Refinement flatNet}
    (refined : refine flatNet solver (flatNet.vectorize initialMarking) refinements candidate =
      .ok r) : HoldsInRuns initialMarking r := by
  intro labels s run
  unfold refine at refined
  split at refined
  next trap found =>
    cases refined
    exact satisfies_refutingTrap found run
  next =>
    obtain ⟨inductively, -, refined⟩ := exists_of_bind_eq_ok refined
    cases inductively with
    | some inequality =>
      dsimp only at refined
      split at refined
      next => cases refined
      next checked =>
        cases refined
        simp only [Bool.or_eq_true, Bool.not_eq_true', not_or, Bool.not_eq_false] at checked
        exact satisfies_of_checkInductiveExact checked.1 run
    | none =>
      obtain ⟨relatively, answer, refined⟩ := exists_of_bind_eq_ok refined
      cases relatively with
      | none => cases refined
      | some inequality =>
        dsimp only at refined
        split at refined
        next => cases refined
        next =>
          cases refined
          obtain ⟨weights, constant, reply, rfl⟩ := synthesize_eq_some answer
          obtain ⟨a, read⟩ := right.relative _ _ _ _ reply
          exact satisfies_of_readFrom read run

/-- The invariant of the turns: every refinement holds in every run. -/
theorem refineUntilDecided_proven
    (right : RightAnswers solver initialMarking property sinkPlaces conditionalSinks)
    {maxRefinements remaining : Nat} {refinements final : List (Refinement flatNet)}
    (sound : ∀ r ∈ refinements, HoldsInRuns initialMarking r)
    (proven : refineUntilDecided flatNet solver search (flatNet.vectorize initialMarking)
      maxRefinements remaining refinements = .proven final) {s : flatNet.State}
    (reachable : FlatReachable flatNet (flatNet.vectorize initialMarking) s) :
    ¬FlatViolates flatNet property sinkPlaces conditionalSinks s := by
  fun_induction refineUntilDecided flatNet solver search (flatNet.vectorize initialMarking)
    maxRefinements remaining refinements with
  | case1 => cases proven
  | case2 remaining refinements answer =>
    intro violates
    obtain ⟨labels, run⟩ := flatReachable_iff_run.mp reachable
    obtain ⟨script, built, unsat⟩ := right.query refinements answer
    exact unsat (satisfiable_encodeStateEquationQuery built run
      (fun r mem => sound r mem labels s run) violates _)
  | case3 => cases proven
  | case4 => cases proven
  | case5 => cases proven
  | case6 => cases proven
  | case7 => cases proven
  | case8 refinements candidate answer unwitnessed remaining refinement refined ih =>
    refine ih (fun r mem => ?_) proven
    rcases List.mem_append.mp mem with earlier | new
    · exact sound r earlier
    · rw [List.mem_singleton.mp new]
      exact holdsInRuns_of_refine right refined

/-- **The state-equation phase is sound.**  The counts and the end of every run satisfy the marking
equation; traps, inequalities that pass the exact check, and those read from a model of the relative
query hold in every reachable marking; and where the answers of the solver are right, a proof of the phase
excludes every violation. -/
theorem state_equation_sound (flatNet : FlatNet S) (initialMarking : MarkingState)
    (property : SmtProperty) (sinkPlaces : List PlaceName)
    (conditionalSinks : List ConditionalSinks) :
    (∀ labels s, FlatRun flatNet (flatNet.vectorize initialMarking) labels s →
      ∀ (a : V → ℚ) (nVars : flatNet.Position → Term V) (mVars : flatNet.Index → Term V),
        Denotes a nVars (firingCounts labels) → Denotes a mVars s →
          ∀ f ∈ stateEquationConditions flatNet initialMarking nVars mVars, f.Holds a) ∧
    (∀ candidate r, refutingTrap flatNet.transitions (flatNet.vectorize initialMarking) candidate =
        some r → ∀ s, FlatReachable flatNet (flatNet.vectorize initialMarking) s → Satisfies r s) ∧
    (∀ r, checkInductiveExact flatNet (flatNet.vectorize initialMarking) r = true →
      ∀ s, FlatReachable flatNet (flatNet.vectorize initialMarking) s → Satisfies r s) ∧
    (∀ a candidate weightBound r,
      ReadFrom a (flatNet.vectorize initialMarking) candidate weightBound r →
        ∀ s, FlatReachable flatNet (flatNet.vectorize initialMarking) s → Satisfies r s) ∧
    ∀ solver search maxRefinements refinements,
      RightAnswers solver initialMarking property sinkPlaces conditionalSinks →
        runStateEquationPhase flatNet initialMarking property solver search maxRefinements =
            .proven refinements →
          ∀ s, FlatReachable flatNet (flatNet.vectorize initialMarking) s →
            ¬FlatViolates flatNet property sinkPlaces conditionalSinks s := by
  refine ⟨fun labels s run a nVars mVars count now =>
    holds_stateEquationConditions_of_run run count now, ?_, ?_, ?_, ?_⟩
  · intro candidate r found s reachable
    obtain ⟨labels, run⟩ := flatReachable_iff_run.mp reachable
    exact satisfies_refutingTrap found run
  · intro r checked s reachable
    obtain ⟨labels, run⟩ := flatReachable_iff_run.mp reachable
    exact satisfies_of_checkInductiveExact checked run
  · intro a candidate weightBound r read s reachable
    obtain ⟨labels, run⟩ := flatReachable_iff_run.mp reachable
    exact satisfies_of_readFrom read run
  · intro solver search maxRefinements refinements right proven s reachable
    unfold runStateEquationPhase at proven
    split at proven
    next => cases proven
    next =>
      exact refineUntilDecided_proven right (fun _ mem => by cases mem) proven reachable

/-- A solver that finds nothing: the marking equation alone excludes that both places hold the one token
that moves. -/
def moveOnceSolver : Solver moveOnceNet where
  query := fun _ => .unsat
  inductiveInequality := fun _ _ => .unknown
  relativeInequality := fun _ _ => .unknown

theorem moveOnce_column (t : moveOnceNet.Position) :
    column moveOnceNet t 0 = -column moveOnceNet t 1 := by
  obtain rfl : t = ⟨0, Nat.one_pos⟩ := Fin.ext (Nat.lt_one_iff.mp t.isLt)
  rfl

theorem moveOnceSolver_right :
    RightAnswers moveOnceSolver moveOnceMarking (.mutualExclusion "a" "b") [] [] where
  relative := fun _ _ _ _ answer => by cases answer
  query := fun refinements _ => by
    refine ⟨_, rfl, ?_⟩
    rintro ⟨a, holds⟩
    rw [List.forall_mem_append, List.forall_mem_append, List.forall_mem_append,
      holds_stateEquationConditions, List.forall_mem_singleton] at holds
    obtain ⟨⟨⟨nonneg, equation⟩, -⟩, bad⟩ := holds
    have first := equation 0 rfl
    have second := equation 1 rfl
    unfold MarkingEquationAt at first second
    simp only [eval_var] at first second
    rw [if_neg (by decide), show moveOnceMarking.tokens (moveOnceNet.placeAt 0) = 1 from rfl] at first
    rw [if_neg (by decide), show moveOnceMarking.tokens (moveOnceNet.placeAt 1) = 0 from rfl] at second
    have total : ∑ t : moveOnceNet.Position, ((column moveOnceNet t 0 : ℤ) : ℚ) * (a (.n t) : ℚ) =
        -∑ t : moveOnceNet.Position, ((column moveOnceNet t 1 : ℤ) : ℚ) * (a (.n t) : ℚ) := by
      rw [← Finset.sum_neg_distrib]
      exact Finset.sum_congr rfl fun t _ => by rw [moveOnce_column, Int.cast_neg, neg_mul]
    change (Formula.and [.ge (.var (QueryVar.m 0)) (num 1),
      .ge (.var (QueryVar.m 1)) (num 1)]).HoldsWith _ _ at bad
    simp only [holds_and, List.forall_mem_cons, holds_le, eval_num, eval_var] at bad
    obtain ⟨one, other, -⟩ := bad
    push_cast at one other first second
    linarith

theorem state_equation_sound_moveOnce :
    ¬FlatViolates moveOnceNet (.mutualExclusion "a" "b") [] []
      (moveOnceNet.vectorize moveOnceMarking) :=
  (state_equation_sound (V := Empty) moveOnceNet moveOnceMarking (.mutualExclusion "a" "b") []
    []).2.2.2.2 moveOnceSolver (fun _ => none) 0 [] moveOnceSolver_right rfl _ .refl

end Phase

end LibPetri.Verified

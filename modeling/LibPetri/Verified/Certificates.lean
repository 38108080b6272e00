import LibPetri.Verification.CertificateChecker
import LibPetri.Verified.MarkingEquation

/-! # Certificates are sound

The candidate holds along every run, with the firing counts of the run for the counters: the first
condition gives it at the start, and the second, whose step relation is complete, carries it over each
move.  The third condition then excludes every violation.
-/

namespace LibPetri.Verified

open LibPetri.Basis LibPetri.Basis.Smt LibPetri.Core LibPetri.Runtime LibPetri.Verification
open LibPetri.Verification.AbstractReplayer LibPetri.Verification.SmtEncoder
open LibPetri.Verification.CertificateChecker

variable {S V : Type} {flatNet : FlatNet S}

/-! ## Invariants -/

section Invariants

variable {a : V → ℚ} {R : List ℚ → Prop} {mVars : flatNet.Index → Term V}

/-- A conservation law holds of values.  A law without support says nothing. -/
def ConservedAt (inv : PInvariant flatNet.places.length) (m : flatNet.Index → ℚ) : Prop :=
  (∃ p, p ∈ inv.support) →
    (((List.finRange _).filter fun p => p ∈ inv.support).map fun p =>
      (inv.weights p : ℚ) * m p).sum = inv.constant

theorem holds_invariantConditions {invariants : List (PInvariant flatNet.places.length)} :
    (∀ f ∈ invariantConditions invariants mVars, f.HoldsWith a R) ↔
      ∀ inv ∈ invariants, ConservedAt inv fun p => (mVars p).eval a := by
  have each (inv : PInvariant flatNet.places.length) :
      (∀ f, (if ((List.finRange _).filter fun i => i ∈ inv.support).map (fun i =>
          Term.mul (inv.weights i) (mVars i)) = [] then none
        else some (Formula.eq (sumTerms (((List.finRange _).filter fun i => i ∈ inv.support).map
          fun i => Term.mul (inv.weights i) (mVars i))) (num inv.constant))) = some f →
        f.HoldsWith a R) ↔ ConservedAt inv fun p => (mVars p).eval a := by
    have supported : ((List.finRange _).filter fun i => i ∈ inv.support).map (fun i =>
        Term.mul (inv.weights i : ℚ) (mVars i)) = [] ↔ ¬∃ p, p ∈ inv.support := by
      simp [List.filter_eq_nil_iff]
    unfold ConservedAt
    split
    next none => simp [supported.mp none]
    next some =>
      rw [supported, not_not] at some
      simp only [Option.some.injEq, forall_eq', holds_eq, eval_sumTerms, List.map_map, eval_num,
        some, true_implies]
      simp only [Function.comp_def, eval_mul, Rat.cast_intCast]
  unfold invariantConditions
  simp only [List.mem_filterMap, forall_exists_index, and_imp]
  rw [forall_comm]
  refine forall_congr' fun inv => ?_
  rw [← each inv]
  exact ⟨fun h mem f found => h f mem found, fun h f mem found => h mem f found⟩

end Invariants

/-! ## The candidate -/

/-- What the candidate says of the values of counts and counters. -/
structure Candidate (R : List ℚ → Prop) (initialMarking : MarkingState)
    (invariants : List (PInvariant flatNet.places.length)) (stateEquation : Bool)
    (m : flatNet.Index → ℚ) (n : flatNet.Position → ℚ) : Prop where
  certified : R ((List.finRange _).map m ++ if stateEquation then (List.finRange _).map n else [])
  conserved : ∀ inv ∈ invariants, ConservedAt inv m
  nonneg : stateEquation = true → ∀ k, 0 ≤ n k
  equation : stateEquation = true → 0 < flatNet.transitions.length →
    ∀ p, injectionOf flatNet p = none → MarkingEquationAt flatNet initialMarking n m p

theorem holds_candidateOf {a : StateVar flatNet.places.length flatNet.transitions.length → ℚ}
    {R : List ℚ → Prop} {initialMarking : MarkingState}
    {invariants : List (PInvariant flatNet.places.length)} {stateEquation : Bool}
    {m : flatNet.Index → StepTerm flatNet} {n : flatNet.Position → StepTerm flatNet} :
    (candidateOf flatNet initialMarking invariants stateEquation m n).HoldsWith a R ↔
      Candidate R initialMarking invariants stateEquation (fun p => (m p).eval a)
        fun k => (n k).eval a := by
  have arguments : ((List.finRange _).map m ++ counters stateEquation n).map (Term.eval a) =
      (List.finRange _).map (fun p => (m p).eval a) ++
        if stateEquation then (List.finRange _).map (fun k => (n k).eval a) else [] := by
    rw [List.map_append, List.map_map, counters]
    split
    · rw [List.map_map]
      rfl
    · rfl
  have atLeast (k : flatNet.Position) :
      (Formula.ge (n k) (num 0)).HoldsWith a R ↔ 0 ≤ (n k).eval a := by
    rw [holds_le, eval_num, Int.cast_zero]
  unfold candidateOf
  dsimp only
  rw [holds_conjoin, List.forall_mem_append, List.forall_mem_append, List.forall_mem_singleton,
    holds_app, arguments, holds_invariantConditions]
  cases stateEquation with
  | false =>
    have unused : ¬0 < (counters false n).length := by simp [counters]
    rw [if_neg unused]
    refine ⟨fun h => ⟨h.1.1, h.1.2, (fun h => by cases h), fun h => by cases h⟩,
      fun h => ⟨⟨h.certified, h.conserved⟩, (fun _ mem => by cases mem)⟩⟩
  | true =>
    have used : (counters true n).length = flatNet.transitions.length := by
      rw [counters, if_pos rfl, List.length_map, List.length_finRange]
    rw [used]
    by_cases some : 0 < flatNet.transitions.length
    · rw [if_pos some, counters, if_pos rfl, if_pos rfl, List.forall_mem_append, List.map_map,
        List.forall_mem_map, holds_stateEquationConditions]
      simp only [List.mem_finRange, true_implies, Function.comp_apply, atLeast]
      exact ⟨fun h => ⟨h.1.1, h.1.2, fun _ => h.2.1, fun _ _ => h.2.2⟩,
        fun h => ⟨⟨h.certified, h.conserved⟩, h.nonneg rfl, h.equation rfl some⟩⟩
    · rw [if_neg some]
      refine ⟨fun h => ⟨h.1.1, h.1.2, fun _ k => ?_, fun _ less => absurd less some⟩,
        fun h => ⟨⟨h.certified, h.conserved⟩, (fun _ mem => by cases mem)⟩⟩
      exact absurd k.pos some

/-! ## Soundness -/

section Soundness

variable (s s' : flatNet.State) (n n' : flatNet.Position → Nat)

/-- The integers of one step. -/
def stepAssignment : StateVar flatNet.places.length flatNet.transitions.length → ℤ
  | .m i => s i
  | .mp i => s' i
  | .n k => n k
  | .np k => n' k

theorem denotes_m : Denotes (fun v => (stepAssignment s s' n n' v : ℚ))
    (fun i => Term.var (StateVar.m i)) s := fun i => by
  rw [eval_var, stepAssignment, Int.cast_natCast]

theorem denotes_mp : Denotes (fun v => (stepAssignment s s' n n' v : ℚ))
    (fun i => Term.var (StateVar.mp i)) s' := fun i => by
  rw [eval_var, stepAssignment, Int.cast_natCast]

theorem denotes_n : Denotes (fun v => (stepAssignment s s' n n' v : ℚ))
    (fun k => Term.var (StateVar.n k)) n := fun k => by
  rw [eval_var, stepAssignment, Int.cast_natCast]

theorem denotes_np : Denotes (fun v => (stepAssignment s s' n n' v : ℚ))
    (fun k => Term.var (StateVar.np k)) n' := fun k => by
  rw [eval_var, stepAssignment, Int.cast_natCast]

/-- They satisfy the constraints that every state meets. -/
theorem holds_nonNegative {R : List ℚ → Prop} {stateEquation : Bool}
    {f : StepFormula flatNet}
    (mem : f ∈ ((List.finRange _).map (fun i => Term.var (StateVar.m i)) ++
      counters stateEquation fun k => Term.var (StateVar.n k)).map fun v => Formula.ge v (num 0)) :
    f.HoldsWith (fun v => (stepAssignment s s' n n' v : ℚ)) R := by
  obtain ⟨v, listed, rfl⟩ := List.mem_map.mp mem
  rw [holds_le, eval_num, Int.cast_zero]
  rcases List.mem_append.mp listed with count | counter
  · obtain ⟨i, -, rfl⟩ := List.mem_map.mp count
    rw [denotes_m]
    exact Nat.cast_nonneg (s i)
  · unfold counters at counter
    split at counter
    · obtain ⟨k, -, rfl⟩ := List.mem_map.mp counter
      rw [denotes_n]
      exact Nat.cast_nonneg (n k)
    · cases counter

variable {R : List ℤ → Prop} {initialMarking : MarkingState} {property : SmtProperty}
  {sinkPlaces : List PlaceName} {invariants : List (PInvariant flatNet.places.length)}
  {conditionalSinks : List ConditionalSinks} {stateEquation : Bool}
  {conditions : List (List (StepFormula flatNet))}

/-- If the three conditions are unsatisfiable over the integers, nothing that the net reaches violates
the property. -/
theorem certificate_sound
    (built : buildVerificationConditions flatNet initialMarking property sinkPlaces invariants
      conditionalSinks stateEquation = some conditions)
    (unsat : ∀ asserts ∈ conditions, ¬SatisfiableWith R asserts) {s : flatNet.State}
    (reachable : FlatReachable flatNet (flatNet.vectorize initialMarking) s) :
    ¬FlatViolates flatNet property sinkPlaces conditionalSinks s := by
  obtain ⟨bad, found, rfl⟩ := Option.map_eq_some_iff.mp built
  simp only [List.forall_mem_cons] at unsat
  obtain ⟨initiation, consecution, safety, -⟩ := unsat
  obtain ⟨labels, run⟩ := flatReachable_iff_run.mp reachable
  have candidate : Candidate (onIntegers R) initialMarking invariants stateEquation
      (fun p => (s p : ℚ)) fun k => (firingCounts labels k : ℚ) := by
    refine run.invariant (I := fun labels s => Candidate (onIntegers R) initialMarking invariants
      stateEquation (fun p => (s p : ℚ)) fun k => (firingCounts labels k : ℚ)) ?_ ?_
    · by_contra fails
      refine initiation ⟨fun _ => 0, ?_⟩
      rw [List.forall_mem_singleton, holds_not, holds_candidateOf]
      simpa only [eval_num, FlatNet.vectorize, firingCounts, List.count_nil, Nat.cast_zero,
        Int.cast_zero, Int.cast_natCast] using fails
    · intro labels t l u _ ih move
      by_contra fails
      refine consecution ⟨stepAssignment t u (firingCounts labels)
        (firingCounts (labels ++ [l])), ?_⟩
      rw [List.forall_mem_append]
      refine ⟨fun f mem => holds_nonNegative _ _ _ _ mem, ?_⟩
      simp only [List.forall_mem_cons, holds_not, holds_candidateOf, denotes_m _ _ _ _ _,
        denotes_mp _ _ _ _ _, denotes_n _ _ _ _ _, denotes_np _ _ _ _ _]
      refine ⟨ih, ?_, fails, (fun _ mem => by cases mem)⟩
      exact (holds_encodeStepRelation (denotes_m t u _ _) (denotes_mp t u _ _)
        (denotes_n t u _ _) (denotes_np t u _ _) _).mpr
        ⟨l, move, fun _ => firingCounts_append labels l⟩
  intro violates
  refine safety ⟨stepAssignment s s (firingCounts labels) (firingCounts labels), ?_⟩
  rw [List.forall_mem_append]
  refine ⟨fun f mem => holds_nonNegative _ _ _ _ mem, ?_⟩
  simp only [List.forall_mem_cons, holds_candidateOf, denotes_m _ _ _ _ _, denotes_n _ _ _ _ _]
  refine ⟨candidate, ?_, (fun _ mem => by cases mem)⟩
  exact (holds_violation (denotes_m s s _ _) found).1 violates

end Soundness

/-! ## A certificate for one move -/

/-- Each token is in one of the places. -/
def moveOnceLaw : PInvariant moveOnceNet.places.length where
  weights := fun _ => 1
  constant := 1
  support := [0, 1]

theorem conservedAt_moveOnceLaw {m : moveOnceNet.Index → ℚ} :
    ConservedAt moveOnceLaw m ↔ m 0 + m 1 = 1 := by
  have places : (List.finRange moveOnceNet.places.length).filter (fun p => p ∈ moveOnceLaw.support) =
      [0, 1] := by decide
  have supported : ∃ p, p ∈ moveOnceLaw.support := ⟨0, by decide⟩
  rw [ConservedAt, places, forall_prop_of_true supported]
  simp [moveOnceLaw]

theorem moveOnce_takes {mVars mpVars : moveOnceNet.Index → Term V} {k : moveOnceNet.Position} :
    updateCondition (moveOnceNet.transition k) mVars mpVars 0 =
      .eq (mpVars 0) (.sub (mVars 0) (num 1)) := by
  obtain rfl : k = ⟨0, Nat.one_pos⟩ := Fin.ext (Nat.lt_one_iff.mp k.isLt)
  rfl

theorem moveOnce_puts {mVars mpVars : moveOnceNet.Index → Term V} {k : moveOnceNet.Position} :
    updateCondition (moveOnceNet.transition k) mVars mpVars 1 =
      .eq (mpVars 1) (.add [mVars 1, num 1]) := by
  obtain rfl : k = ⟨0, Nat.one_pos⟩ := Fin.ext (Nat.lt_one_iff.mp k.isLt)
  rfl

/-- The candidate that certifies nothing beyond the law. -/
theorem candidate_moveOnce {m : moveOnceNet.Index → ℤ} {n : moveOnceNet.Position → ℚ} :
    Candidate (onIntegers fun _ => True) moveOnceMarking [moveOnceLaw] false (fun p => (m p : ℚ)) n ↔
      m 0 + m 1 = 1 := by
  have law : ConservedAt moveOnceLaw (fun p => (m p : ℚ)) ↔ m 0 + m 1 = 1 := by
    rw [conservedAt_moveOnceLaw]
    norm_cast
  constructor
  · exact fun h => law.mp (h.conserved _ (by simp))
  · refine fun h => ⟨⟨(List.finRange _).map m, by simp, trivial⟩, ?_, (fun h => by cases h),
      fun h => by cases h⟩
    rw [List.forall_mem_singleton]
    exact law.mpr h

theorem certificate_sound_moveOnce :
    ¬FlatViolates moveOnceNet (.placeBound "b" ((1 : ℚ) : Bound)) [] []
      (moveOnceNet.vectorize moveOnceMarking) := by
  have built : buildVerificationConditions moveOnceNet moveOnceMarking
      (.placeBound "b" ((1 : ℚ) : Bound)) [] [moveOnceLaw] [] false = some _ := rfl
  refine certificate_sound (R := fun _ => True) built ?_ .refl
  simp only [List.forall_mem_cons]
  refine ⟨?_, ?_, ?_, (fun _ mem => by cases mem)⟩
  · rintro ⟨a, holds⟩
    rw [List.forall_mem_singleton, holds_not, holds_candidateOf] at holds
    simp only [eval_num] at holds
    exact holds (candidate_moveOnce.mpr (by decide))
  · rintro ⟨a, holds⟩
    rw [List.forall_mem_append] at holds
    obtain ⟨-, holds⟩ := holds
    simp only [List.forall_mem_cons, holds_not, holds_candidateOf, eval_var, candidate_moveOnce] at holds
    obtain ⟨law, step, broken, -⟩ := holds
    unfold encodeStepRelation at step
    dsimp only at step
    rw [holds_disjoin] at step
    obtain ⟨f, mem, holds⟩ := step
    rcases List.mem_append.mp mem with fired | injected
    · obtain ⟨k, -, rfl⟩ := List.mem_map.mp fired
      rw [holds_conjoin, List.forall_mem_append, List.forall_mem_append, firingConditions,
        List.forall_mem_append, List.forall_mem_append, List.forall_mem_map] at holds
      have takes := holds.1.1.1.2 0 (List.mem_finRange _)
      have puts := holds.1.1.1.2 1 (List.mem_finRange _)
      rw [moveOnce_takes, holds_eq, eval_sub, eval_num] at takes
      rw [moveOnce_puts, holds_eq, eval_add] at puts
      simp only [eval_var, List.map_cons, List.map_nil, List.sum_cons, List.sum_nil, eval_num] at puts
      simp only [eval_var] at takes
      norm_cast at takes puts
      omega
    · cases injected
  · rintro ⟨a, holds⟩
    rw [List.forall_mem_append, List.forall_mem_map] at holds
    obtain ⟨nonneg, holds⟩ := holds
    simp only [List.forall_mem_cons, holds_candidateOf, eval_var, candidate_moveOnce] at holds
    obtain ⟨law, above, -⟩ := holds
    have first := nonneg (.var (StateVar.m 0)) (by simp)
    change (Formula.gt (.var (StateVar.m 1)) (.lit 1)).HoldsWith _ _ at above
    rw [holds_lt, eval_lit, eval_var] at above
    rw [holds_le, eval_num, eval_var] at first
    norm_cast at above first
    omega

end LibPetri.Verified

import LibPetri.Basis.ClearingSteps
import LibPetri.Verification.StateEquationPhase
import LibPetri.Verified.MarkingEquation

/-! # Refinements hold in every reachable marking

A trap stays marked, an inequality that the exact check accepts is kept by every move, and one read from a
model of the relative query is kept by every move from a marking that the equation admits.
-/

namespace LibPetri.Verified

open LibPetri.Basis LibPetri.Basis.Smt LibPetri.Core LibPetri.Runtime LibPetri.Verification
open LibPetri.Verification.AbstractReplayer LibPetri.Verification.SmtEncoder
open LibPetri.Verification.TrapRefinement LibPetri.Verification.InvariantSynthesis

variable {S : Type} {flatNet : FlatNet S}

theorem dot_eq_sum {P : Nat} (weights values : Fin P → Int) :
    dot weights values = ∑ p, weights p * values p := (Fin.sum_univ_def _).symm

/-- The inequality holds of the counts. -/
def Satisfies {P : Nat} (r : MarkingInequality P) (s : Fin P → Nat) : Prop :=
  dot r.weights (fun p => s p) ≤ r.constant

/-! ## Traps -/

section Traps

variable {P : Nat} {transitions : List (FlatTransition S P)} {trap : Finset (Fin P)}

/-- A transition that takes a token from the trap puts one back. -/
def IsTrap (transitions : List (FlatTransition S P)) (trap : Finset (Fin P)) : Prop :=
  ∀ ft ∈ transitions, Disjoint (fedPlaces ft) trap → Disjoint (drainedPlaces ft) trap

theorem disjoint_of_dropDrained_eq {ft : FlatTransition S P} (kept : dropDrained trap ft = trap)
    (unfed : Disjoint (fedPlaces ft) trap) : Disjoint (drainedPlaces ft) trap := by
  by_contra drains
  rw [dropDrained, if_neg drains, if_neg (not_not.mpr unfed)] at kept
  exact drains (Finset.sdiff_eq_self_iff_disjoint.mp kept).symm

/-- A turn that drops nothing has found a trap. -/
theorem isTrap_of_sweep_eq (kept : sweep transitions trap = trap) : IsTrap transitions trap := by
  unfold sweep at kept
  induction transitions with
  | nil => exact fun _ mem => by cases mem
  | cons ft fts ih =>
    rw [List.foldl_cons] at kept
    have first : dropDrained trap ft = trap := by
      refine (dropDrained_subset trap ft).antisymm ?_
      calc trap = fts.foldl dropDrained (dropDrained trap ft) := kept.symm
        _ ⊆ dropDrained trap ft := sweep_subset fts _
    rw [first] at kept
    intro gt mem
    rcases List.mem_cons.mp mem with rfl | later
    · exact disjoint_of_dropDrained_eq first
    · exact ih kept gt later

theorem isTrap_maximalTrap (within : Finset (Fin P)) :
    IsTrap transitions (maximalTrap transitions within) := by
  fun_induction maximalTrap transitions within with
  | case1 trap kept => exact isTrap_of_sweep_eq kept
  | case2 trap changed ih => exact ih

theorem markedIn_iff {places : Finset (Fin P)} {s : Fin P → Nat} :
    markedIn places s = true ↔ ∃ p ∈ places, 0 < s p := by
  simp [markedIn]

/-- A set of places that is a trap and marked. -/
def MarkedTrap (transitions : List (FlatTransition S P)) (s : Fin P → Nat)
    (trap : Finset (Fin P)) : Prop :=
  IsTrap transitions trap ∧ ∃ p ∈ trap, 0 < s p

theorem MarkedTrap.shrink {s : Fin P → Nat} (h : MarkedTrap transitions s trap) (p : Fin P) :
    MarkedTrap transitions s (shrink transitions s trap p) := by
  unfold TrapRefinement.shrink
  split
  · exact h
  · dsimp only
    split
    next marked => exact ⟨isTrap_maximalTrap _, markedIn_iff.mp marked⟩
    next => exact h

/-- What the search returns is a trap that is marked initially. -/
theorem refutingTrap_eq_some {initial : Fin P → Nat} {candidate : Fin P → Int}
    {r : MarkingInequality P} (found : refutingTrap transitions initial candidate = some r) :
    ∃ trap, MarkedTrap transitions initial trap ∧
      r = ⟨fun p => if p ∈ trap then -1 else 0, -1, .trap⟩ := by
  unfold refutingTrap at found
  dsimp only at found
  split at found
  next marked =>
    obtain rfl := Option.some.inj found
    refine ⟨_, ?_, rfl⟩
    refine List.foldlRecOn _ _ (motive := MarkedTrap transitions initial)
      ⟨isTrap_maximalTrap _, markedIn_iff.mp marked⟩ fun trap h p _ => h.shrink p
  next => cases found

theorem fed_pos {s : Fin P → Nat} {ft : FlatTransition S P} {p : Fin P} (fed : p ∈ fedPlaces ft) :
    0 < fireA s ft p := by
  have put : 0 < ft.postVector p := by simpa [fedPlaces] using fed
  unfold fireA
  split <;> omega

theorem undrained_le {s : Fin P → Nat} {ft : FlatTransition S P} {p : Fin P}
    (undrained : p ∉ drainedPlaces ft) : s p ≤ fireA s ft p := by
  simp only [drainedPlaces, Finset.mem_filter, Finset.mem_univ, true_and, not_or, not_lt,
    Nat.le_zero, Bool.not_eq_true] at undrained
  obtain ⟨kept, untaken, undrained⟩ := undrained
  simp [fireA, kept, undrained, untaken]

end Traps

/-- A marked trap stays marked. -/
theorem MarkedTrap.move {trap : Finset flatNet.Index} {s s' : flatNet.State}
    {l : Option flatNet.Position} (h : MarkedTrap flatNet.transitions s trap)
    (move : FlatMove flatNet s l s') : MarkedTrap flatNet.transitions s' trap := by
  obtain ⟨isTrap, p, mem, marked⟩ := h
  refine ⟨isTrap, ?_⟩
  cases move with
  | fire t enabled within =>
    by_cases unfed : Disjoint (fedPlaces (flatNet.transition t)) trap
    · have undrained := isTrap _ (flatNet.transition_mem t) unfed
      refine ⟨p, mem, marked.trans_le (undrained_le fun drained => ?_)⟩
      exact Finset.disjoint_left.mp undrained drained mem
    · obtain ⟨q, fed, within⟩ := Finset.not_disjoint_iff.mp unfed
      exact ⟨q, within, fed_pos fed⟩
  | inject pid bound resolved room =>
    refine ⟨p, mem, ?_⟩
    unfold injectA
    by_cases here : p = pid
    · subst here
      rw [Function.update_self]
      omega
    · rwa [Function.update_of_ne here]

theorem satisfies_of_marked {P : Nat} {trap : Finset (Fin P)} {s : Fin P → Nat}
    (marked : ∃ p ∈ trap, 0 < s p) :
    Satisfies ⟨fun p => if p ∈ trap then -1 else 0, -1, .trap⟩ s := by
  obtain ⟨p, mem, some⟩ := marked
  have one : (s p : ℤ) ≤ ∑ q ∈ trap, (s q : ℤ) :=
    Finset.single_le_sum (fun q _ => Int.natCast_nonneg (s q)) mem
  have total : ∑ q, (if q ∈ trap then (-1 : ℤ) else 0) * (s q : ℤ) = -∑ q ∈ trap, (s q : ℤ) := by
    simp only [ite_mul, neg_one_mul, zero_mul, Finset.sum_ite_mem, Finset.univ_inter,
      Finset.sum_neg_distrib]
  rw [Satisfies, dot_eq_sum, total]
  change _ ≤ (-1 : ℤ)
  omega

/-- The trap that refutes a candidate holds in every reachable marking. -/
theorem satisfies_refutingTrap {initial s : flatNet.State} {candidate : flatNet.Index → Int}
    {r : MarkingInequality flatNet.places.length}
    (found : refutingTrap flatNet.transitions initial candidate = some r)
    {labels : List (Option flatNet.Position)} (run : FlatRun flatNet initial labels s) :
    Satisfies r s := by
  obtain ⟨trap, marked, rfl⟩ := refutingTrap_eq_some found
  have still : MarkedTrap flatNet.transitions s trap :=
    run.invariant (I := fun _ s => MarkedTrap flatNet.transitions s trap) marked
      fun _ _ _ _ _ h move => h.move move
  exact satisfies_of_marked still.2

/-! ## Steps that clear places -/

section Clearing

variable {P : Nat}

/-- A flat transition as a clearing step over numbers. -/
def clearingStep (K : Type) [Ring K] (ft : FlatTransition S P) : ClearingStep (Fin P) K where
  cleared := isCleared ft
  inhibited := fun p => p ∈ ft.inhibitorPlaces
  lower := fun p => (lowerBound ft p : K)
  delta := fun p => ((ft.postVector p - ft.preVector p : Int) : K)
  post := fun p => (ft.postVector p : K)

variable {K : Type} [CommRing K] [LinearOrder K] [IsStrictOrderedRing K] {ft : FlatTransition S P}
  {s : Fin P → Nat}

theorem lowerBound_le (enabled : enabledA s ft = true) (p : Fin P) : lowerBound ft p ≤ s p := by
  obtain ⟨inputs, reads, -⟩ := enabledA_iff_conditions.mp enabled
  refine max_le (inputs p) ?_
  split
  next read => exact reads p read
  next => exact Nat.zero_le _

theorem clearingStep_allows (enabled : enabledA s ft = true) :
    (clearingStep K ft).Allows fun p => (s p : K) where
  lower := fun p => Nat.cast_le.mpr (lowerBound_le enabled p)
  zero := fun p inhibited => by
    have := (enabledA_iff_conditions.mp enabled).2.2 p (of_decide_eq_true inhibited)
    rw [this, Nat.cast_zero]

omit [LinearOrder K] [IsStrictOrderedRing K] in
theorem clearingStep_fire (enabled : enabledA s ft = true) :
    (fun p => (fireA s ft p : K)) = (clearingStep K ft).fire fun p => (s p : K) := by
  funext p
  have enough := (enabledA_iff_conditions.mp enabled).1 p
  unfold fireA ClearingStep.fire
  change _ = if isCleared ft p then _ else _
  unfold isCleared
  split
  · rfl
  · change _ = (s p : K) + ((ft.postVector p - ft.preVector p : Int) : K)
    push_cast [Nat.cast_sub enough]
    ring

theorem inhibitsNeed_of_enabledA (enabled : enabledA s ft = true) : inhibitsNeed ft = false := by
  obtain ⟨inputs, reads, inhibitors⟩ := enabledA_iff_conditions.mp enabled
  unfold inhibitsNeed
  rw [List.any_eq_false]
  intro p mem needed
  have empty := inhibitors p mem
  rw [Bool.or_eq_true, decide_eq_true_eq, decide_eq_true_eq] at needed
  rcases needed with taken | read
  · have := inputs p
    omega
  · have := reads p read
    omega

end Clearing

/-! ## Inductive inequalities -/

section Inductive

variable {P : Nat} {ft : FlatTransition S P} {s : Fin P → Nat} {r : MarkingInequality P}
  {shape : StepShape P}

theorem stepShape_eq_some (found : stepShape ft = some shape) :
    (∀ p, p ∈ shape.keepNonNegative ↔ isCleared ft p = true ∧ p ∉ ft.inhibitorPlaces) ∧
      (∀ p, p ∈ shape.restoreFree ↔ isCleared ft p = true ∨ p ∈ ft.inhibitorPlaces) ∧
      (∀ a : Fin P → Int, dot a shape.keep = (clearingStep Int ft).kappa a -
        ∑ p, if (clearingStep Int ft).inhibited p then 0
          else (clearingStep Int ft).keepRate a 0 p * (clearingStep Int ft).lower p) ∧
      ∀ a : Fin P → Int, dot a shape.restore = (clearingStep Int ft).kappa a -
        ∑ p, if (clearingStep Int ft).inhibited p then 0
          else (clearingStep Int ft).restoreRate a 0 p * (clearingStep Int ft).lower p := by
  unfold stepShape at found
  split at found
  next => cases found
  next =>
    obtain rfl := Option.some.inj found
    refine ⟨fun p => by simp, fun p => by simp, fun a => ?_, fun a => ?_⟩
    · rw [dot_eq_sum, ClearingStep.kappa, ← Finset.sum_sub_distrib]
      refine Finset.sum_congr rfl fun p _ => ?_
      unfold ClearingStep.keepRate clearingStep
      by_cases cleared : isCleared ft p = true <;> by_cases inhibited : p ∈ ft.inhibitorPlaces <;>
        simp [cleared, inhibited, mul_sub]
    · rw [dot_eq_sum, ClearingStep.kappa, ← Finset.sum_sub_distrib]
      refine Finset.sum_congr rfl fun p _ => ?_
      unfold ClearingStep.restoreRate clearingStep
      by_cases cleared : isCleared ft p = true <;> by_cases inhibited : p ∈ ft.inhibitorPlaces <;>
        simp [cleared, inhibited, mul_sub, mul_add]

/-- A firing keeps an inequality that passes the check of its transition. -/
theorem satisfies_fireA (checked : keepsBound r ft = true) (enabled : enabledA s ft = true)
    (h : Satisfies r s) : Satisfies r (fireA s ft) := by
  unfold keepsBound at checked
  cases found : stepShape ft with
  | none =>
    have := inhibitsNeed_of_enabledA enabled
    rw [stepShape, this] at found
    cases found
  | some shape =>
    rw [found] at checked
    obtain ⟨nonneg, free, keep, restore⟩ := stepShape_eq_some found
    have allows := clearingStep_allows (K := Int) enabled
    unfold Satisfies at h ⊢
    rw [dot_eq_sum] at h ⊢
    have fired : ∑ p, r.weights p * (fireA s ft p : Int) =
        ∑ p, r.weights p * (clearingStep Int ft).fire (fun p => (s p : Int)) p := by
      rw [← clearingStep_fire enabled]
    rw [fired]
    have known : ∑ p : Fin P, (0 : Fin P → Int) p * (s p : Int) ≤ 0 := by simp
    simp only [Bool.or_eq_true, Bool.and_eq_true, List.all_eq_true, decide_eq_true_eq,
      List.mem_finRange, true_implies, keep, restore, nonneg, free] at checked
    rcases checked with ⟨signs, weighed⟩ | ⟨signs, weighed⟩
    · refine (ClearingStep.keeps ⟨fun p uninhibited => ?_, ?_⟩ allows known).trans h
      · have : p ∉ ft.inhibitorPlaces := of_decide_eq_false uninhibited
        unfold ClearingStep.keepRate
        split
        next cleared => simpa using signs p ⟨cleared, this⟩
        next => exact le_rfl
      · linarith
    · refine ClearingStep.restores ⟨fun p uninhibited => ?_, ?_⟩ allows known
      · have : p ∉ ft.inhibitorPlaces := of_decide_eq_false uninhibited
        unfold ClearingStep.restoreRate
        split
        next => exact le_rfl
        next kept =>
          rcases signs p with weight | cleared | inhibited
          · simpa using weight
          · exact absurd cleared kept
          · exact absurd inhibited this
      · linarith

end Inductive

/-- An injection lowers the left side, or keeps it. -/
theorem satisfies_injectA {r : MarkingInequality flatNet.places.length} {s : flatNet.State}
    {pid : flatNet.Index} (weight : r.weights pid ≤ 0) (h : Satisfies r s) :
    Satisfies r (injectA s pid) := by
  unfold Satisfies at h ⊢
  rw [dot_eq_sum] at h ⊢
  refine le_trans (Finset.sum_le_sum fun p _ => ?_) h
  unfold injectA
  by_cases here : p = pid
  · subst here
    rw [Function.update_self]
    push_cast
    nlinarith
  · rw [Function.update_of_ne here]

/-- An inequality that the exact check accepts holds in every reachable marking. -/
theorem satisfies_of_checkInductiveExact {initial s : flatNet.State}
    {r : MarkingInequality flatNet.places.length}
    (checked : checkInductiveExact flatNet initial r = true)
    {labels : List (Option flatNet.Position)} (run : FlatRun flatNet initial labels s) :
    Satisfies r s := by
  unfold checkInductiveExact at checked
  rw [Bool.and_eq_true, Bool.and_eq_true, decide_eq_true_eq, List.all_eq_true,
    List.all_eq_true] at checked
  obtain ⟨⟨init, injections⟩, transitions⟩ := checked
  refine run.invariant (I := fun _ s => Satisfies r s) init fun _ _ _ _ _ h move => ?_
  cases move with
  | fire t enabled within =>
    exact satisfies_fireA (transitions _ (flatNet.transition_mem t)) enabled h
  | inject pid bound mem room =>
    exact satisfies_injectA (of_decide_eq_true (injections _ mem)) h

/-! ## Inequalities relative to the marking equation -/

section Relative

variable {a : RelativeVar flatNet.places.length flatNet.transitions.length → ℝ}
  {initial : flatNet.State} {candidate : flatNet.Index → Int} {weightBound : Nat}

/-- An inequality read from a model of the query. -/
structure ReadFrom (a : RelativeVar flatNet.places.length flatNet.transitions.length → ℝ)
    (initial : flatNet.State) (candidate : flatNet.Index → Int) (weightBound : Nat)
    (r : MarkingInequality flatNet.places.length) : Prop where
  holds : ∀ f ∈ encodeRelativeInequality flatNet initial candidate weightBound, f.Holds a
  weights : ∀ p, a (.a p) = r.weights p
  constant : a .b = r.constant

/-- The weighting of a transition, zero at an injected place. -/
noncomputable def weighting (a : RelativeVar flatNet.places.length flatNet.transitions.length → ℝ)
    (t : flatNet.Position) (p : flatNet.Index) : ℝ := (etaTerm flatNet t p).eval a

theorem weighting_of_injected {t : flatNet.Position} {p : flatNet.Index}
    (injected : isInjected flatNet p = true) : weighting a t p = 0 := by
  rw [weighting, etaTerm, if_pos injected, eval_lit]
  norm_num

theorem weighting_of_uninjected {t : flatNet.Position} {p : flatNet.Index}
    (uninjected : isInjected flatNet p = false) : weighting a t p = a (.e t p) := by
  rw [weighting, etaTerm, uninjected, if_neg Bool.false_ne_true, eval_var]

/-- What the conditions of a weighting say. -/
theorem holds_weightingConditions {t : flatNet.Position}
    (holds : ∀ f ∈ weightingConditions flatNet t, f.Holds a) :
    (∀ p, isInjected flatNet p = false → nonlinearPlaces flatNet p = true → 0 ≤ weighting a t p) ∧
      ∀ j, ∑ p, weighting a t p * (column flatNet j p : ℝ) ≤ 0 := by
  unfold weightingConditions at holds
  dsimp only at holds
  rw [List.forall_mem_append, List.forall_mem_map] at holds
  obtain ⟨upper, columns⟩ := holds
  refine ⟨fun p uninjected nonlinear => ?_, fun j => ?_⟩
  · have := (holds_le _ _).mp (upper p (by simp [uninjected, nonlinear]))
    rw [eval_lit, eval_var] at this
    rw [weighting_of_uninjected uninjected]
    simpa using this
  · have total : ∑ p, weighting a t p * (column flatNet j p : ℝ) =
        ((((List.finRange _).filter fun p => !isInjected flatNet p).filterMap fun p =>
          if column flatNet j p = 0 then none
          else some (intTerm (column flatNet j p : ℚ) (Term.var (RelativeVar.e t p)))).map
            (Term.eval a)).sum := by
      rw [sum_eval_multiples, sum_map_filter, ← Fin.sum_univ_def]
      refine Finset.sum_congr rfl fun p _ => ?_
      cases injected : isInjected flatNet p with
      | true => simp [weighting_of_injected injected]
      | false => simp [weighting_of_uninjected injected, mul_comm]
    rw [total]
    by_cases none : ((List.finRange _).filter fun p => !isInjected flatNet p).filterMap (fun p =>
        if column flatNet j p = 0 then none
        else some (intTerm (column flatNet j p : ℚ) (Term.var (RelativeVar.e t p)))) = []
    · rw [none, List.map_nil, List.sum_nil]
    · have := (holds_le _ _).mp
        (columns _ (List.mem_filterMap.mpr ⟨j, List.mem_finRange _, if_neg none⟩))
      rw [eval_sumTerms, eval_lit] at this
      simpa [scaled] using this

/-- A weighting of the equation bounds every reachable marking. -/
theorem weighting_le {initialMarking : MarkingState} {t : flatNet.Position}
    (holds : ∀ f ∈ weightingConditions flatNet t, f.Holds a)
    {labels : List (Option flatNet.Position)} {s : flatNet.State}
    (run : FlatRun flatNet (flatNet.vectorize initialMarking) labels s) :
    ∑ p, weighting a t p * (s p : ℝ) ≤
      ∑ p, weighting a t p * (flatNet.vectorize initialMarking p : ℝ) := by
  obtain ⟨upper, columns⟩ := holds_weightingConditions holds
  have row (p : flatNet.Index) : weighting a t p * (s p : ℝ) ≤
      weighting a t p * (flatNet.vectorize initialMarking p : ℝ) +
        ∑ j, weighting a t p * ((column flatNet j p : ℝ) * (firingCounts labels j : ℝ)) := by
    cases injected : isInjected flatNet p with
    | true => simp [weighting_of_injected injected]
    | false =>
      have equation := markingEquation_of_run run p (isInjected_iff.mp injected)
      unfold MarkingEquationAt at equation
      dsimp only at equation
      rw [← Finset.mul_sum, ← mul_add]
      split at equation
      next nonlinear =>
        refine mul_le_mul_of_nonneg_left ?_ (upper p injected nonlinear)
        exact_mod_cast equation
      next =>
        refine (congrArg _ ?_).le
        exact_mod_cast equation
  calc ∑ p, weighting a t p * (s p : ℝ)
      ≤ ∑ p, (weighting a t p * (flatNet.vectorize initialMarking p : ℝ) +
          ∑ j, weighting a t p * ((column flatNet j p : ℝ) * (firingCounts labels j : ℝ))) :=
        Finset.sum_le_sum fun p _ => row p
    _ = ∑ p, weighting a t p * (flatNet.vectorize initialMarking p : ℝ) +
          ∑ j, (∑ p, weighting a t p * (column flatNet j p : ℝ)) * (firingCounts labels j : ℝ) := by
        rw [Finset.sum_add_distrib, Finset.sum_comm]
        simp only [Finset.sum_mul, mul_assoc]
    _ ≤ ∑ p, weighting a t p * (flatNet.vectorize initialMarking p : ℝ) := by
        refine add_le_of_nonpos_right (Finset.sum_nonpos fun j _ => ?_)
        exact mul_nonpos_of_nonpos_of_nonneg (columns j) (Nat.cast_nonneg _)

section Consecution

variable {t : flatNet.Position}

theorem eval_kappaTerm : (kappaTerm flatNet t).eval a =
    (clearingStep ℝ (flatNet.transition t)).kappa fun p => a (.a p) := by
  unfold kappaTerm scaled
  dsimp only
  rw [eval_sumTerms, sum_eval_multiples, ← Fin.sum_univ_def, ClearingStep.kappa]
  refine Finset.sum_congr rfl fun p _ => ?_
  rw [eval_var, mul_comm]
  unfold clearingStep
  dsimp only
  split <;> simp

theorem eval_slackTerm {rate : flatNet.Index → RelativeTerm flatNet} :
    (slackTerm flatNet t initial rate).eval a = -(∑ p, weighting a t p * (initial p : ℝ)) +
      ∑ p, if (clearingStep ℝ (flatNet.transition t)).inhibited p then 0
        else (rate p).eval a * (clearingStep ℝ (flatNet.transition t)).lower p := by
  unfold slackTerm openPlaces scaled
  dsimp only
  rw [eval_sumTerms, List.map_append, List.sum_append, List.map_map, List.map_map, List.filter_filter,
    sum_map_filter, sum_map_filter, ← Fin.sum_univ_def, ← Fin.sum_univ_def, ← Finset.sum_neg_distrib]
  congr 1
  · refine Finset.sum_congr rfl fun p _ => ?_
    cases injected : isInjected flatNet p with
    | true => simp [weighting_of_injected injected]
    | false =>
      rw [weighting_of_uninjected injected]
      by_cases none : initial p = 0
      · simp [none]
      · simp [none, mul_comm]
  · refine Finset.sum_congr rfl fun p _ => ?_
    unfold clearingStep
    by_cases inhibited : p ∈ (flatNet.transition t).inhibitorPlaces
    · simp [inhibited]
    · by_cases none : lowerBound (flatNet.transition t) p = 0
      · simp [none]
      · simp [inhibited, none, mul_comm]

theorem eval_keepTerm (p : flatNet.Index) : (keepTerm flatNet t p).eval a =
    (clearingStep ℝ (flatNet.transition t)).keepRate (fun p => a (.a p)) (weighting a t) p := by
  unfold keepTerm ClearingStep.keepRate clearingStep
  dsimp only
  split
  · simp [weighting]
  · rfl

theorem eval_restoreTerm (p : flatNet.Index) : (restoreTerm flatNet t p).eval a =
    (clearingStep ℝ (flatNet.transition t)).restoreRate (fun p => a (.a p)) (weighting a t) p := by
  unfold restoreTerm ClearingStep.restoreRate clearingStep
  dsimp only
  split
  · rfl
  · simp [weighting]

/-- What the condition of a transition says. -/
theorem holds_consecutionCondition (holds : (consecutionCondition flatNet t initial).Holds a) :
    let step := clearingStep ℝ (flatNet.transition t)
    let e := ∑ p, weighting a t p * (initial p : ℝ)
    step.Weighs e (step.keepRate (fun p => a (.a p)) (weighting a t))
        (step.kappa fun p => a (.a p)) ∨
      step.Weighs e (step.restoreRate (fun p => a (.a p)) (weighting a t))
        ((step.kappa fun p => a (.a p)) - a .b) := by
  intro step e
  obtain ⟨f, mem, holds⟩ := (holds_or _).mp holds
  have zero : (num 0 : RelativeTerm flatNet).eval a = 0 := by simp
  have listed {p : flatNet.Index} (uninhibited : step.inhibited p = false) :
      p ∈ openPlaces flatNet t :=
    List.mem_filter.mpr ⟨List.mem_finRange p, decide_eq_true (of_decide_eq_false uninhibited)⟩
  simp only [List.mem_cons, List.not_mem_nil, or_false] at mem
  rcases mem with rfl | rfl
  · rw [holds_conjoin, List.forall_mem_append, List.forall_mem_map, List.forall_mem_singleton,
      holds_le, eval_kappaTerm, eval_slackTerm] at holds
    obtain ⟨signs, enough⟩ := holds
    simp only [eval_keepTerm] at enough
    refine .inl ⟨fun p uninhibited => ?_, enough⟩
    have := (holds_le _ _).mp (signs p (listed uninhibited))
    rwa [zero, eval_keepTerm] at this
  · rw [holds_conjoin, List.forall_mem_append, List.forall_mem_map, List.forall_mem_singleton,
      holds_le, eval_sub, eval_kappaTerm, eval_slackTerm, eval_var] at holds
    obtain ⟨signs, enough⟩ := holds
    simp only [eval_restoreTerm] at enough
    refine .inr ⟨fun p uninhibited => ?_, enough⟩
    have := signs p (listed uninhibited)
    rw [← eval_restoreTerm]
    unfold restoreTerm
    split at this
    next cleared =>
      rw [if_pos cleared]
      rw [holds_le, zero] at this
      exact this
    next kept =>
      rw [if_neg kept, eval_sub]
      rw [holds_le] at this
      exact sub_nonneg.mpr this

end Consecution

theorem eval_linear (coeffs : flatNet.Index → Int)
    (v : flatNet.Index → RelativeTerm flatNet) :
    (linear coeffs v).eval a = ∑ p, (coeffs p : ℝ) * (v p).eval a := by
  rw [linear, eval_sumTerms, sum_eval_multiples, ← Fin.sum_univ_def]

/-- An inequality read from a model of the query holds in every reachable marking. -/
theorem satisfies_of_readFrom {initialMarking : MarkingState}
    {r : MarkingInequality flatNet.places.length}
    (read : ReadFrom a (flatNet.vectorize initialMarking) candidate weightBound r)
    {labels : List (Option flatNet.Position)} {s : flatNet.State}
    (run : FlatRun flatNet (flatNet.vectorize initialMarking) labels s) : Satisfies r s := by
  have asserts := read.holds
  unfold encodeRelativeInequality at asserts
  dsimp only at asserts
  rw [List.forall_mem_append, List.forall_mem_append, List.forall_mem_append, List.forall_mem_cons,
    List.forall_mem_map] at asserts
  obtain ⟨⟨⟨-, init, -⟩, injections⟩, steps⟩ := asserts
  rw [List.forall_mem_flatMap] at steps
  have real {s : flatNet.State} : Satisfies r s ↔ ∑ p, a (.a p) * (s p : ℝ) ≤ a .b := by
    rw [Satisfies, dot_eq_sum, read.constant]
    simp only [read.weights]
    exact_mod_cast Iff.rfl
  refine run.invariant (I := fun _ s => Satisfies r s) ?_ fun labels s l s' walk h move => ?_
  · rw [real]
    have start := (holds_le _ _).mp init
    rw [eval_linear, eval_var] at start
    simpa [mul_comm] using start
  · cases move with
    | fire t enabled within =>
      rw [real] at h ⊢
      have able : !inhibitsNeed (flatNet.transition t) := by
        rw [inhibitsNeed_of_enabledA enabled]
        rfl
      have conditions := steps t (List.mem_filter.mpr ⟨List.mem_finRange t, able⟩)
      rw [List.forall_mem_append, List.forall_mem_singleton] at conditions
      have known := weighting_le conditions.1 walk
      have allows := clearingStep_allows (K := ℝ) enabled
      have fired : ∑ p, a (.a p) * (fireA s (flatNet.transition t) p : ℝ) =
          ∑ p, a (.a p) * (clearingStep ℝ (flatNet.transition t)).fire (fun p => (s p : ℝ)) p := by
        rw [← clearingStep_fire enabled]
      rw [fired]
      rcases holds_consecutionCondition conditions.2 with weighs | weighs
      · exact (ClearingStep.keeps weighs allows known).trans h
      · exact ClearingStep.restores weighs allows known
    | inject pid bound mem room =>
      refine satisfies_injectA ?_ h
      have weight := (holds_le _ _).mp (injections _ mem)
      rw [eval_var, read.weights] at weight
      have : (r.weights pid : ℝ) ≤ 0 := by simpa using weight
      exact_mod_cast this

end Relative

end LibPetri.Verified

import LibPetri.Verified.Violations

/-! # The marking equation

The firing counts and the end of every run satisfy the marking equation: exactly on a place that no step
clears, and from above on the others, since a clearing firing takes at least its arc weight.
-/

namespace LibPetri.Verified

open LibPetri.Basis LibPetri.Basis.Smt LibPetri.Core LibPetri.Runtime LibPetri.Verification
open LibPetri.Verification.AbstractReplayer LibPetri.Verification.SmtEncoder

variable {S V : Type} {flatNet : FlatNet S}

/-- The marking equation on one place: exact where no step clears the place, else from above. -/
def MarkingEquationAt (flatNet : FlatNet S) (initialMarking : MarkingState)
    (n : flatNet.Position → ℚ) (m : flatNet.Index → ℚ) (p : flatNet.Index) : Prop :=
  let rhs := (initialMarking.tokens (flatNet.placeAt p) : ℚ) + ∑ t, (column flatNet t p : ℚ) * n t
  if nonlinearPlaces flatNet p then m p ≤ rhs else m p = rhs

section Terms

variable {a : V → ℚ} {R : List ℚ → Prop} {nVars : flatNet.Position → Term V}
  {mVars : flatNet.Index → Term V} {initialMarking : MarkingState}

theorem holds_stateEquationConditions :
    (∀ f ∈ stateEquationConditions flatNet initialMarking nVars mVars, f.HoldsWith a R) ↔
      ∀ p, injectionOf flatNet p = none →
        MarkingEquationAt flatNet initialMarking (fun t => (nVars t).eval a)
          (fun p => (mVars p).eval a) p := by
  have injected (p : flatNet.Index) :
      p ∉ (resolveEnvInjection flatNet).map Prod.fst ↔ injectionOf flatNet p = none := by
    rw [← lookup_resolveEnvInjection, OrderedMap.lookup_eq_none_iff]
  unfold stateEquationConditions
  dsimp only
  rw [List.forall_mem_map]
  simp only [List.mem_filter, List.mem_finRange, true_and, decide_eq_true_eq, injected]
  refine forall₂_congr fun p _ => ?_
  have rhs : (if (List.finRange flatNet.transitions.length).filterMap (fun t =>
        if column flatNet t p = 0 then none
        else some (intTerm (column flatNet t p : ℚ) (nVars t))) = [] then
        (num (initialMarking.tokens (flatNet.placeAt p)) : Term V)
      else .add (num (initialMarking.tokens (flatNet.placeAt p)) ::
        (List.finRange flatNet.transitions.length).filterMap fun t =>
          if column flatNet t p = 0 then none
          else some (intTerm (column flatNet t p : ℚ) (nVars t)))).eval a =
      (initialMarking.tokens (flatNet.placeAt p) : ℚ) +
        ∑ t, (column flatNet t p : ℚ) * (nVars t).eval a := by
    rw [Fin.sum_univ_def, ← sum_eval_multiples]
    split
    next none => rw [none, eval_num, List.map_nil, List.sum_nil, add_zero, Int.cast_natCast]
    next => rw [eval_add, List.map_cons, List.sum_cons, eval_num, Int.cast_natCast]
  unfold MarkingEquationAt
  dsimp only
  split
  · rw [holds_le, rhs]
  · rw [holds_eq, rhs]

end Terms

/-! ## Runs -/

section Runs

variable {initialMarking : MarkingState}

/-- A count more of one transition adds its column. -/
theorem sum_counted (l : Option flatNet.Position) (n : flatNet.Position → Nat) (p : flatNet.Index) :
    ∑ t, (column flatNet t p : ℚ) * (counted l n t : ℚ) =
      ∑ t, (column flatNet t p : ℚ) * (n t : ℚ) + (l.elim 0 fun t => (column flatNet t p : ℚ)) := by
  cases l with
  | none => simp [counted]
  | some k =>
    have each (t : flatNet.Position) : (column flatNet t p : ℚ) * (counted (some k) n t : ℚ) =
        (column flatNet t p : ℚ) * (n t : ℚ) + if t = k then (column flatNet t p : ℚ) else 0 := by
      by_cases same : t = k
      · subst same
        simp [counted, mul_add]
      · have : k ≠ t := fun h => same h.symm
        simp [counted, same, this]
    simp only [each, Finset.sum_add_distrib, Finset.sum_ite_eq', Finset.mem_univ, ↓reduceIte,
      Option.elim_some]

/-- What a move does to a place that is not injected. -/
theorem move_column {s s' : flatNet.State} {l : Option flatNet.Position}
    (move : FlatMove flatNet s l s') {p : flatNet.Index} (uninjected : injectionOf flatNet p = none) :
    (s' p : ℤ) ≤ s p + (l.elim 0 fun t => column flatNet t p) ∧
      (nonlinearPlaces flatNet p = false →
        (s' p : ℤ) = s p + (l.elim 0 fun t => column flatNet t p)) := by
  cases move with
  | fire t enabled within =>
    refine ⟨fireA_le enabled p, fun linear => ?_⟩
    rw [nonlinearPlaces, List.any_eq_false] at linear
    have kept := linear _ (flatNet.transition_mem t)
    simp only [Bool.or_eq_true, decide_eq_true_eq, not_or, Bool.not_eq_true] at kept
    exact fireA_eq_column enabled kept.2 kept.1
  | inject pid bound mem room =>
    have other : p ≠ pid := by
      rintro rfl
      rw [mem_resolveEnvInjection, ← OrderedMap.get?_eq_some_iff] at mem
      rw [injectionOf, mem] at uninjected
      cases uninjected
    rw [injectA, Function.update_of_ne other]
    simp

theorem markingEquation_of_run {labels : List (Option flatNet.Position)} {s : flatNet.State}
    (run : FlatRun flatNet (flatNet.vectorize initialMarking) labels s) (p : flatNet.Index)
    (uninjected : injectionOf flatNet p = none) :
    MarkingEquationAt flatNet initialMarking (fun t => (firingCounts labels t : ℚ))
      (fun p => (s p : ℚ)) p := by
  refine run.invariant (I := fun labels s => MarkingEquationAt flatNet initialMarking
    (fun t => (firingCounts labels t : ℚ)) (fun p => (s p : ℚ)) p) ?_ ?_
  · simp [MarkingEquationAt, FlatNet.vectorize, firingCounts]
  · intro labels t l u _ ih move
    obtain ⟨above, equal⟩ := move_column move uninjected
    have change : (l.elim 0 fun t => (column flatNet t p : ℚ)) =
        ((l.elim 0 fun t => column flatNet t p : ℤ) : ℚ) := by
      cases l <;> simp
    unfold MarkingEquationAt at ih ⊢
    dsimp only at ih ⊢
    rw [firingCounts_append, sum_counted, change]
    split at ih
    next nonlinear =>
      rw [if_pos nonlinear]
      have : (u p : ℚ) ≤ t p + ((l.elim 0 fun t => column flatNet t p : ℤ) : ℚ) := by
        exact_mod_cast above
      linarith
    next linear =>
      rw [if_neg linear]
      have : (u p : ℚ) = t p + ((l.elim 0 fun t => column flatNet t p : ℤ) : ℚ) := by
        exact_mod_cast equal (Bool.not_eq_true _ ▸ linear)
      linarith

end Runs

end LibPetri.Verified

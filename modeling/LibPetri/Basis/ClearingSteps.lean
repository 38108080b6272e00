import Mathlib.Algebra.Order.Ring.Defs
import Mathlib.Algebra.BigOperators.Fin
import Mathlib.Algebra.Order.BigOperators.Group.Finset
import Mathlib.Tactic.Linarith
import Mathlib.Tactic.Ring

/-! # Linear inequalities over clearing steps

A clearing step asks each entry of a vector for a lower bound, or for zero, and then overwrites some
entries and adds to the others.  A linear inequality survives it in one of two ways: the step does not
raise the left side, or its guard restores the inequality whatever held before.  Either may use a known
inequality `η·x ≤ e`; without one, `η` and `e` are zero.
-/

namespace LibPetri.Basis

structure ClearingStep (ι K : Type) where
  cleared : ι → Bool
  inhibited : ι → Bool
  lower : ι → K
  delta : ι → K
  post : ι → K

namespace ClearingStep

variable {ι K : Type} [CommRing K] [LinearOrder K] [IsStrictOrderedRing K]
  (step : ClearingStep ι K) (a η : ι → K) (b e : K)

/-- The guard of the step. -/
structure Allows (x : ι → K) : Prop where
  lower : ∀ p, step.lower p ≤ x p
  zero : ∀ p, step.inhibited p = true → x p = 0

def fire (x : ι → K) : ι → K := fun p => if step.cleared p then step.post p else x p + step.delta p

section Sums

variable [Fintype ι]

/-- The part of `a·x` after the step that does not depend on the entries before it. -/
def kappa : K := ∑ p, a p * if step.cleared p then step.post p else step.delta p

omit [LinearOrder K] [IsStrictOrderedRing K] in
theorem dot_fire (x : ι → K) :
    ∑ p, a p * step.fire x p = step.kappa a + ∑ p, if step.cleared p then 0 else a p * x p := by
  rw [kappa, ← Finset.sum_add_distrib]
  refine Finset.sum_congr rfl fun p _ => ?_
  unfold fire
  split <;> ring

/-- The multiplier of an entry where the step is to keep the left side. -/
def keepRate (p : ι) : K := if step.cleared p then a p + η p else η p

/-- The multiplier of an entry where the guard is to restore the inequality. -/
def restoreRate (p : ι) : K := if step.cleared p then η p else η p - a p

/-- The multipliers are not negative, and weigh the lower bounds enough. -/
structure Weighs (rate : ι → K) (total : K) : Prop where
  nonneg : ∀ p, step.inhibited p = false → 0 ≤ rate p
  enough : total ≤ -e + ∑ p, if step.inhibited p then 0 else rate p * step.lower p

variable {step a η b e} {x : ι → K}

/-- Where the guard holds, the entries weigh no less than their lower bounds. -/
theorem Weighs.le {rate : ι → K} {total : K} (weighs : step.Weighs e rate total)
    (allows : step.Allows x) : total ≤ -e + ∑ p, rate p * x p := by
  refine weighs.enough.trans (add_le_add_right (Finset.sum_le_sum fun p _ => ?_) _)
  cases inhibited : step.inhibited p with
  | true => rw [allows.zero p inhibited, mul_zero, if_pos rfl]
  | false =>
    rw [if_neg Bool.false_ne_true]
    exact mul_le_mul_of_nonneg_left (allows.lower p) (weighs.nonneg p inhibited)

/-- The step keeps the left side. -/
theorem keeps (weighs : step.Weighs e (step.keepRate a η) (step.kappa a)) (allows : step.Allows x)
    (known : ∑ p, η p * x p ≤ e) : ∑ p, a p * step.fire x p ≤ ∑ p, a p * x p := by
  have above := weighs.le allows
  have split : ∑ p, step.keepRate a η p * x p + (∑ p, if step.cleared p then 0 else a p * x p) =
      ∑ p, a p * x p + ∑ p, η p * x p := by
    rw [← Finset.sum_add_distrib, ← Finset.sum_add_distrib]
    refine Finset.sum_congr rfl fun p _ => ?_
    unfold keepRate
    split <;> ring
  rw [dot_fire]
  linarith

/-- The guard restores the inequality. -/
theorem restores (weighs : step.Weighs e (step.restoreRate a η) (step.kappa a - b))
    (allows : step.Allows x) (known : ∑ p, η p * x p ≤ e) : ∑ p, a p * step.fire x p ≤ b := by
  have above := weighs.le allows
  have split : ∑ p, step.restoreRate a η p * x p + (∑ p, if step.cleared p then 0 else a p * x p) =
      ∑ p, η p * x p := by
    rw [← Finset.sum_add_distrib]
    refine Finset.sum_congr rfl fun p _ => ?_
    unfold restoreRate
    split <;> ring
  rw [dot_fire]
  linarith

end Sums

end ClearingStep

end LibPetri.Basis

import Mathlib

/-! # Elimination

Vectors that span a space, some of which have been given a pivot: a coordinate of a linear map that is zero
on all the others.  When the vectors without a pivot are mapped to zero, they span the kernel.
-/

namespace LibPetri.Basis

variable {K W ι τ : Type*} [Field K] [AddCommGroup W] [Module K W] {L : W →ₗ[K] (τ → K)}
  {w w' : ι → W} {pivot : ι → Option τ}

/-- The vectors span the space, and no two have an entry in the coordinate of a pivot. -/
structure Echelon (L : W →ₗ[K] (τ → K)) (w : ι → W) (pivot : ι → Option τ) : Prop where
  spans : ⊤ ≤ Submodule.span K (Set.range w)
  nonzero : ∀ i c, pivot i = some c → L (w i) c ≠ 0
  alone : ∀ i c, pivot i = some c → ∀ j, j ≠ i → L (w j) c = 0

namespace Echelon

theorem start (spans : ⊤ ≤ Submodule.span K (Set.range w)) : Echelon L w fun _ => none :=
  ⟨spans, fun _ _ found => (by cases found), fun _ _ found => (by cases found)⟩

/-- Vectors may be exchanged with their pivots. -/
theorem permute (h : Echelon L w pivot) (σ : Equiv.Perm ι) : Echelon L (w ∘ σ) (pivot ∘ σ) := by
  refine ⟨?_, fun i c found => h.nonzero (σ i) c found,
    fun i c found j other => h.alone (σ i) c found (σ j) (σ.injective.ne other)⟩
  rw [Set.range_comp, σ.range_eq_univ, Set.image_univ]
  exact h.spans

/-- A vector that has an entry in a coordinate gets it for a pivot, once the others have been cleared
there by multiples of it. -/
theorem eliminate [DecidableEq ι] (h : Echelon L w pivot) {k : ι} {c : τ} (free : pivot k = none)
    (here : L (w k) c ≠ 0) (same : w' k = w k)
    (others : ∀ j, j ≠ k → ∃ a b : K, a ≠ 0 ∧ w' j = a • w j - b • w k)
    (cleared : ∀ j, j ≠ k → L (w' j) c = 0) : Echelon L w' (Function.update pivot k (some c)) := by
  have old {i : ι} {d : τ} (found : pivot i = some d) : i ≠ k ∧ L (w k) d = 0 := by
    have other : i ≠ k := by
      rintro rfl
      rw [free] at found
      cases found
    exact ⟨other, h.alone i d found k other.symm⟩
  refine ⟨?_, fun i d found => ?_, fun i d found j other => ?_⟩
  · refine h.spans.trans (Submodule.span_le.mpr ?_)
    rintro _ ⟨j, rfl⟩
    have pivotal : w k ∈ Submodule.span K (Set.range w') := by
      rw [← same]
      exact Submodule.subset_span ⟨k, rfl⟩
    by_cases here : j = k
    · rw [here]
      exact pivotal
    · obtain ⟨a, b, nonzero, eq⟩ := others j here
      have back : w j = a⁻¹ • w' j + (a⁻¹ * b) • w k := by
        rw [eq, smul_sub, smul_smul, inv_mul_cancel₀ nonzero, one_smul, smul_smul]
        abel
      rw [back]
      exact Submodule.add_mem _ (Submodule.smul_mem _ _ (Submodule.subset_span ⟨j, rfl⟩))
        (Submodule.smul_mem _ _ pivotal)
  · by_cases last : i = k
    · subst last
      obtain rfl : c = d := by simpa using found
      rwa [same]
    · rw [Function.update_of_ne last] at found
      obtain ⟨a, b, nonzero, eq⟩ := others i last
      rw [eq, map_sub, map_smul, map_smul]
      simpa [(old found).2] using And.intro nonzero (h.nonzero i d found)
  · by_cases last : i = k
    · subst last
      obtain rfl : c = d := by simpa using found
      exact cleared j other
    · rw [Function.update_of_ne last] at found
      by_cases pivotal : j = k
      · rw [pivotal, same]
        exact (old found).2
      · obtain ⟨a, b, -, eq⟩ := others j pivotal
        rw [eq, map_sub, map_smul, map_smul]
        simp [(old found).2, h.alone i d found j other]

/-- The vectors without a pivot span the kernel. -/
theorem ker_le_span [Fintype ι] (h : Echelon L w pivot) :
    LinearMap.ker L ≤ Submodule.span K (w '' {i | pivot i = none}) := by
  classical
  intro y null
  obtain ⟨coeff, rfl⟩ := (Submodule.mem_span_range_iff_exists_fun K).mp (h.spans (Submodule.mem_top (x := y)))
  rw [LinearMap.mem_ker, map_sum] at null
  refine Submodule.sum_mem _ fun i _ => ?_
  cases found : pivot i with
  | none => exact Submodule.smul_mem _ _ (Submodule.subset_span ⟨i, found, rfl⟩)
  | some c =>
    -- at the coordinate of its pivot only this vector contributes
    have entry := congrFun null c
    rw [Finset.sum_apply, Finset.sum_eq_single i (fun j _ other => by
      rw [map_smul, Pi.smul_apply, h.alone i c found j other, smul_zero]) (by simp)] at entry
    have zero : coeff i = 0 := by simpa [h.nonzero i c found] using entry
    rw [zero, zero_smul]
    exact Submodule.zero_mem _

end Echelon

end LibPetri.Basis

import Mathlib

/-! # Generators of the non-negative solutions

Vectors whose supports lie in those of all non-negative elements of a subspace, the step that carries them
over to the kernel of a functional, and the generators of minimal support.
-/

namespace LibPetri.Basis

open Function

variable {K ι : Type*} [Field K] [LinearOrder K] [IsStrictOrderedRing K] [Fintype ι]

/-- A non-negative vector of the subspace other than zero. -/
structure IsFlow (L : Submodule K (ι → K)) (y : ι → K) : Prop where
  mem : y ∈ L
  nonneg : 0 ≤ y
  ne_zero : y ≠ 0

/-- Every flow has the support of a generator inside its own. -/
structure Generates (rows : Set (ι → K)) (L : Submodule K (ι → K)) : Prop where
  flow : ∀ r ∈ rows, IsFlow L r
  covers : ∀ y, IsFlow L y → ∃ r ∈ rows, support r ⊆ support y

/-! ## Subtraction of a generator -/

/-- The largest multiple of a flow that another one leaves room for clears a place of its support. -/
theorem exists_subtract {L : Submodule K (ι → K)} {y r : ι → K} (flow : IsFlow L y) (row : IsFlow L r)
    (inside : support r ⊆ support y) : ∃ c : K, 0 < c ∧ 0 ≤ y - c • r ∧ y - c • r ∈ L ∧
      support (y - c • r) ⊂ support y := by
  obtain ⟨i, weighs⟩ := Function.support_nonempty_iff.mpr row.ne_zero
  have finite : (support r).Finite := Set.toFinite _
  obtain ⟨j, mem, least⟩ := Set.exists_min_image (support r) (fun j => y j / r j) finite ⟨i, weighs⟩
  have positive {k : ι} (weighs : k ∈ support r) : 0 < r k :=
    lt_of_le_of_ne (row.nonneg k) (Ne.symm weighs)
  refine ⟨y j / r j, ?_, fun k => ?_, L.sub_mem flow.mem (L.smul_mem _ row.mem), ?_⟩
  · have : 0 < y j := lt_of_le_of_ne (flow.nonneg j) (Ne.symm (inside mem))
    exact div_pos this (positive mem)
  · rw [Pi.zero_apply, Pi.sub_apply, Pi.smul_apply, smul_eq_mul, sub_nonneg]
    by_cases weighs : r k = 0
    · rw [weighs, mul_zero]
      exact flow.nonneg k
    · exact (le_div_iff₀ (positive weighs)).mp (least k weighs)
  · refine ⟨fun k apart => ?_, fun all => ?_⟩
    · intro zero
      have : r k = 0 := by
        by_contra weighs
        exact inside weighs zero
      apply apart
      rw [Pi.sub_apply, Pi.smul_apply, zero, this, smul_zero, sub_zero]
    · apply all (inside mem)
      rw [Pi.sub_apply, Pi.smul_apply, smul_eq_mul, div_mul_cancel₀ _ (positive mem).ne', sub_self]

/-- A functional that is positive on all generators inside the support of a flow is positive on the flow. -/
theorem Generates.pos {rows : Set (ι → K)} {L : Submodule K (ι → K)} (h : Generates rows L)
    (f : (ι → K) →ₗ[K] K) {y : ι → K} (flow : IsFlow L y)
    (positive : ∀ r ∈ rows, support r ⊆ support y → 0 < f r) : 0 < f y := by
  -- the induction is on the size of the support
  induction size : (support y).ncard using Nat.strong_induction_on generalizing y with
  | _ size ih =>
    obtain ⟨r, mem, inside⟩ := h.covers y flow
    obtain ⟨c, pos, nonneg, left, smaller⟩ := exists_subtract flow (h.flow r mem) inside
    have split : f y = f (y - c • r) + c * f r := by
      rw [map_sub, map_smul, smul_eq_mul, sub_add_cancel]
    have gain : 0 < c * f r := mul_pos pos (positive r mem inside)
    by_cases zero : y - c • r = 0
    · rw [split, zero, map_zero, zero_add]
      exact gain
    · have rest := ih _ (by
        rw [← size]
        exact Set.ncard_lt_ncard smaller (Set.toFinite _)) ⟨left, nonneg, zero⟩
        (fun r' mem' inside' => positive r' mem' (inside'.trans smaller.subset)) rfl
      rw [split]
      exact add_pos rest gain

/-! ## The kernel of a functional -/

omit [Fintype ι] in
/-- Positive multiples of two flows that cancel under the functional. -/
theorem IsFlow.cancel {L : Submodule K (ι → K)} {a b : ι → K} (flow_a : IsFlow L a) (flow_b : IsFlow L b)
    {f : (ι → K) →ₗ[K] K} {c d : K} (pos_c : 0 < c) (pos_d : 0 < d) (cancels : c * f a + d * f b = 0) :
    IsFlow (L ⊓ LinearMap.ker f) (c • a + d • b) := by
  refine ⟨⟨L.add_mem (L.smul_mem c flow_a.mem) (L.smul_mem d flow_b.mem), ?_⟩, ?_, fun zero => ?_⟩
  · apply LinearMap.mem_ker.mpr
    rw [map_add, map_smul, map_smul, smul_eq_mul, smul_eq_mul, cancels]
  · exact add_nonneg (smul_nonneg pos_c.le flow_a.nonneg) (smul_nonneg pos_d.le flow_b.nonneg)
  · apply flow_a.ne_zero
    funext i
    have left : 0 ≤ c * a i := mul_nonneg pos_c.le (flow_a.nonneg i)
    have right : 0 ≤ d * b i := mul_nonneg pos_d.le (flow_b.nonneg i)
    have sum : c * a i + d * b i = 0 := congrFun zero i
    have : c * a i = 0 := by linarith
    exact (mul_eq_zero.mp this).resolve_left pos_c.ne'

/-- The rows of a round: those that the functional does not change and the pairs that cancel. -/
theorem Generates.inf_ker {rows next : Set (ι → K)} {L : Submodule K (ι → K)} (h : Generates rows L)
    (f : (ι → K) →ₗ[K] K) (flow : ∀ r ∈ next, IsFlow (L ⊓ LinearMap.ker f) r)
    (zero : ∀ r ∈ rows, f r = 0 → ∃ r' ∈ next, support r' ⊆ support r)
    (pair : ∀ a ∈ rows, ∀ b ∈ rows, 0 < f a → f b < 0 → ∃ r' ∈ next, support r' ⊆ support a ∪ support b) :
    Generates next (L ⊓ LinearMap.ker f) := by
  refine ⟨flow, fun y solves => ?_⟩
  have inner : IsFlow L y := ⟨solves.mem.1, solves.nonneg, solves.ne_zero⟩
  have null : f y = 0 := solves.mem.2
  by_cases cleared : ∃ r ∈ rows, support r ⊆ support y ∧ f r = 0
  · obtain ⟨r, mem, inside, zero_⟩ := cleared
    obtain ⟨r', mem', inside'⟩ := zero r mem zero_
    exact ⟨r', mem', inside'.trans inside⟩
  · have gains : ∃ a ∈ rows, support a ⊆ support y ∧ 0 < f a := by
      by_contra none_
      have := h.pos (-f) inner fun r mem inside => by
        have nonpos : ¬0 < f r := fun pos => none_ ⟨r, mem, inside, pos⟩
        have nonzero : f r ≠ 0 := fun zero_ => cleared ⟨r, mem, inside, zero_⟩
        rw [LinearMap.neg_apply, neg_pos]
        exact lt_of_le_of_ne (not_lt.mp nonpos) nonzero
      rw [LinearMap.neg_apply, null, neg_zero] at this
      exact this.false
    have loses : ∃ b ∈ rows, support b ⊆ support y ∧ f b < 0 := by
      by_contra none_
      have := h.pos f inner fun r mem inside => by
        have nonneg : ¬f r < 0 := fun neg => none_ ⟨r, mem, inside, neg⟩
        have nonzero : f r ≠ 0 := fun zero_ => cleared ⟨r, mem, inside, zero_⟩
        exact lt_of_le_of_ne (not_lt.mp nonneg) (Ne.symm nonzero)
      rw [null] at this
      exact this.false
    obtain ⟨a, mem_a, inside_a, pos⟩ := gains
    obtain ⟨b, mem_b, inside_b, neg⟩ := loses
    obtain ⟨r', mem', inside'⟩ := pair a mem_a b mem_b pos neg
    exact ⟨r', mem', inside'.trans (Set.union_subset inside_a inside_b)⟩

/-! ## Minimal supports -/

/-- The rows in whose support there is no strictly smaller one. -/
def supportMinimal (rows : Set (ι → K)) : Set (ι → K) :=
  {r | r ∈ rows ∧ ∀ s ∈ rows, ¬support s ⊂ support r}

omit [LinearOrder K] [IsStrictOrderedRing K] in
theorem exists_supportMinimal {rows : Set (ι → K)} {r : ι → K} (mem : r ∈ rows) :
    ∃ s ∈ supportMinimal rows, support s ⊆ support r := by
  induction size : (support r).ncard using Nat.strong_induction_on generalizing r with
  | _ size ih =>
    by_cases smaller : ∃ s ∈ rows, support s ⊂ support r
    · obtain ⟨s, mem_s, inside⟩ := smaller
      obtain ⟨m, minimal, inside'⟩ := ih _ (by
        rw [← size]
        exact Set.ncard_lt_ncard inside (Set.toFinite _)) mem_s rfl
      exact ⟨m, minimal, inside'.trans inside.subset⟩
    · exact ⟨r, ⟨mem, fun s mem_s inside => smaller ⟨s, mem_s, inside⟩⟩, subset_rfl⟩

omit [IsStrictOrderedRing K] in
theorem Generates.supportMinimal {rows : Set (ι → K)} {L : Submodule K (ι → K)} (h : Generates rows L) :
    Generates (supportMinimal rows) L := by
  refine ⟨fun r minimal => h.flow r minimal.1, fun y flow => ?_⟩
  obtain ⟨r, mem, inside⟩ := h.covers y flow
  obtain ⟨s, minimal, inside'⟩ := exists_supportMinimal mem
  exact ⟨s, minimal, inside'.trans inside⟩

/-- The support of a flow that holds the support of no other one but its own. -/
def IsMinimalSupport (L : Submodule K (ι → K)) (S : Set ι) : Prop :=
  (∃ y, IsFlow L y ∧ support y = S) ∧ ∀ y, IsFlow L y → support y ⊆ S → support y = S

omit [IsStrictOrderedRing K] in
/-- The supports of the minimal generators are the minimal supports. -/
theorem Generates.support_iff {rows : Set (ι → K)} {L : Submodule K (ι → K)} (h : Generates rows L)
    (S : Set ι) : (∃ r ∈ LibPetri.Basis.supportMinimal rows, support r = S) ↔ IsMinimalSupport L S := by
  constructor
  · rintro ⟨r, ⟨mem, minimal⟩, rfl⟩
    refine ⟨⟨r, h.flow r mem, rfl⟩, fun y flow inside => ?_⟩
    obtain ⟨s, mem_s, inside_s⟩ := h.covers y flow
    by_contra differs
    exact minimal s mem_s (inside_s.trans_ssubset (lt_of_le_of_ne inside differs))
  · rintro ⟨⟨y, flow, rfl⟩, minimal⟩
    obtain ⟨r, mem, inside⟩ := h.supportMinimal.covers y flow
    exact ⟨r, mem, minimal r (h.flow r mem.1) inside⟩

end LibPetri.Basis

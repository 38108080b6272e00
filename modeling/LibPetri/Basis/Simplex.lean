import Mathlib.Data.Matrix.Mul
import Mathlib.LinearAlgebra.Matrix.DotProduct
import Mathlib.Tactic.Ring
import Mathlib.Tactic.FieldSimp
import Mathlib.Tactic.LinearCombination
import Mathlib.Tactic.Linarith
import Mathlib.Algebra.Order.Field.Basic
import Mathlib.Data.Fintype.Pigeonhole
import Mathlib.Algebra.BigOperators.Field

/-! # The simplex method

Tableaux of a linear program over an ordered field, with one basic column for each row.  Pivoting by the
smallest index never goes on for ever; a tableau without an entering column gives an optimal solution of the
dual program, and one without a leaving row shows that the dual program has none.
-/

set_option linter.unusedSectionVars false

namespace LibPetri.Basis.Simplex

variable {ι κ K : Type} [Field K] [LinearOrder K] [IsStrictOrderedRing K]
variable [Fintype ι] [LinearOrder ι] [Fintype κ] [DecidableEq κ]

/-- The equations `row·x = rhs`, the objective `z + obj·x = value`, and the basic column of each row. -/
structure Tableau (ι κ K : Type) where
  row : κ → ι → K
  rhs : κ → K
  obj : ι → K
  value : K
  basis : κ → ι

namespace Tableau

variable {t t' t₀ : Tableau ι κ K}

/-- The basic columns are unit columns, and the basic solution is feasible. -/
structure Canonical (t : Tableau ι κ K) : Prop where
  unit : ∀ i k, t.row i (t.basis k) = if i = k then 1 else 0
  free : ∀ k, t.obj (t.basis k) = 0
  feasible : ∀ i, 0 ≤ t.rhs i

/-- `e` is the first column that the objective gains by. -/
def Entering (t : Tableau ι κ K) (e : ι) : Prop := t.obj e < 0 ∧ ∀ j < e, 0 ≤ t.obj j

/-- `r` has the least ratio of the rows positive at `e`, and of these the smallest basic column. -/
def Leaving (t : Tableau ι κ K) (e : ι) (r : κ) : Prop :=
  0 < t.row r e ∧ ∀ i, 0 < t.row i e →
    t.rhs r / t.row r e < t.rhs i / t.row i e ∨
      t.rhs r / t.row r e = t.rhs i / t.row i e ∧ t.basis r ≤ t.basis i

/-- Makes `e` the basic column of the row `r`. -/
def pivot (t : Tableau ι κ K) (r : κ) (e : ι) : Tableau ι κ K where
  row i j :=
    if i = r then t.row r j / t.row r e else t.row i j - t.row i e * (t.row r j / t.row r e)
  rhs i := if i = r then t.rhs r / t.row r e else t.rhs i - t.row i e * (t.rhs r / t.row r e)
  obj j := t.obj j - t.obj e * (t.row r j / t.row r e)
  value := t.value - t.obj e * (t.rhs r / t.row r e)
  basis := Function.update t.basis r e

/-- A pivot by the smallest index. -/
def Step (t t' : Tableau ι κ K) : Prop := ∃ e r, t.Entering e ∧ t.Leaving e r ∧ t' = t.pivot r e

/-! ## What pivots keep -/

/-- The solutions with the right-hand side scaled by `c`. -/
def Solves (t : Tableau ι κ K) (c : K) (x : ι → K) : Prop := ∀ i, t.row i ⬝ᵥ x = c * t.rhs i

/-- The objective at `x`, with its constant scaled by `c`. -/
def objective (t : Tableau ι κ K) (c : K) (x : ι → K) : K := c * t.value - t.obj ⬝ᵥ x

/-- Two tableaux of one program: the same solutions, with the same objective at them. -/
def Same (t t' : Tableau ι κ K) : Prop :=
  ∀ c x, (t.Solves c x ↔ t'.Solves c x) ∧ (t.Solves c x → t.objective c x = t'.objective c x)

theorem Same.refl (t : Tableau ι κ K) : t.Same t := fun _ _ => ⟨Iff.rfl, fun _ => rfl⟩

theorem Same.trans {t'' : Tableau ι κ K} (first : t.Same t') (second : t'.Same t'') : t.Same t'' :=
  fun c x => ⟨(first c x).1.trans (second c x).1, fun solves =>
    ((first c x).2 solves).trans ((second c x).2 ((first c x).1.mp solves))⟩

theorem Same.symm (same : t.Same t') : t'.Same t :=
  fun c x => ⟨(same c x).1.symm, fun solves => ((same c x).2 ((same c x).1.mpr solves)).symm⟩

theorem div_dotProduct (a x : ι → K) (d : K) : (fun j => a j / d) ⬝ᵥ x = a ⬝ᵥ x / d := by
  simp only [dotProduct, Finset.sum_div, div_mul_eq_mul_div]

theorem sub_scaled_dotProduct (a b x : ι → K) (f : K) :
    (fun j => a j - f * b j) ⬝ᵥ x = a ⬝ᵥ x - f * (b ⬝ᵥ x) := by
  simp only [dotProduct, sub_mul, Finset.sum_sub_distrib, Finset.mul_sum, mul_assoc]

theorem pivot_row_dotProduct (r : κ) (e : ι) (i : κ) (x : ι → K) :
    (t.pivot r e).row i ⬝ᵥ x =
      if i = r then t.row r ⬝ᵥ x / t.row r e else t.row i ⬝ᵥ x - t.row i e * (t.row r ⬝ᵥ x / t.row r e) := by
  by_cases here : i = r
  · simp only [pivot, here, if_true, div_dotProduct]
  · simp only [pivot, here, if_false, sub_scaled_dotProduct, div_dotProduct]

theorem pivot_obj_dotProduct (r : κ) (e : ι) (x : ι → K) :
    (t.pivot r e).obj ⬝ᵥ x = t.obj ⬝ᵥ x - t.obj e * (t.row r ⬝ᵥ x / t.row r e) := by
  simp only [pivot, sub_scaled_dotProduct, div_dotProduct]

/-- A pivot changes neither the solutions nor the objective at them. -/
theorem same_pivot {r : κ} {e : ι} (entry : t.row r e ≠ 0) : t.Same (t.pivot r e) := by
  intro c x
  constructor
  · constructor
    · intro solves i
      rw [pivot_row_dotProduct, solves r, solves i]
      by_cases here : i = r
      · simp only [here, pivot, if_true, mul_div_assoc]
      · simp only [here, pivot, if_false, mul_div_assoc]
        ring
    · intro solves i
      have pivotRow : t.row r ⬝ᵥ x = c * t.rhs r := by
        have scaled := solves r
        rw [pivot_row_dotProduct] at scaled
        simp only [pivot, if_true] at scaled
        field_simp at scaled
        exact scaled
      by_cases here : i = r
      · exact here ▸ pivotRow
      · have reduced := solves i
        rw [pivot_row_dotProduct, pivotRow] at reduced
        simp only [here, pivot, if_false] at reduced
        linear_combination reduced
  · intro solves
    rw [objective, objective, pivot_obj_dotProduct, solves r]
    simp only [pivot]
    ring

/-! ## Solutions read off a canonical tableau -/

/-- The vector with the given entries at the columns of `b`. -/
def along (b : κ → ι) (w : κ → K) : ι → K := ∑ i, Pi.single (b i) (w i)

theorem dotProduct_along (a : ι → K) (b : κ → ι) (w : κ → K) :
    a ⬝ᵥ along b w = ∑ i, a (b i) * w i := by
  simp only [along, dotProduct_sum, dotProduct_single]

theorem along_nonneg {b : κ → ι} {w : κ → K} (nonneg : ∀ i, 0 ≤ w i) (j : ι) : 0 ≤ along b w j := by
  rw [along, Finset.sum_apply]
  refine Finset.sum_nonneg fun i _ => ?_
  rw [Pi.single_apply]
  split
  · exact nonneg i
  · exact le_rfl

theorem along_of_notMem {b : κ → ι} {w : κ → K} {j : ι} (outside : j ∉ Set.range b) :
    along b w j = 0 := by
  rw [along, Finset.sum_apply]
  exact Finset.sum_eq_zero fun i _ => Pi.single_eq_of_ne (fun same => outside ⟨i, same.symm⟩) _

namespace Canonical

theorem row_along (canonical : t.Canonical) (w : κ → K) (i : κ) :
    t.row i ⬝ᵥ along t.basis w = w i := by
  rw [dotProduct_along]
  simp only [canonical.unit, ite_mul, one_mul, zero_mul, Finset.sum_ite_eq, Finset.mem_univ, if_true]

theorem obj_along (canonical : t.Canonical) (w : κ → K) : t.obj ⬝ᵥ along t.basis w = 0 := by
  simp only [dotProduct_along, canonical.free, zero_mul, Finset.sum_const_zero]

theorem basis_injective (canonical : t.Canonical) : Function.Injective t.basis := by
  intro i k same
  have here := canonical.unit i i
  rw [same, canonical.unit, if_pos rfl] at here
  by_contra apart
  exact zero_ne_one ((if_neg apart).symm.trans here)

theorem along_basis (canonical : t.Canonical) (w : κ → K) (i : κ) :
    along t.basis w (t.basis i) = w i := by
  simp only [along, Finset.sum_apply, Pi.single_apply, canonical.basis_injective.eq_iff,
    Finset.sum_ite_eq, Finset.mem_univ, if_true]

end Canonical

/-- The basic solution. -/
def solution (t : Tableau ι κ K) : ι → K := along t.basis t.rhs

theorem solution_solves (canonical : t.Canonical) : t.Solves 1 t.solution := fun i => by
  rw [solution, canonical.row_along, one_mul]

theorem objective_solution (canonical : t.Canonical) : t.objective 1 t.solution = t.value := by
  rw [objective, solution, canonical.obj_along, one_mul, sub_zero]

/-- The direction in which only `s` and the basic columns change. -/
def ray (t : Tableau ι κ K) (s : ι) : ι → K := Pi.single s 1 - along t.basis fun i => t.row i s

theorem ray_solves (canonical : t.Canonical) (s : ι) : t.Solves 0 (t.ray s) := fun i => by
  rw [ray, dotProduct_sub, dotProduct_single_one, canonical.row_along, sub_self, zero_mul]

theorem objective_ray (canonical : t.Canonical) (s : ι) : t.objective 0 (t.ray s) = -t.obj s := by
  rw [objective, ray, dotProduct_sub, dotProduct_single_one, canonical.obj_along, zero_mul, sub_zero,
    zero_sub]

theorem dotProduct_ray (a : ι → K) (s : ι) :
    a ⬝ᵥ t.ray s = a s - ∑ i, a (t.basis i) * t.row i s := by
  rw [ray, dotProduct_sub, dotProduct_single_one, dotProduct_along]

/-- Two tableaux of one program with one basis have the same basic solution. -/
theorem rhs_eq_of_basis_eq (canonical : t.Canonical) (canonical' : t'.Canonical) (same : t.Same t')
    (basis : t.basis = t'.basis) : t.rhs = t'.rhs := by
  funext i
  have solves := (same 1 t'.solution).1.mpr (solution_solves canonical') i
  rw [solution, ← basis, canonical.row_along, one_mul] at solves
  exact solves.symm

theorem value_eq_of_basis_eq (canonical : t.Canonical) (canonical' : t'.Canonical) (same : t.Same t')
    (basis : t.basis = t'.basis) : t.value = t'.value := by
  have objective := (same 1 t.solution).2 (solution_solves canonical)
  rwa [objective_solution canonical, solution, basis,
    rhs_eq_of_basis_eq canonical canonical' same basis, ← solution, objective_solution canonical']
    at objective

/-! ## What one pivot does -/

section Pivoting

variable {r : κ} {e : ι}

theorem nonbasic_of_entering (canonical : t.Canonical) (entering : t.Entering e) :
    e ∉ Set.range t.basis := by
  rintro ⟨k, rfl⟩
  exact entering.1.ne (canonical.free k)

theorem pivot_canonical (canonical : t.Canonical) (entering : t.Entering e) (leaving : t.Leaving e r) :
    (t.pivot r e).Canonical := by
  have entry : t.row r e ≠ 0 := leaving.1.ne'
  have nonbasic (k : κ) : t.basis k ≠ e := fun same =>
    nonbasic_of_entering canonical entering ⟨k, same⟩
  constructor
  · intro i k
    by_cases here : k = r
    · subst here
      by_cases row : i = k
      · simp [pivot, row, entry]
      · simp [pivot, row, entry]
    · have apart : t.row r (t.basis k) = 0 := (canonical.unit r k).trans (if_neg (Ne.symm here))
      by_cases row : i = r
      · simp [pivot, row, here, apart, Ne.symm here]
      · simp [pivot, row, here, apart, canonical.unit]
  · intro k
    by_cases here : k = r
    · simp [pivot, here, entry]
    · have apart : t.row r (t.basis k) = 0 := (canonical.unit r k).trans (if_neg (Ne.symm here))
      simp [pivot, here, apart, canonical.free]
  · intro i
    have ratio : 0 ≤ t.rhs r / t.row r e := div_nonneg (canonical.feasible r) leaving.1.le
    by_cases row : i = r
    · simpa [pivot, row] using ratio
    · simp only [pivot, row, if_false, sub_nonneg]
      rcases le_or_gt (t.row i e) 0 with down | up
      · exact (mul_nonpos_of_nonpos_of_nonneg down ratio).trans (canonical.feasible i)
      · have least : t.rhs r / t.row r e ≤ t.rhs i / t.row i e := by
          rcases leaving.2 i up with less | ⟨same, _⟩
          · exact less.le
          · exact same.le
        calc t.row i e * (t.rhs r / t.row r e)
            ≤ t.row i e * (t.rhs i / t.row i e) := mul_le_mul_of_nonneg_left least up.le
          _ = t.rhs i := mul_div_cancel₀ _ up.ne'

/-- A pivot does not lower the value, and where it does not raise it the leaving row was zero. -/
theorem value_le_pivot (canonical : t.Canonical) (entering : t.Entering e) (leaving : t.Leaving e r) :
    t.value ≤ (t.pivot r e).value := by
  have gain := mul_nonpos_of_nonpos_of_nonneg entering.1.le
    (div_nonneg (canonical.feasible r) leaving.1.le)
  simp only [pivot]
  linarith

theorem rhs_eq_zero_of_value_eq (entering : t.Entering e) (leaving : t.Leaving e r)
    (same : (t.pivot r e).value = t.value) : t.rhs r = 0 := by
  simp only [pivot, sub_eq_self, mul_eq_zero, div_eq_zero_iff] at same
  rcases same with none | none | none
  · exact absurd none entering.1.ne
  · exact none
  · exact absurd none leaving.1.ne'

theorem pivot_rhs_of_zero (zero : t.rhs r = 0) : (t.pivot r e).rhs = t.rhs := by
  funext i
  by_cases row : i = r
  · simp [pivot, row, zero]
  · simp [pivot, row, zero]

theorem solution_pivot_of_zero (zero : t.rhs r = 0) :
    (t.pivot r e).solution = t.solution := by
  rw [solution, solution, pivot_rhs_of_zero zero]
  refine Finset.sum_congr rfl fun i _ => ?_
  by_cases row : i = r
  · rw [row, zero, Pi.single_zero, Pi.single_zero]
  · simp only [pivot, Function.update_of_ne row]

theorem mem_pivot_basis {j : ι} (basic : j ∈ Set.range (t.pivot r e).basis) :
    j = e ∨ j ∈ Set.range t.basis := by
  obtain ⟨k, rfl⟩ := basic
  by_cases here : k = r
  · left
    simp [pivot, here]
  · right
    exact ⟨k, by simp [pivot, here]⟩

theorem mem_basis_pivot {j : ι} (basic : j ∈ Set.range t.basis) (stays : j ≠ t.basis r) :
    j ∈ Set.range (t.pivot r e).basis := by
  obtain ⟨k, rfl⟩ := basic
  have here : k ≠ r := fun same => stays (same ▸ rfl)
  exact ⟨k, by simp [pivot, here]⟩

theorem Step.canonical (step : t.Step t') (canonical : t.Canonical) : t'.Canonical := by
  obtain ⟨e, r, entering, leaving, rfl⟩ := step
  exact pivot_canonical canonical entering leaving

theorem Step.same (step : t.Step t') : t.Same t' := by
  obtain ⟨e, r, entering, leaving, rfl⟩ := step
  exact same_pivot leaving.1.ne'

theorem entering_mem_pivot : e ∈ Set.range (t.pivot r e).basis := ⟨r, by simp [pivot]⟩

end Pivoting

/-! ## The dual program

The rows are weighted so that no column of the objective gains.  A canonical tableau to start from makes the
weights non-negative: its basic columns are unit columns.
-/

/-- The weights of the rows under which no column gains. -/
def Dual (t₀ : Tableau ι κ K) : Set (κ → K) := {π | ∀ j, 0 ≤ t₀.obj j + ∑ i, π i * t₀.row i j}

def cost (t₀ : Tableau ι κ K) (π : κ → K) : K := t₀.value + ∑ i, π i * t₀.rhs i

/-- The objective row of `t` at the basic columns of `t₀`. -/
def prices (t₀ t : Tableau ι κ K) : κ → K := fun i => t.obj (t₀.basis i)

theorem Dual.nonneg {π : κ → K} (start : t₀.Canonical) (dual : π ∈ t₀.Dual) (i : κ) : 0 ≤ π i := by
  simpa only [start.free, start.unit, zero_add, mul_ite, mul_one, mul_zero, Finset.sum_ite_eq',
    Finset.mem_univ, if_true] using dual (t₀.basis i)

theorem Dual.dotProduct_nonneg {π : κ → K} (dual : π ∈ t₀.Dual) {x : ι → K} (nonneg : ∀ j, 0 ≤ x j) :
    0 ≤ t₀.obj ⬝ᵥ x + ∑ i, π i * (t₀.row i ⬝ᵥ x) := by
  have weighted : t₀.obj ⬝ᵥ x + ∑ i, π i * (t₀.row i ⬝ᵥ x) =
      ∑ j, (t₀.obj j + ∑ i, π i * t₀.row i j) * x j := by
    simp only [dotProduct, Finset.mul_sum, add_mul, Finset.sum_mul, Finset.sum_add_distrib, mul_assoc]
    rw [Finset.sum_comm]
  rw [weighted]
  exact Finset.sum_nonneg fun j _ => mul_nonneg (dual j) (nonneg j)

section Answers

variable (start : t₀.Canonical) (same : t₀.Same t)
include start same

theorem obj_eq_prices (j : ι) : t.obj j = t₀.obj j + ∑ i, prices t₀ t i * t₀.row i j := by
  have agree := (same 0 (t₀.ray j)).2 (ray_solves start j)
  rw [objective_ray start, objective, zero_mul, zero_sub, neg_inj, dotProduct_ray] at agree
  simp only [prices]
  linarith

theorem value_eq_cost : t.value = t₀.cost (prices t₀ t) := by
  have agree := (same 1 t₀.solution).2 (solution_solves start)
  rw [objective_solution start, objective, solution, dotProduct_along, one_mul] at agree
  simp only [cost, prices]
  linarith

/-- Where no column gains, the objective row is an optimal solution of the dual program. -/
theorem prices_optimal (canonical : t.Canonical) (optimal : ∀ j, 0 ≤ t.obj j) :
    prices t₀ t ∈ t₀.Dual ∧ ∀ π ∈ t₀.Dual, t₀.cost (prices t₀ t) ≤ t₀.cost π := by
  constructor
  · intro j
    rw [← obj_eq_prices start same]
    exact optimal j
  · intro π dual
    have agree := same 1 t.solution
    have solves := agree.1.mpr (solution_solves canonical)
    have value := agree.2 solves
    rw [objective_solution canonical, objective, one_mul] at value
    have nonneg (j : ι) : 0 ≤ t.solution j := along_nonneg canonical.feasible j
    have above := Dual.dotProduct_nonneg dual nonneg
    simp only [solves _, one_mul] at above
    rw [← value_eq_cost start same, cost]
    linarith

/-- Where a column gains for ever, the dual program has no solution. -/
theorem dual_eq_empty (canonical : t.Canonical) {e : ι} (gains : t.obj e < 0)
    (unblocked : ∀ i, t.row i e ≤ 0) (π : κ → K) : π ∉ t₀.Dual := by
  intro dual
  have agree := same 0 (t.ray e)
  have solves := agree.1.mpr (ray_solves canonical e)
  have gain := agree.2 solves
  rw [objective_ray canonical, objective, zero_mul, zero_sub, neg_inj] at gain
  have up (j : ι) : 0 ≤ t.ray e j := by
    have down : along t.basis (fun i => t.row i e) j ≤ 0 := by
      rw [along, Finset.sum_apply]
      refine Finset.sum_nonpos fun i _ => ?_
      rw [Pi.single_apply]
      split
      · exact unblocked i
      · exact le_rfl
    have single : (0 : K) ≤ (Pi.single e 1 : ι → K) j := by
      rw [Pi.single_apply]
      split
      · exact zero_le_one
      · exact le_rfl
    rw [ray, Pi.sub_apply]
    linarith
  have above := Dual.dotProduct_nonneg dual up
  simp only [solves _, zero_mul, mul_zero, Finset.sum_const_zero, add_zero] at above
  linarith

end Answers

end Tableau

/-! ## No run goes on for ever -/

open Tableau

/-- Pivots by the smallest index, one after another. -/
structure Infinite (f : ℕ → Tableau ι κ K) (e : ℕ → ι) (r : ℕ → κ) : Prop where
  start : (f 0).Canonical
  entering : ∀ n, (f n).Entering (e n)
  leaving : ∀ n, (f n).Leaving (e n) (r n)
  next : ∀ n, f (n + 1) = (f n).pivot (r n) (e n)

namespace Infinite

variable {f : ℕ → Tableau ι κ K} {e : ℕ → ι} {r : ℕ → κ} (run : Infinite f e r)
include run

theorem canonical (n : ℕ) : (f n).Canonical := by
  induction n with
  | zero => exact run.start
  | succ n ih =>
    rw [run.next n]
    exact pivot_canonical ih (run.entering n) (run.leaving n)

theorem same {a b : ℕ} (le : a ≤ b) : (f a).Same (f b) := by
  induction b, le using Nat.le_induction with
  | base => exact Same.refl _
  | succ n _ ih =>
    rw [run.next n]
    exact ih.trans (same_pivot (run.leaving n).1.ne')

theorem same_any (a b : ℕ) : (f a).Same (f b) :=
  (le_total a b).elim run.same fun le => (run.same le).symm

theorem value_le {a b : ℕ} (le : a ≤ b) : (f a).value ≤ (f b).value := by
  induction b, le using Nat.le_induction with
  | base => exact le_rfl
  | succ n _ ih =>
    rw [run.next n]
    exact ih.trans (value_le_pivot (run.canonical n) (run.entering n) (run.leaving n))

/-- A column basic later entered in between, unless it was basic before. -/
theorem basic_before {p q : ℕ} (le : p ≤ q) {j : ι} (basic : j ∈ Set.range (f q).basis)
    (outside : ∀ n, p ≤ n → n < q → e n ≠ j) : j ∈ Set.range (f p).basis := by
  induction q, le using Nat.le_induction with
  | base => exact basic
  | succ n from_p ih =>
    rw [run.next n] at basic
    rcases mem_pivot_basis basic with rfl | before
    · exact absurd rfl (outside n from_p (Nat.lt_succ_self n))
    · exact ih before fun m low high => outside m low (Nat.lt_succ_of_lt high)

/-- A column basic before left in between, unless it is basic later. -/
theorem basic_after {p q : ℕ} (le : p ≤ q) {j : ι} (basic : j ∈ Set.range (f p).basis)
    (stays : ∀ n, p ≤ n → n < q → j ≠ (f n).basis (r n)) : j ∈ Set.range (f q).basis := by
  induction q, le using Nat.le_induction with
  | base => exact basic
  | succ n from_p ih =>
    rw [run.next n]
    exact mem_basis_pivot (ih fun m low high => stays m low (Nat.lt_succ_of_lt high))
      (stays n from_p (Nat.lt_succ_self n))

section Loop

variable {a b : ℕ} (lt : a < b) (loop : (f a).basis = (f b).basis)
include lt loop

theorem value_eq {n : ℕ} (low : a ≤ n) (high : n ≤ b) : (f n).value = (f a).value := by
  have ends := value_eq_of_basis_eq (run.canonical a) (run.canonical b) (run.same lt.le) loop
  exact le_antisymm (ends ▸ run.value_le high) (run.value_le low)

theorem rhs_eq_zero {n : ℕ} (low : a ≤ n) (high : n < b) : (f n).rhs (r n) = 0 := by
  refine rhs_eq_zero_of_value_eq (run.entering n) (run.leaving n) ?_
  rw [← run.next n, run.value_eq lt loop (Nat.le_succ_of_le low) high, run.value_eq lt loop low high.le]

theorem solution_eq {n : ℕ} (low : a ≤ n) (high : n ≤ b) : (f n).solution = (f a).solution := by
  induction n, low using Nat.le_induction with
  | base => rfl
  | succ n low ih =>
    rw [run.next n, solution_pivot_of_zero (run.rhs_eq_zero lt loop low high)]
    exact ih (Nat.le_of_lt high)

/-- What is basic at one time and not at another enters within the loop. -/
theorem enters {p q : ℕ} (low : a ≤ p) (high : p ≤ b) (low' : a ≤ q) (high' : q ≤ b) {j : ι}
    (basic : j ∈ Set.range (f p).basis) (nonbasic : j ∉ Set.range (f q).basis) :
    ∃ n, a ≤ n ∧ n < b ∧ e n = j := by
  by_contra none
  push Not at none
  have at_a := run.basic_before low basic fun n from_a below => none n from_a (below.trans_le high)
  rw [loop] at at_a
  exact nonbasic (run.basic_before high' at_a fun n from_q below => none n (low'.trans from_q) below)

/-- What enters within the loop leaves within the loop. -/
theorem leaves {l : ℕ} (low : a ≤ l) (high : l < b) : ∃ k, a ≤ k ∧ k < b ∧ (f k).basis (r k) = e l := by
  by_contra none
  push Not at none
  have at_b : e l ∈ Set.range (f b).basis := by
    have entered : e l ∈ Set.range (f (l + 1)).basis := run.next l ▸ entering_mem_pivot
    exact run.basic_after high entered fun n from_l below =>
      (none n (low.trans (Nat.le_of_succ_le from_l)) below).symm
  rw [← loop] at at_b
  exact nonbasic_of_entering (run.canonical l) (run.entering l) <|
    run.basic_after low at_b fun n from_a below => (none n from_a (below.trans high)).symm

/-- The largest column that enters within the loop. -/
theorem exists_largest : ∃ l, a ≤ l ∧ l < b ∧ ∀ n, a ≤ n → n < b → e n ≤ e l := by
  obtain ⟨l, mem, largest⟩ := (Finset.Ico a b).exists_max_image e ⟨a, Finset.left_mem_Ico.mpr lt⟩
  obtain ⟨low, high⟩ := Finset.mem_Ico.mp mem
  exact ⟨l, low, high, fun n from_a below => largest n (Finset.mem_Ico.mpr ⟨from_a, below⟩)⟩

/-- No basis comes back. -/
theorem no_loop : False := by
  obtain ⟨l, l_low, l_high, largest⟩ := run.exists_largest lt loop
  obtain ⟨k, k_low, k_high, left⟩ := run.leaves lt loop l_low l_high
  have canonical := run.canonical k
  -- the largest column leaves for a smaller one
  have smaller : e k < e l := by
    refine (largest k k_low k_high).lt_of_ne fun same => ?_
    refine nonbasic_of_entering canonical (run.entering k) ⟨r k, ?_⟩
    rw [left, same]
  -- the objective rows of both times agree on the direction of the smaller one
  have gain : (f l).obj (e k) - ∑ i, (f l).obj ((f k).basis i) * (f k).row i (e k) < 0 := by
    rw [← dotProduct_ray]
    have agree := (run.same_any k l 0 ((f k).ray (e k))).2 (ray_solves canonical _)
    rw [objective_ray canonical, objective, zero_mul, zero_sub, neg_inj] at agree
    rw [← agree]
    exact (run.entering k).1
  have first := (run.entering l).2
  obtain ⟨i, positive⟩ : ∃ i, 0 < (f l).obj ((f k).basis i) * (f k).row i (e k) := by
    by_contra none
    push Not at none
    have := Finset.sum_nonpos fun i (_ : i ∈ Finset.univ) => none i
    have := first (e k) smaller
    linarith
  -- the basic column of that row is not basic when the largest enters, so it enters as well
  have nonbasic : (f k).basis i ∉ Set.range (f l).basis := by
    rintro ⟨j, same⟩
    rw [← same, (run.canonical l).free, zero_mul] at positive
    exact positive.false
  obtain ⟨n, n_low, n_high, entered⟩ := run.enters lt loop k_low k_high.le l_low l_high.le ⟨i, rfl⟩ nonbasic
  have zero : (f k).rhs i = 0 := by
    have same := congrFun (run.solution_eq lt loop k_low k_high.le) ((f k).basis i)
    rw [← run.solution_eq lt loop l_low l_high.le, solution, canonical.along_basis, solution,
      along_of_notMem nonbasic] at same
    exact same
  have leaving := run.leaving k
  rcases (entered ▸ largest n n_low n_high : (f k).basis i ≤ e l).lt_or_eq with below | same
  · -- it could have left in place of the largest
    have up : 0 < (f k).row i (e k) := (pos_iff_pos_of_mul_pos positive).mp <|
      (first _ below).lt_of_ne fun none => by
        rw [← none, zero_mul] at positive
        exact positive.false
    rcases leaving.2 i up with less | ⟨_, order⟩
    · rw [zero, run.rhs_eq_zero lt loop k_low k_high, zero_div, zero_div] at less
      exact less.false
    · exact (below.trans_le (left ▸ order)).false
  · -- it is the largest, which leaves at a positive entry and enters at a negative one
    obtain rfl : i = r k := canonical.basis_injective (same.trans left.symm)
    rw [same] at positive
    exact (mul_neg_of_neg_of_pos (run.entering l).1 leaving.1).not_gt positive

end Loop

/-- Pivoting by the smallest index comes to an end. -/
theorem absurd_of_infinite : False := by
  obtain ⟨a, b, apart, loop⟩ := Finite.exists_ne_map_eq_of_infinite fun n => (f n).basis
  rcases apart.lt_or_gt with lt | lt
  · exact run.no_loop lt loop
  · exact run.no_loop lt loop.symm

end Infinite

theorem no_infinite_steps {f : ℕ → Tableau ι κ K} (start : (f 0).Canonical) :
    ¬∀ n, (f n).Step (f (n + 1)) := by
  intro steps
  choose e r entering leaving next using steps
  exact Infinite.absurd_of_infinite ⟨start, entering, leaving, next⟩

end LibPetri.Basis.Simplex

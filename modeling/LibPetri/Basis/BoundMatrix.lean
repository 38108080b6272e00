import Mathlib

/-! # Difference bound matrices

Square matrices of upper bounds on the differences of clocks.  A valuation solves a matrix when every
difference keeps its bound.  Tightening a bound through a third clock keeps the solutions.
-/

namespace LibPetri.Basis

/-- An upper bound, `⊤` where there is none. -/
abbrev Bound := WithTop ℚ

/-- A square matrix, stored row by row. -/
structure BoundMatrix where
  dim : Nat
  entries : List Bound
  length_eq : entries.length = dim * dim

namespace BoundMatrix

def get (m : BoundMatrix) (i j : Nat) : Bound := m.entries.getD (i * m.dim + j) ⊤

/-- The matrix with the entries `f i j`. -/
def ofFn (dim : Nat) (f : Nat → Nat → Bound) : BoundMatrix where
  dim := dim
  entries := (List.range (dim * dim)).map fun n => f (n / dim) (n % dim)
  length_eq := by simp

/-- Writes one entry. -/
def set (m : BoundMatrix) (i j : Nat) (b : Bound) : BoundMatrix where
  dim := m.dim
  entries := m.entries.set (i * m.dim + j) b
  length_eq := by rw [List.length_set, m.length_eq]

@[simp] theorem dim_ofFn (dim : Nat) (f : Nat → Nat → Bound) : (ofFn dim f).dim = dim := rfl

@[simp] theorem dim_set (m : BoundMatrix) (i j : Nat) (b : Bound) : (m.set i j b).dim = m.dim := rfl

theorem index_lt {dim i j : Nat} (hi : i < dim) (hj : j < dim) : i * dim + j < dim * dim := by
  calc i * dim + j < i * dim + dim := by omega
    _ = (i + 1) * dim := by ring
    _ ≤ dim * dim := Nat.mul_le_mul_right dim hi

theorem index_inj {dim i j i' j' : Nat} (hj : j < dim) (hj' : j' < dim)
    (same : i * dim + j = i' * dim + j') : i = i' ∧ j = j' := by
  have pos : 0 < dim := by omega
  have div := congrArg (· / dim) same
  have mod := congrArg (· % dim) same
  simp only [Nat.mul_comm _ dim, Nat.mul_add_div pos, Nat.div_eq_of_lt hj, Nat.div_eq_of_lt hj',
    Nat.add_zero] at div
  simp only [Nat.mul_comm _ dim, Nat.mul_add_mod, Nat.mod_eq_of_lt hj, Nat.mod_eq_of_lt hj'] at mod
  exact ⟨div, mod⟩

theorem get_ofFn {dim i j : Nat} (f : Nat → Nat → Bound) (hi : i < dim) (hj : j < dim) :
    (ofFn dim f).get i j = f i j := by
  have pos : 0 < dim := by omega
  have lt := index_lt hi hj
  have div : (i * dim + j) / dim = i := by
    rw [Nat.mul_comm, Nat.mul_add_div pos, Nat.div_eq_of_lt hj, Nat.add_zero]
  have mod : (i * dim + j) % dim = j := by
    rw [Nat.mul_comm, Nat.mul_add_mod, Nat.mod_eq_of_lt hj]
  simp only [get, ofFn, List.getD_eq_getElem?_getD, List.getElem?_map, List.getElem?_range lt,
    Option.map_some, Option.getD_some, div, mod]

theorem get_set {m : BoundMatrix} {i j i' j' : Nat} (b : Bound) (hi : i < m.dim) (hj : j < m.dim)
    (hj' : j' < m.dim) :
    (m.set i j b).get i' j' = if i = i' ∧ j = j' then b else m.get i' j' := by
  have lt : i * m.dim + j < m.entries.length := m.length_eq ▸ index_lt hi hj
  simp only [get, set, List.getD_eq_getElem?_getD, List.getElem?_set]
  by_cases same : i = i' ∧ j = j'
  · obtain ⟨rfl, rfl⟩ := same
    simp [lt]
  · have : i * m.dim + j ≠ i' * m.dim + j' := fun eq => same (index_inj hj hj' eq)
    rw [if_neg this, if_neg same]

/-! ## Solutions -/

section Solutions

variable {R : Type} [Field R] [LinearOrder R]

/-- A difference that keeps an upper bound. -/
def Meets (d : R) (b : Bound) : Prop := ∀ q : ℚ, b = q → d ≤ q

theorem meets_top (d : R) : Meets d ⊤ := fun _ h => by cases h

theorem meets_coe {d : R} {q : ℚ} : Meets d (q : Bound) ↔ d ≤ q :=
  ⟨fun h => h q rfl, fun h _ same => WithTop.coe_inj.mp same ▸ h⟩

theorem meets_zero {d : R} : Meets d 0 ↔ d ≤ 0 := by
  have := meets_coe (d := d) (q := 0)
  rwa [WithTop.coe_zero, Rat.cast_zero] at this

theorem Meets.of_le {d e : R} {b : Bound} (h : Meets d b) (le : e ≤ d) : Meets e b :=
  fun q same => le_trans le (h q same)

theorem Meets.min {d : R} {b c : Bound} (h : Meets d b) (h' : Meets d c) : Meets d (min b c) := by
  rcases min_choice b c with eq | eq <;> rw [eq] <;> assumption

/-- Every difference of two clocks keeps its bound. -/
def Solves (v : Nat → R) (m : BoundMatrix) : Prop :=
  ∀ i < m.dim, ∀ j < m.dim, Meets (v i - v j) (m.get i j)

variable [IsStrictOrderedRing R]

theorem Meets.weaken {d : R} {b b' : Bound} (h : Meets d b) (le : b ≤ b') : Meets d b' := by
  rintro q rfl
  obtain ⟨p, rfl, le⟩ := WithTop.le_coe_iff.mp le
  exact le_trans (meets_coe.mp h) (by exact_mod_cast le)

theorem Meets.add {d e : R} {b c : Bound} (h : Meets d b) (h' : Meets e c) :
    Meets (d + e) (b + c) := by
  intro q same
  obtain ⟨p, r, rfl, rfl, rfl⟩ := WithTop.add_eq_coe.mp same
  push_cast
  exact add_le_add (meets_coe.mp h) (meets_coe.mp h')

end Solutions

/-! ## Shortest paths -/

/-- Tightens the bound from `i` to `j` through `k`. -/
def relax (k i j : Nat) (m : BoundMatrix) : BoundMatrix :=
  let ik := m.get i k
  let kj := m.get k j
  if ik < ⊤ ∧ kj < ⊤ ∧ ik + kj < m.get i j then m.set i j (ik + kj) else m

/-- The indices of a matrix, row by row. -/
def cells (dim : Nat) : List (Nat × Nat) :=
  (List.range dim).flatMap fun i => (List.range dim).map fun j => (i, j)

/-- Tightens every bound through every clock, in place. -/
def tighten (m : BoundMatrix) : BoundMatrix :=
  (List.range m.dim).foldl (fun m k =>
    (cells m.dim).foldl (fun m ij => relax k ij.1 ij.2 m) m) m

@[simp] theorem dim_relax (k i j : Nat) (m : BoundMatrix) : (relax k i j m).dim = m.dim := by
  unfold relax
  dsimp only
  split <;> rfl

theorem mem_cells {dim i j : Nat} : (i, j) ∈ cells dim ↔ i < dim ∧ j < dim := by
  simp [cells]

/-- What tightening one bound through one clock keeps, tightening the matrix keeps. -/
theorem tighten_induction {P : BoundMatrix → Prop} (m : BoundMatrix)
    (keeps : ∀ k < m.dim, ∀ i < m.dim, ∀ j < m.dim, ∀ m' : BoundMatrix, m'.dim = m.dim → P m' →
      P (relax k i j m')) (init : P m) : P m.tighten ∧ m.tighten.dim = m.dim := by
  have pass (k : Nat) (hk : k < m.dim) (ijs : List (Nat × Nat))
      (inside : ∀ ij ∈ ijs, ij.1 < m.dim ∧ ij.2 < m.dim) (m' : BoundMatrix)
      (start : P m' ∧ m'.dim = m.dim) :
      P (ijs.foldl (fun m ij => relax k ij.1 ij.2 m) m') ∧
        (ijs.foldl (fun m ij => relax k ij.1 ij.2 m) m').dim = m.dim := by
    induction ijs generalizing m' with
    | nil => exact start
    | cons ij ijs ih =>
      obtain ⟨hi, hj⟩ := inside ij List.mem_cons_self
      refine ih (fun ij mem => inside ij (List.mem_cons_of_mem _ mem)) _ ⟨?_, ?_⟩
      · exact keeps k hk ij.1 hi ij.2 hj m' start.2 start.1
      · rw [dim_relax, start.2]
  have passes (ks : List Nat) (inside : ∀ k ∈ ks, k < m.dim) (m' : BoundMatrix)
      (start : P m' ∧ m'.dim = m.dim) :
      P (ks.foldl (fun m k => (cells m.dim).foldl (fun m ij => relax k ij.1 ij.2 m) m) m') ∧
        (ks.foldl (fun m k => (cells m.dim).foldl (fun m ij => relax k ij.1 ij.2 m) m) m').dim =
          m.dim := by
    induction ks generalizing m' with
    | nil => exact start
    | cons k ks ih =>
      refine ih (fun k mem => inside k (List.mem_cons_of_mem _ mem)) _ ?_
      refine pass k (inside k List.mem_cons_self) _ (fun ij mem => ?_) m' start
      rw [← start.2]
      exact mem_cells.mp mem
  exact passes _ (fun k mem => List.mem_range.mp mem) m ⟨init, rfl⟩

@[simp] theorem dim_tighten (m : BoundMatrix) : m.tighten.dim = m.dim :=
  (tighten_induction (P := fun _ => True) m (fun _ _ _ _ _ _ _ _ _ => trivial) trivial).2

/-- An entry after tightening one bound. -/
theorem get_relax (k i' : Nat) {i j j' : Nat} {m : BoundMatrix} (hi : i < m.dim) (hj : j < m.dim)
    (hj' : j' < m.dim) :
    (relax k i j m).get i' j' = m.get i' j' ∨
      (i = i' ∧ j = j' ∧ (relax k i j m).get i' j' = m.get i k + m.get k j ∧
        m.get i k + m.get k j < m.get i j) := by
  unfold relax
  dsimp only
  split
  next tighter =>
    rw [get_set _ hi hj hj']
    split
    next same => exact .inr ⟨same.1, same.2, rfl, tighter.2.2⟩
    next => exact .inl rfl
  next => exact .inl rfl

theorem relax_le {k i j i' j' : Nat} {m : BoundMatrix} (hi : i < m.dim) (hj : j < m.dim)
    (hj' : j' < m.dim) : (relax k i j m).get i' j' ≤ m.get i' j' := by
  rcases get_relax k i' hi hj hj' with same | ⟨rfl, rfl, eq, lt⟩
  · exact le_of_eq same
  · exact eq ▸ le_of_lt lt

theorem tighten_le (m : BoundMatrix) {i j : Nat} (hj : j < m.dim) :
    m.tighten.get i j ≤ m.get i j := by
  refine (tighten_induction (P := fun m' => m'.get i j ≤ m.get i j) m ?_ (le_refl _)).1
  intro k _ i' hi' j' hj' m' dim le
  exact le_trans (relax_le (dim ▸ hi') (dim ▸ hj') (dim ▸ hj)) le

section Tightened

variable {R : Type} [Field R] [LinearOrder R] [IsStrictOrderedRing R] {v : Nat → R}

/-- Tightening loses no solution and gains none. -/
theorem solves_tighten {m : BoundMatrix} : Solves v m.tighten ↔ Solves v m := by
  constructor
  · intro h i hi j hj
    have bound := dim_tighten m
    exact (h i (by omega) j (by omega)).weaken (tighten_le m hj)
  · refine fun h => (tighten_induction (P := Solves v) m ?_ h).1
    intro k hk i hi j hj m' dim solves i' hi' j' hj'
    rw [dim_relax] at hi' hj'
    rcases get_relax k i' (dim ▸ hi) (dim ▸ hj) hj' with same | ⟨rfl, rfl, eq, -⟩
    · rw [same]
      exact solves i' hi' j' hj'
    · rw [eq, ← sub_add_sub_cancel (v i) (v k) (v j)]
      exact (solves i hi' k (by omega)).add (solves k (by omega) j hj')

end Tightened

/-- Every finite bound lies in a subgroup. -/
def Bounds (G : AddSubgroup ℚ) (m : BoundMatrix) : Prop :=
  ∀ i < m.dim, ∀ j < m.dim, ∀ q : ℚ, m.get i j = q → q ∈ G

theorem bounds_tighten {G : AddSubgroup ℚ} {m : BoundMatrix} (h : Bounds G m) :
    Bounds G m.tighten := by
  refine (tighten_induction (P := Bounds G) m ?_ h).1
  intro k hk i hi j hj m' dim bounds i' hi' j' hj' q found
  rw [dim_relax] at hi' hj'
  rcases get_relax k i' (dim ▸ hi) (dim ▸ hj) hj' with same | ⟨rfl, rfl, eq, -⟩
  · exact bounds i' hi' j' hj' q (same ▸ found)
  · obtain ⟨a, b, ha, hb, rfl⟩ := WithTop.add_eq_coe.mp (eq ▸ found)
    exact G.add_mem (bounds i hi' k (by omega) a ha.symm) (bounds k (by omega) j hj' b hb.symm)

end BoundMatrix

end LibPetri.Basis

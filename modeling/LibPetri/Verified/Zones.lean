import LibPetri.Verification.Dbm

/-! # What firing domains contain

The operations on firing domains lose no valuation: a valuation of the clocks that a domain contains is
carried by every operation to one that its result contains.
-/

namespace LibPetri.Verified

open LibPetri.Basis LibPetri.Verification

variable {R : Type} [Field R] [LinearOrder R]

/-- The reference clock reads 0. -/
def valuation (θ : Nat → R) : Nat → R
  | 0 => 0
  | k + 1 => θ k

/-- A domain is not empty and contains a valuation of its clocks. -/
structure Contains (d : DBM) (θ : Nat → R) : Prop where
  nonempty : d.isEmpty = false
  dim : d.bounds.dim = d.clockNames.length + 1
  solves : BoundMatrix.Solves (valuation θ) d.bounds

/-- Only the readings of the clocks matter. -/
theorem Contains.congr {d : DBM} {θ θ' : Nat → R} (h : Contains d θ)
    (same : ∀ k < d.clockNames.length, θ k = θ' k) : Contains d θ' := by
  have dim := h.dim
  have reads (i : Nat) (hi : i < d.bounds.dim) : valuation θ i = valuation θ' i := by
    cases i with
    | zero => rfl
    | succ k => exact same k (by omega)
  refine ⟨h.nonempty, h.dim, fun i hi j hj => ?_⟩
  rw [← reads i hi, ← reads j hj]
  exact h.solves i hi j hj

/-- A clock that starts reads a time of its interval. -/
def Clock.Admits (c : Clock) (x : R) : Prop := (c.lower : R) ≤ x ∧ BoundMatrix.Meets x c.upper

variable [IsStrictOrderedRing R] {θ θ' : Nat → R}

open BoundMatrix

theorem canonicalizeInPlace_of_solves {v : Nat → R} {m : BoundMatrix} (h : Solves v m) :
    DBM.canonicalizeInPlace m = some m.tighten := by
  unfold DBM.canonicalizeInPlace
  dsimp only
  rw [if_neg]
  simp only [List.any_eq_true, List.mem_range, decide_eq_true_eq, not_exists, not_and, not_lt]
  intro i hi
  have diagonal := solves_tighten.mpr h i hi i hi
  rw [sub_self] at diagonal
  cases found : m.tighten.get i i with
  | none => exact le_top
  | some q =>
    have : (0 : R) ≤ (q : R) := diagonal q found
    have : (0 : ℚ) ≤ q := by exact_mod_cast this
    refine WithTop.coe_le_coe.mpr (le_trans ?_ this)
    norm_num [EPSILON]

theorem canonicalize_contains {m : BoundMatrix} {names : List String}
    (dim : m.dim = names.length + 1) (h : Solves (valuation θ) m) :
    Contains (DBM.canonicalize m names) θ := by
  unfold DBM.canonicalize
  rw [canonicalizeInPlace_of_solves h]
  exact ⟨rfl, by simpa using dim, solves_tighten.mpr h⟩

theorem initialBounds_solves {clocks : List Clock}
    (admits : ∀ (k : Nat) c, clocks[k]? = some c → Clock.Admits c (θ k)) :
    Solves (valuation θ) (DBM.initialBounds clocks) := by
  intro i hi j hj
  simp only [DBM.initialBounds, dim_ofFn] at hi hj
  rw [DBM.initialBounds, get_ofFn _ hi hj]
  cases i with
  | zero =>
    cases j with
    | zero => simp [meets_zero]
    | succ k =>
      obtain ⟨lower, -⟩ := admits k _ (List.getElem?_eq_getElem (by omega))
      simp only [List.getElem?_eq_getElem (show k < clocks.length by omega), Option.map_some,
        Option.getD_some, valuation]
      rw [meets_coe]
      push_cast
      linarith
  | succ i =>
    cases j with
    | zero =>
      obtain ⟨-, upper⟩ := admits i _ (List.getElem?_eq_getElem (by omega))
      simp only [List.getElem?_eq_getElem (show i < clocks.length by omega), Option.map_some,
        Option.getD_some, valuation]
      rwa [sub_zero]
    | succ j =>
      simp only
      split
      next same =>
        subst same
        simp [meets_zero]
      next => exact meets_top _

theorem create_contains {clocks : List Clock}
    (admits : ∀ (k : Nat) c, clocks[k]? = some c → Clock.Admits c (θ k)) :
    Contains (DBM.create clocks) θ :=
  canonicalize_contains (by simp [DBM.initialBounds]) (initialBounds_solves admits)

theorem constrain_solves {d : DBM} (h : Contains d θ) {f : Nat}
    (first : ∀ k < d.clockNames.length, θ f ≤ θ k) :
    Solves (valuation θ) (DBM.constrain d.bounds f) := by
  have dim := h.dim
  intro i hi j hj
  simp only [DBM.constrain, dim_ofFn] at hi hj
  rw [DBM.constrain, get_ofFn _ hi hj]
  have old := h.solves i hi j hj
  split
  next ours =>
    obtain ⟨rfl, nonzero, -⟩ := ours
    cases j with
    | zero => exact absurd rfl nonzero
    | succ k =>
      refine old.min (meets_zero.mpr ?_)
      simpa [valuation] using first k (by omega)
  next => exact old

/-- What the persistent clocks and the new ones read behind a firing. -/
structure RunsOut (d : DBM) (f : Nat) (newClocks : List Clock) (persistent : List Nat)
    (θ θ' : Nat → R) : Prop where
  bound : f < d.clockNames.length
  first : ∀ k < d.clockNames.length, θ f ≤ θ k
  persists : ∀ (p k : Nat), persistent[p]? = some k → k < d.clockNames.length ∧ θ' p = θ k - θ f
  starts : ∀ (k : Nat) c, newClocks[k]? = some c → Clock.Admits c (θ' (persistent.length + k))

theorem reindex_succ {ks : List Nat} {p k : Nat} (at_ : ks[p]? = some k) :
    DBM.reindex ks (p + 1) = k + 1 := by
  simp [DBM.reindex, List.getD_eq_getElem?_getD, at_]

theorem successorBounds_solves {d : DBM} {f : Nat} {newClocks : List Clock} {persistent : List Nat}
    (fires : RunsOut d f newClocks persistent θ θ') {constrained : BoundMatrix}
    (dim : constrained.dim = d.clockNames.length + 1) (h : Solves (valuation θ) constrained) :
    Solves (valuation θ') (DBM.successorBounds constrained f newClocks persistent) := by
  have bound := fires.bound
  intro i hi j hj
  simp only [DBM.successorBounds, dim_ofFn] at hi hj
  rw [DBM.successorBounds, get_ofFn _ hi hj]
  cases i with
  | zero =>
    cases j with
    | zero => simp [meets_zero]
    | succ k =>
      dsimp only
      split
      next old =>
        have at_ := List.getElem?_eq_getElem old
        obtain ⟨lt, reads⟩ := fires.persists k _ at_
        rw [reindex_succ at_]
        have later := fires.first _ lt
        have solved := h (f + 1) (by omega) (persistent[k] + 1) (by omega)
        simp only [valuation, zero_sub] at solved ⊢
        refine (meets_zero.mpr ?_).min ?_
        · linarith
        · rwa [reads, neg_sub]
      next new =>
        have lt : k - persistent.length < newClocks.length := by omega
        obtain ⟨lower, -⟩ := fires.starts _ _ (List.getElem?_eq_getElem lt)
        rw [List.getElem?_eq_getElem lt]
        simp only [Option.map_some, Option.getD_some, valuation]
        rw [meets_coe]
        rw [Nat.add_sub_cancel' (Nat.le_of_not_lt new)] at lower
        push_cast
        linarith
  | succ i =>
    cases j with
    | zero =>
      dsimp only
      split
      next old =>
        have at_ := List.getElem?_eq_getElem old
        obtain ⟨lt, reads⟩ := fires.persists i _ at_
        rw [reindex_succ at_]
        have solved := h (persistent[i] + 1) (by omega) (f + 1) (by omega)
        simp only [valuation, sub_zero] at solved ⊢
        rwa [reads]
      next new =>
        have lt : i - persistent.length < newClocks.length := by omega
        obtain ⟨-, upper⟩ := fires.starts _ _ (List.getElem?_eq_getElem lt)
        rw [List.getElem?_eq_getElem lt]
        simp only [Option.map_some, Option.getD_some, valuation]
        rw [Nat.add_sub_cancel' (Nat.le_of_not_lt new)] at upper
        rwa [sub_zero]
    | succ j =>
      dsimp only
      split
      next old =>
        have at_ := List.getElem?_eq_getElem old.1
        have at' := List.getElem?_eq_getElem old.2
        obtain ⟨lt, reads⟩ := fires.persists i _ at_
        obtain ⟨lt', reads'⟩ := fires.persists j _ at'
        rw [reindex_succ at_, reindex_succ at']
        have solved := h (persistent[i] + 1) (by omega) (persistent[j] + 1) (by omega)
        simp only [valuation] at solved ⊢
        rwa [reads, reads', sub_sub_sub_cancel_right]
      next =>
        split
        next same =>
          subst same
          simp [meets_zero]
        next => exact meets_top _

/-- Firing the clock that runs out first. -/
theorem fireTransition_contains {d : DBM} (h : Contains d θ) {f : Nat} {newClocks : List Clock}
    {persistent : List Nat} (fires : RunsOut d f newClocks persistent θ θ') :
    Contains (d.fireTransition f newClocks persistent) θ' := by
  have constrained := constrain_solves h fires.first
  unfold DBM.fireTransition
  rw [h.nonempty, if_neg Bool.false_ne_true, canonicalizeInPlace_of_solves constrained]
  refine canonicalize_contains (by simp [DBM.successorBounds]) ?_
  refine successorBounds_solves fires ?_ (solves_tighten.mpr constrained)
  simpa [DBM.constrain] using h.dim

omit [IsStrictOrderedRing R] in
theorem permuted_contains {d : DBM} (h : Contains d θ) {order : List Nat}
    (length : order.length = d.clockNames.length)
    (reads : ∀ (i k : Nat), order[i]? = some k → k < d.clockNames.length ∧ θ' i = θ k) :
    Contains (d.permuted order) θ' := by
  have dim := h.dim
  unfold DBM.permuted
  rw [h.nonempty, if_neg Bool.false_ne_true]
  have index (i : Nat) (hi : i < d.bounds.dim) :
      DBM.reindex order i < d.bounds.dim ∧ valuation θ' i = valuation θ (DBM.reindex order i) := by
    cases i with
    | zero => exact ⟨by simp only [DBM.reindex]; omega, rfl⟩
    | succ i =>
      have at_ := List.getElem?_eq_getElem (show i < order.length by omega)
      obtain ⟨lt, eq⟩ := reads i _ at_
      rw [reindex_succ at_]
      exact ⟨by omega, eq⟩
  refine ⟨rfl, by simpa [length] using dim, fun i hi j hj => ?_⟩
  simp only [dim_ofFn] at hi hj
  rw [get_ofFn _ hi hj, (index i hi).2, (index j hj).2]
  exact h.solves _ (index i hi).1 _ (index j hj).1

/-- Time can pass until the first clock runs out. -/
theorem letTimePass_contains {d : DBM} (h : Contains d θ) {δ : R} (past : 0 ≤ δ)
    (room : ∀ k < d.clockNames.length, δ ≤ θ k) : Contains d.letTimePass fun k => θ k - δ := by
  have dim := h.dim
  unfold DBM.letTimePass
  rw [h.nonempty, if_neg Bool.false_ne_true]
  refine canonicalize_contains (by simpa using dim) fun i hi j hj => ?_
  simp only [dim_ofFn] at hi hj
  rw [get_ofFn _ hi hj]
  have old := h.solves i hi j hj
  cases i with
  | zero =>
    cases j with
    | zero => simpa using old
    | succ k =>
      have := room k (by omega)
      simp only [true_and, ne_eq, Nat.add_eq_zero_iff, one_ne_zero, and_false, not_false_eq_true,
        ↓reduceIte, valuation, zero_sub]
      rw [meets_zero]
      linarith
  | succ i =>
    rw [if_neg (by simp)]
    cases j with
    | zero =>
      simp only [valuation, sub_zero] at old ⊢
      exact old.of_le (by linarith)
    | succ j =>
      simp only [valuation] at old ⊢
      rwa [sub_sub_sub_cancel_right]

end LibPetri.Verified

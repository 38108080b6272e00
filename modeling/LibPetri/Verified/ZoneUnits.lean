import LibPetri.Verified.ZoneSuccessors

/-! # Domains in units

The operations on firing domains only add bounds up, so that bounds that are whole multiples of a unit
stay such.  Where the unit is above `EPSILON` no contradiction passes unnoticed.
-/

namespace LibPetri.Verified

open LibPetri.Basis LibPetri.Verification BoundMatrix

variable {G : AddSubgroup ℚ}

/-- The interval of a clock ends at multiples of the unit. -/
structure Clock.InUnits (G : AddSubgroup ℚ) (c : Clock) : Prop where
  lower : c.lower ∈ G
  upper : ∀ q : ℚ, c.upper = q → q ∈ G

/-- The bounds of a domain are multiples of the unit. -/
def InUnits (G : AddSubgroup ℚ) (d : DBM) : Prop := d.isEmpty = false → Bounds G d.bounds

theorem zero_of_coe {q : ℚ} (same : (0 : Bound) = q) : q ∈ G := by
  have : (0 : ℚ) = q := WithTop.coe_inj.mp same
  exact this ▸ G.zero_mem

theorem min_of_coe {b c : Bound} (left : ∀ q : ℚ, b = q → q ∈ G) (right : ∀ q : ℚ, c = q → q ∈ G)
    {q : ℚ} (same : min b c = q) : q ∈ G := by
  rcases min_choice b c with eq | eq
  · exact left q (eq ▸ same)
  · exact right q (eq ▸ same)

theorem canonicalize_inUnits {m : BoundMatrix} {names : List String} (h : Bounds G m) :
    InUnits G (DBM.canonicalize m names) := by
  unfold InUnits DBM.canonicalize
  cases found : DBM.canonicalizeInPlace m with
  | none => exact fun nonempty => by cases nonempty
  | some canon =>
    intro _
    unfold DBM.canonicalizeInPlace at found
    dsimp only at found
    split at found
    · cases found
    · exact Option.some.inj found ▸ bounds_tighten h

theorem create_inUnits {clocks : List Clock} (units : ∀ c ∈ clocks, Clock.InUnits G c) :
    InUnits G (DBM.create clocks) := by
  refine canonicalize_inUnits fun i hi j hj q found => ?_
  rw [DBM.initialBounds, dim_ofFn] at hi hj
  rw [DBM.initialBounds, get_ofFn _ hi hj] at found
  cases i with
  | zero =>
    cases j with
    | zero => exact zero_of_coe found
    | succ k =>
      simp only [List.getElem?_eq_getElem (show k < clocks.length by omega), Option.map_some,
        Option.getD_some] at found
      exact WithTop.coe_inj.mp found ▸ G.neg_mem (units _ (List.getElem_mem _)).lower
  | succ i =>
    cases j with
    | zero =>
      simp only [List.getElem?_eq_getElem (show i < clocks.length by omega), Option.map_some,
        Option.getD_some] at found
      exact (units _ (List.getElem_mem _)).upper q found
    | succ j =>
      simp only at found
      split at found
      · exact zero_of_coe found
      · cases found

theorem constrain_bounds {m : BoundMatrix} (h : Bounds G m) (f : Nat) :
    Bounds G (DBM.constrain m f) := by
  intro i hi j hj q found
  rw [DBM.constrain, dim_ofFn] at hi hj
  rw [DBM.constrain, get_ofFn _ hi hj] at found
  split at found
  · exact min_of_coe (h i hi j hj) (fun _ => zero_of_coe) found
  · exact h i hi j hj q found

theorem successorBounds_bounds {c : BoundMatrix} (h : Bounds G c) {f n : Nat} (dim : c.dim = n + 1)
    (bound : f < n) {newClocks : List Clock} (units : ∀ c ∈ newClocks, Clock.InUnits G c)
    {persistent : List Nat} (inside : ∀ k ∈ persistent, k < n) :
    Bounds G (DBM.successorBounds c f newClocks persistent) := by
  have old {p : Nat} (lt : p < persistent.length) : DBM.reindex persistent (p + 1) < c.dim := by
    have := oldIndex_lt (a := p + 1) bound inside lt
    rwa [dim]
  intro i hi j hj q found
  rw [DBM.successorBounds, dim_ofFn] at hi hj
  rw [DBM.successorBounds, get_ofFn _ hi hj] at found
  cases i with
  | zero =>
    cases j with
    | zero => exact zero_of_coe found
    | succ k =>
      dsimp only at found
      split at found
      next lt => exact min_of_coe (fun _ => zero_of_coe) (h _ (by omega) _ (old lt)) found
      next =>
        have at_ := List.getElem?_eq_getElem (show k - persistent.length < newClocks.length by omega)
        rw [at_, Option.map_some, Option.getD_some] at found
        exact WithTop.coe_inj.mp found ▸ G.neg_mem (units _ (List.getElem_mem _)).lower
  | succ i =>
    cases j with
    | zero =>
      dsimp only at found
      split at found
      next lt => exact h _ (old lt) _ (by omega) q found
      next =>
        have at_ := List.getElem?_eq_getElem (show i - persistent.length < newClocks.length by omega)
        rw [at_, Option.map_some, Option.getD_some] at found
        exact (units _ (List.getElem_mem _)).upper q found
    | succ j =>
      dsimp only at found
      split at found
      next both => exact h _ (old both.1) _ (old both.2) q found
      next =>
        split at found
        · exact zero_of_coe found
        · cases found

theorem fireTransition_inUnits {d : DBM} (h : Bounds G d.bounds) {f : Nat}
    (dim : d.bounds.dim = d.clockNames.length + 1) (bound : f < d.clockNames.length)
    {newClocks : List Clock} (units : ∀ c ∈ newClocks, Clock.InUnits G c)
    {persistent : List Nat} (inside : ∀ k ∈ persistent, k < d.clockNames.length)
    (nonempty : d.isEmpty = false) : InUnits G (d.fireTransition f newClocks persistent) := by
  unfold DBM.fireTransition
  rw [nonempty, if_neg Bool.false_ne_true]
  cases found : DBM.canonicalizeInPlace (DBM.constrain d.bounds f) with
  | none => exact fun flag => by cases flag
  | some constrained =>
    unfold DBM.canonicalizeInPlace at found
    dsimp only at found
    split at found
    · cases found
    · obtain rfl := Option.some.inj found
      refine canonicalize_inUnits (successorBounds_bounds (bounds_tighten (constrain_bounds h f)) ?_
        bound units inside)
      simpa [DBM.constrain] using dim

theorem permuted_inUnits {d : DBM} (h : InUnits G d) (dim : d.bounds.dim = d.clockNames.length + 1)
    {order : List Nat} (length : order.length = d.clockNames.length)
    (inside : ∀ k ∈ order, k < d.clockNames.length) : InUnits G (d.permuted order) := by
  have index (i : Nat) (hi : i < d.bounds.dim) : DBM.reindex order i < d.bounds.dim := by
    cases i with
    | zero => exact dim ▸ Nat.succ_pos _
    | succ i =>
      have at_ := List.getElem?_eq_getElem (show i < order.length by omega)
      rw [reindex_succ at_, dim]
      exact Nat.succ_lt_succ (inside _ (List.getElem_mem _))
  unfold InUnits DBM.permuted
  cases already : d.isEmpty with
  | true => simp [already]
  | false =>
    intro _ i hi j hj q found
    rw [if_neg Bool.false_ne_true] at hi hj found
    simp only [dim_ofFn] at hi hj
    rw [get_ofFn _ hi hj] at found
    exact h already _ (index i hi) _ (index j hj) q found

theorem letTimePass_inUnits {d : DBM} (h : InUnits G d) : InUnits G d.letTimePass := by
  unfold DBM.letTimePass
  cases already : d.isEmpty with
  | true => simpa [already] using h
  | false =>
    rw [if_neg Bool.false_ne_true]
    refine canonicalize_inUnits fun i hi j hj q found => ?_
    simp only [dim_ofFn] at hi hj
    rw [get_ofFn _ hi hj] at found
    split at found
    · exact zero_of_coe found
    · exact h already i hi j hj q found

/-! ## Contradictions -/

/-- Every negative multiple of the unit is below `-EPSILON`. -/
def AboveEpsilon (G : AddSubgroup ℚ) : Prop := ∀ q ∈ G, q < 0 → q < -EPSILON

/-- A domain in units above `EPSILON` that is not flagged empty behind a firing has readings in which the
fired clock runs out first. -/
theorem exists_first_of_fireTransition {d : DBM} (h : Canonical d) (units : Bounds G d.bounds)
    (above : AboveEpsilon G) {f : Nat} (bound : f < d.clockNames.length) {newClocks : List Clock}
    {persistent : List Nat} (nonempty : (d.fireTransition f newClocks persistent).isEmpty = false) :
    ∃ θ : Nat → ℚ, Contains d θ ∧ ∀ k < d.clockNames.length, θ f ≤ θ k := by
  have dim := h.dim
  refine h.exists_contains_first bound fun k lt => ?_
  by_contra before
  rw [not_le] at before
  obtain ⟨q, found⟩ := WithTop.ne_top_iff_exists.mp (lt_of_lt_of_le before le_top).ne
  have negative : q < 0 := WithTop.coe_lt_coe.mp (found ▸ before)
  have below := above q (units _ (by omega) _ (by omega) q found.symm) negative
  have := fireTransition_isEmpty_of_precedes newClocks persistent h bound lt
    (found ▸ WithTop.coe_lt_coe.mpr below)
  rw [nonempty] at this
  cases this

end LibPetri.Verified

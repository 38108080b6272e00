import LibPetri.Basis.ClosedMatrix
import LibPetri.Verified.Zones

/-! # What firing domains say exactly

Of a canonical domain the operations keep every valuation, and invent none: behind a firing the domain
contains what the clocks can read when the fired one runs out first, and behind the passing of time what
they can read some time later.
-/

namespace LibPetri.Verified

open LibPetri.Basis LibPetri.Verification BoundMatrix

variable {R : Type} [Field R] [LinearOrder R] [IsStrictOrderedRing R] {θ θ' : Nat → R}

/-- A domain that is not empty, with the tightest bounds. -/
structure Canonical (d : DBM) : Prop where
  nonempty : d.isEmpty = false
  dim : d.bounds.dim = d.clockNames.length + 1
  closed : BoundMatrix.Closed d.bounds

omit [IsStrictOrderedRing R] in
/-- Only the differences of the clocks matter. -/
theorem solves_shift {m : BoundMatrix} {w : Nat → R} (h : Solves w m) :
    Solves (valuation fun k => w (k + 1) - w 0) m := by
  have reads (i : Nat) : valuation (fun k => w (k + 1) - w 0) i = w i - w 0 := by
    cases i with
    | zero => simp [valuation]
    | succ k => rfl
  intro i hi j hj
  rw [reads, reads, sub_sub_sub_cancel_right]
  exact h i hi j hj

omit [IsStrictOrderedRing R] in
theorem Canonical.contains_iff {d : DBM} (h : Canonical d) :
    Contains d θ ↔ Solves (valuation θ) d.bounds :=
  ⟨fun c => c.solves, fun solves => ⟨h.nonempty, h.dim, solves⟩⟩

theorem Canonical.exists_contains {d : DBM} (h : Canonical d) : ∃ θ : Nat → R, Contains d θ := by
  obtain ⟨w, solves⟩ := h.closed.exists_solution (R := R)
  exact ⟨_, h.contains_iff.mpr (solves_shift solves)⟩

/-- Where no clock has to run out before clock `f`, some reading has it run out first. -/
theorem Canonical.exists_contains_first {d : DBM} (h : Canonical d) {f : Nat}
    (bound : f < d.clockNames.length)
    (leads : ∀ k < d.clockNames.length, 0 ≤ d.bounds.get (k + 1) (f + 1)) :
    ∃ θ : Nat → R, Contains d θ ∧ ∀ k < d.clockNames.length, θ f ≤ θ k := by
  have dim := h.dim
  have clock {i : Nat} (mem : i ∈ Finset.Ico 1 (d.clockNames.length + 1)) :
      ∃ k < d.clockNames.length, i = k + 1 := by
    rw [Finset.mem_Ico] at mem
    exact ⟨i - 1, by omega, by omega⟩
  obtain ⟨w, solves, first⟩ : ∃ w : Nat → R, Solves w d.bounds ∧
      ∀ i ∈ Finset.Ico 1 (d.clockNames.length + 1), w (f + 1) ≤ w i := h.closed.exists_first (by omega)
    (fun i mem => by obtain ⟨k, lt, rfl⟩ := clock mem; omega)
    (fun i mem => by obtain ⟨k, lt, rfl⟩ := clock mem; exact leads k lt)
  refine ⟨_, h.contains_iff.mpr (solves_shift solves), fun k lt => ?_⟩
  exact sub_le_sub_right (first (k + 1) (Finset.mem_Ico.mpr ⟨by omega, by omega⟩)) _

/-- Canonical domains of the same valuations have the same bounds. -/
theorem Canonical.bounds_eq {d e : DBM} (h : Canonical d) (h' : Canonical e)
    (names : d.clockNames.length = e.clockNames.length)
    (same : ∀ θ : Nat → ℚ, Contains d θ ↔ Contains e θ) : d.bounds = e.bounds := by
  have dim : e.bounds.dim = d.bounds.dim := by rw [h.dim, h'.dim, names]
  have solves (w : Nat → ℚ) : Solves w d.bounds ↔ Solves w e.bounds := by
    have shifted {m : BoundMatrix} :
        Solves (valuation fun k => w (k + 1) - w 0) m ↔ Solves w m := by
      refine ⟨fun solves i hi j hj => ?_, solves_shift⟩
      have reads (i : Nat) : valuation (fun k => w (k + 1) - w 0) i = w i - w 0 := by
        cases i with
        | zero => simp [valuation]
        | succ k => rfl
      have := solves i hi j hj
      rwa [reads, reads, sub_sub_sub_cancel_right] at this
    rw [← shifted, ← h.contains_iff, same, h'.contains_iff, shifted]
  exact ext_get dim.symm fun i hi j hj => h.closed.get_eq h'.closed dim solves hi hj

/-! ## The operations -/

/-- The canonical form of a consistent matrix. -/
theorem canonicalize_exact {m : BoundMatrix} (names : List String) (dim : m.dim = names.length + 1)
    (zero : ∀ i < m.dim, m.get i i = 0) {θ₀ : Nat → R} (h : Solves (valuation θ₀) m) :
    Canonical (DBM.canonicalize m names) ∧ (DBM.canonicalize m names).clockNames = names ∧
      (DBM.canonicalize m names).bounds = m.tighten := by
  unfold DBM.canonicalize
  rw [canonicalizeInPlace_of_solves h]
  exact ⟨⟨rfl, by simpa using dim, tighten_closed zero h⟩, rfl, rfl⟩

theorem constrain_zero {m : BoundMatrix} (zero : ∀ i < m.dim, m.get i i = 0) (f : Nat) :
    ∀ i < (DBM.constrain m f).dim, (DBM.constrain m f).get i i = 0 := by
  intro i hi
  rw [DBM.constrain, dim_ofFn] at hi
  rw [DBM.constrain, get_ofFn _ hi hi, if_neg (fun h => h.2.2 h.1)]
  exact zero i hi

/-- The constrained bounds say that the clock runs out first. -/
theorem constrain_solves_iff {d : DBM} (h : Canonical d) {f : Nat} (bound : f < d.clockNames.length) :
    Solves (valuation θ) (DBM.constrain d.bounds f) ↔
      Contains d θ ∧ ∀ k < d.clockNames.length, θ f ≤ θ k := by
  have dim := h.dim
  refine ⟨fun solves => ?_, fun both => constrain_solves both.1 both.2⟩
  have get {i j : Nat} (hi : i < d.bounds.dim) (hj : j < d.bounds.dim) := solves i hi j hj
  refine ⟨h.contains_iff.mpr fun i hi j hj => ?_, fun k lt => ?_⟩
  · refine (get hi hj).weaken ?_
    rw [DBM.constrain, get_ofFn _ hi hj]
    split
    · exact min_le_left _ _
    · exact le_refl _
  · by_cases same : k = f
    · rw [same]
    · have : Meets (valuation θ (f + 1) - valuation θ (k + 1)) 0 := (get (by omega) (by omega)).weaken (by
        rw [DBM.constrain, get_ofFn _ (by omega) (by omega), if_pos ⟨rfl, by omega, by omega⟩]
        exact min_le_right _ _)
      exact sub_nonpos.mp (meets_zero.mp this)

/-! ## Firing -/

/-- An interval that is not empty and does not begin in the past. -/
structure Clock.Proper (c : Clock) : Prop where
  lower_nonneg : 0 ≤ c.lower
  le : (c.lower : Bound) ≤ c.upper

theorem Clock.Proper.admits_lower {c : Clock} (h : Clock.Proper c) : Clock.Admits c (c.lower : R) := by
  refine ⟨le_refl _, fun q same => ?_⟩
  have := h.le
  rw [same] at this
  exact_mod_cast WithTop.coe_le_coe.mp this

section Firing

variable {d : DBM} {f : Nat} {newClocks : List Clock} {persistent : List Nat}

/-- The old clock that the readings behind a firing are relative to, or that persists as clock `a`. -/
def oldIndex (f : Nat) (persistent : List Nat) : Nat → Nat
  | 0 => f + 1
  | p + 1 => DBM.reindex persistent (p + 1)

theorem oldIndex_lt {n : Nat} (bound : f < n) (inside : ∀ k ∈ persistent, k < n) {a : Nat}
    (ha : a ≤ persistent.length) : oldIndex f persistent a < n + 1 := by
  cases a with
  | zero => exact Nat.succ_lt_succ bound
  | succ p =>
    have at_ := List.getElem?_eq_getElem (show p < persistent.length by omega)
    rw [oldIndex, reindex_succ at_]
    exact Nat.succ_lt_succ (inside _ (List.getElem_mem _))

/-- Between the clocks that persist and the reference clock the bounds behind a firing are at most those of
the old clocks. -/
theorem successorBounds_le {c : BoundMatrix} (diagonal : c.get (f + 1) (f + 1) = 0) {a b : Nat}
    (ha : a ≤ persistent.length) (hb : b ≤ persistent.length) :
    (DBM.successorBounds c f newClocks persistent).get a b ≤
      c.get (oldIndex f persistent a) (oldIndex f persistent b) := by
  rw [DBM.successorBounds, get_ofFn _ (by omega) (by omega)]
  cases a with
  | zero =>
    cases b with
    | zero => exact le_of_eq diagonal.symm
    | succ q =>
      dsimp only
      rw [if_pos (by omega)]
      exact min_le_right _ _
  | succ p =>
    cases b with
    | zero =>
      dsimp only
      rw [if_pos (by omega)]
      exact le_refl _
    | succ q =>
      dsimp only
      rw [if_pos ⟨by omega, by omega⟩]
      exact le_refl _

theorem successorBounds_zero {c : BoundMatrix} (closed : BoundMatrix.Closed c) {n : Nat} (dim : c.dim = n + 1)
    (inside : ∀ k ∈ persistent, k < n) :
    ∀ i < (DBM.successorBounds c f newClocks persistent).dim,
      (DBM.successorBounds c f newClocks persistent).get i i = 0 := by
  intro i hi
  rw [DBM.successorBounds, dim_ofFn] at hi
  rw [DBM.successorBounds, get_ofFn _ hi hi]
  cases i with
  | zero => rfl
  | succ i =>
    dsimp only
    split
    next old =>
      have at_ := List.getElem?_eq_getElem old.1
      rw [reindex_succ at_]
      have := inside _ (List.getElem_mem old.1)
      exact closed.diagonal _ (by omega)
    next => rw [if_pos rfl]

/-- What the clocks read behind a firing comes from readings before it. -/
theorem exists_of_successorBounds {c : BoundMatrix} (closed : BoundMatrix.Closed c) {n : Nat}
    (dim : c.dim = n + 1) (bound : f < n) (inside : ∀ k ∈ persistent, k < n)
    (h : Solves (valuation θ') (DBM.successorBounds c f newClocks persistent)) :
    ∃ θ : Nat → R, Solves (valuation θ) c ∧
      ∀ (p k : Nat), persistent[p]? = some k → θ' p = θ k - θ f := by
  classical
  have lt {a : Nat} (ha : a ≤ persistent.length) : oldIndex f persistent a < c.dim :=
    dim ▸ oldIndex_lt bound inside ha
  have between {a b : Nat} (ha : a ≤ persistent.length) (hb : b ≤ persistent.length) :
      Meets (valuation θ' a - valuation θ' b)
        (c.get (oldIndex f persistent a) (oldIndex f persistent b)) := by
    refine (h a ?_ b ?_).weaken (successorBounds_le (closed.diagonal _ (by omega)) ha hb)
    · rw [DBM.successorBounds, dim_ofFn]; omega
    · rw [DBM.successorBounds, dim_ofFn]; omega
  -- one old clock has one reading, however often it persists
  have once {a b : Nat} (ha : a ≤ persistent.length) (hb : b ≤ persistent.length)
      (same : oldIndex f persistent a = oldIndex f persistent b) :
      valuation θ' a = valuation θ' b := by
    have le := between ha hb
    have ge := between hb ha
    rw [same, closed.diagonal _ (lt hb)] at le
    rw [same, closed.diagonal _ (lt hb)] at ge
    exact le_antisymm (sub_nonpos.mp (meets_zero.mp le)) (sub_nonpos.mp (meets_zero.mp ge))
  let known (i : Nat) : Prop := ∃ a ≤ persistent.length, oldIndex f persistent a = i
  let v (i : Nat) : R := if given : known i then valuation θ' given.choose else 0
  have reads {a : Nat} (ha : a ≤ persistent.length) :
      v (oldIndex f persistent a) = valuation θ' a := by
    have given : known (oldIndex f persistent a) := ⟨a, ha, rfl⟩
    simp only [v, dif_pos given]
    exact once given.choose_spec.1 ha given.choose_spec.2
  have solves : SolvesOn known v c := by
    rintro _ - _ - ⟨a, ha, rfl⟩ ⟨b, hb, rfl⟩
    rw [reads ha, reads hb]
    exact between ha hb
  obtain ⟨w, all, same⟩ := closed.extend solves
  refine ⟨fun k => w (k + 1) - w 0, solves_shift all, fun p k at_ => ?_⟩
  have ha : p + 1 ≤ persistent.length := (List.getElem?_eq_some_iff.mp at_).1
  have fired := (same (f + 1) ⟨0, Nat.zero_le _, rfl⟩).trans (reads (Nat.zero_le _))
  have old : oldIndex f persistent (p + 1) = k + 1 := reindex_succ at_
  have kept := (same (k + 1) ⟨p + 1, ha, old⟩).trans (old ▸ reads ha)
  beta_reduce
  rw [sub_sub_sub_cancel_right, kept, fired]
  simp [valuation]

/-- The clocks that start read times of their intervals. -/
theorem starts_of_successorBounds {c : BoundMatrix}
    (h : Solves (valuation θ') (DBM.successorBounds c f newClocks persistent)) {k : Nat} {s : Clock}
    (at_ : newClocks[k]? = some s) : Clock.Admits s (θ' (persistent.length + k)) := by
  have lt := (List.getElem?_eq_some_iff.mp at_).1
  have dim : (DBM.successorBounds c f newClocks persistent).dim =
    persistent.length + newClocks.length + 1 := by rw [DBM.successorBounds, dim_ofFn]
  have new : ¬persistent.length + k < persistent.length := by omega
  constructor
  · have := h 0 (by omega) (persistent.length + k + 1) (by omega)
    rw [DBM.successorBounds, get_ofFn _ (by omega) (by omega)] at this
    simp only [new, if_false, Nat.add_sub_cancel_left, at_, Option.map_some, Option.getD_some,
      valuation, zero_sub] at this
    have := meets_coe.mp this
    push_cast at this
    linarith
  · have := h (persistent.length + k + 1) (by omega) 0 (by omega)
    rw [DBM.successorBounds, get_ofFn _ (by omega) (by omega)] at this
    simpa only [new, if_false, Nat.add_sub_cancel_left, at_, Option.map_some, Option.getD_some,
      valuation, sub_zero] using this

theorem exists_runsOut (bound : f < d.clockNames.length)
    (proper : ∀ c ∈ newClocks, Clock.Proper c) (inside : ∀ k ∈ persistent, k < d.clockNames.length)
    {θ : Nat → R} (first : ∀ k < d.clockNames.length, θ f ≤ θ k) :
    ∃ θ', RunsOut d f newClocks persistent θ θ' ∧
      ∀ k < persistent.length + newClocks.length, 0 ≤ θ' k := by
  -- the new clocks start at their lower bounds
  let θ₁ : Nat → R := fun p =>
    if p < persistent.length then θ (persistent.getD p 0) - θ f
    else ((newClocks[p - persistent.length]?.map fun c => (c.lower : R)).getD 0 : R)
  have old {p k : Nat} (at_ : persistent[p]? = some k) : θ₁ p = θ k - θ f := by
    have lt := (List.getElem?_eq_some_iff.mp at_).1
    simp only [θ₁, lt, if_true, List.getD_eq_getElem?_getD, at_, Option.getD_some]
  have new {k : Nat} {c : Clock} (at_ : newClocks[k]? = some c) :
      θ₁ (persistent.length + k) = (c.lower : R) := by
    simp [θ₁, at_]
  refine ⟨θ₁, ⟨bound, first, fun p k at_ => ?_, fun k c at_ => ?_⟩, fun k lt => ?_⟩
  · exact ⟨inside k (List.mem_of_getElem? at_), old at_⟩
  · rw [new at_]
    exact (proper c (List.mem_of_getElem? at_)).admits_lower
  · by_cases persists : k < persistent.length
    · rw [old (List.getElem?_eq_getElem persists)]
      exact sub_nonneg.mpr (first _ (inside _ (List.getElem_mem _)))
    · have at_ : newClocks[k - persistent.length]? = some newClocks[k - persistent.length] :=
        List.getElem?_eq_getElem (by omega)
      have := new at_
      rw [Nat.add_sub_cancel' (Nat.le_of_not_lt persists)] at this
      rw [this]
      exact_mod_cast (proper _ (List.getElem_mem _)).lower_nonneg

/-- Where the fired clock can run out first, the domain behind the firing contains exactly what the clocks
can read behind it. -/
theorem fireTransition_exact (h : Canonical d) (bound : f < d.clockNames.length)
    (proper : ∀ c ∈ newClocks, Clock.Proper c) (inside : ∀ k ∈ persistent, k < d.clockNames.length)
    (fires : ∃ θ : Nat → ℚ, Contains d θ ∧ ∀ k < d.clockNames.length, θ f ≤ θ k) :
    Canonical (d.fireTransition f newClocks persistent) ∧
      (d.fireTransition f newClocks persistent).clockNames =
        persistent.map (fun k => d.clockNames.getD k "") ++ newClocks.map Clock.name ∧
      ∀ θ' : Nat → R, Contains (d.fireTransition f newClocks persistent) θ' ↔
        ∃ θ, Contains d θ ∧ RunsOut d f newClocks persistent θ θ' := by
  obtain ⟨θ₀, contains, first⟩ := fires
  have dim := h.dim
  have constrained := constrain_solves contains first
  have closed : BoundMatrix.Closed (DBM.constrain d.bounds f).tighten :=
    tighten_closed (constrain_zero h.closed.diagonal f) constrained
  have cdim : (DBM.constrain d.bounds f).tighten.dim = d.clockNames.length + 1 := by
    simpa [DBM.constrain] using dim
  obtain ⟨θ₁, runs, -⟩ :=
    exists_runsOut bound proper inside first
  have start := successorBounds_solves runs cdim (solves_tighten.mpr constrained)
  have fired : d.fireTransition f newClocks persistent =
      DBM.canonicalize (DBM.successorBounds (DBM.constrain d.bounds f).tighten f newClocks persistent)
        (persistent.map (fun k => d.clockNames.getD k "") ++ newClocks.map Clock.name) := by
    unfold DBM.fireTransition
    rw [h.nonempty, if_neg Bool.false_ne_true, canonicalizeInPlace_of_solves constrained]
  obtain ⟨canonical, names, bounds⟩ := canonicalize_exact
    (persistent.map (fun k => d.clockNames.getD k "") ++ newClocks.map Clock.name)
    (by simp [DBM.successorBounds]) (successorBounds_zero closed cdim inside) start
  rw [← fired] at canonical names bounds
  refine ⟨canonical, names, fun θ' => ⟨fun after => ?_, ?_⟩⟩
  · rw [canonical.contains_iff, bounds, solves_tighten] at after
    obtain ⟨θ, solves, persists⟩ := exists_of_successorBounds closed cdim bound inside after
    obtain ⟨before, ahead⟩ := (constrain_solves_iff h bound).mp (solves_tighten.mp solves)
    exact ⟨θ, before, bound, ahead,
      fun p k at_ => ⟨inside k (List.mem_of_getElem? at_), persists p k at_⟩,
      fun k c at_ => starts_of_successorBounds after at_⟩
  · rintro ⟨θ, before, runs⟩
    exact fireTransition_contains before runs

omit [IsStrictOrderedRing R] in
variable (newClocks persistent) in
/-- A firing that no clock precedes by more than `EPSILON` does not empty the domain; one that some clock
does precede empties it. -/
theorem fireTransition_isEmpty_of_precedes (h : Canonical d) (bound : f < d.clockNames.length)
    {k : Nat} (lt : k < d.clockNames.length)
    (precedes : d.bounds.get (k + 1) (f + 1) < ((-EPSILON : ℚ) : Bound)) :
    (d.fireTransition f newClocks persistent).isEmpty = true := by
  have dim := h.dim
  have other : k ≠ f := by
    rintro rfl
    rw [h.closed.diagonal _ (by omega)] at precedes
    exact absurd precedes (not_lt.mpr (WithTop.coe_le_coe.mpr (by norm_num [EPSILON])))
  have round : (DBM.constrain d.bounds f).tighten.get (k + 1) (k + 1) < ((-EPSILON : ℚ) : Bound) := by
    refine lt_of_le_of_lt (tighten_le_through _ (k := f + 1) ?_ ?_ ?_) ?_
    · rw [DBM.constrain, dim_ofFn]; omega
    · rw [DBM.constrain, dim_ofFn]; omega
    · rw [DBM.constrain, dim_ofFn]; omega
    · rw [DBM.constrain, get_ofFn _ (by omega) (by omega), get_ofFn _ (by omega) (by omega),
        if_neg (by omega), if_pos ⟨rfl, by omega, by omega⟩]
      refine lt_of_le_of_lt ?_ precedes
      calc d.bounds.get (k + 1) (f + 1) + min (d.bounds.get (f + 1) (k + 1)) 0
          ≤ d.bounds.get (k + 1) (f + 1) + 0 := add_le_add_right (min_le_right _ _) _
        _ = d.bounds.get (k + 1) (f + 1) := add_zero _
  have contradicts : DBM.canonicalizeInPlace (DBM.constrain d.bounds f) = none := by
    unfold DBM.canonicalizeInPlace
    dsimp only
    rw [if_pos]
    refine List.any_eq_true.mpr ⟨k + 1, List.mem_range.mpr ?_, decide_eq_true round⟩
    rw [dim_tighten, DBM.constrain, dim_ofFn]
    omega
  unfold DBM.fireTransition
  rw [h.nonempty, if_neg Bool.false_ne_true, contradicts]
  rfl

end Firing

/-! ## Letting time pass -/

theorem letTimePass_exact {d : DBM} (h : Canonical d)
    (room : ∃ θ : Nat → ℚ, Contains d θ ∧ ∀ k < d.clockNames.length, 0 ≤ θ k) :
    Canonical d.letTimePass ∧ d.letTimePass.clockNames = d.clockNames ∧
      ∀ θ : Nat → R, Contains d.letTimePass θ ↔
        (∀ k < d.clockNames.length, 0 ≤ θ k) ∧ ∃ δ, 0 ≤ δ ∧ Contains d fun k => θ k + δ := by
  obtain ⟨θ₀, contains, nonneg⟩ := room
  have dim := h.dim
  let lowered : BoundMatrix := .ofFn d.bounds.dim fun i j =>
    if i = 0 ∧ j ≠ 0 then 0 else d.bounds.get i j
  have get {i j : Nat} (hi : i < d.bounds.dim) (hj : j < d.bounds.dim) :
      lowered.get i j = if i = 0 ∧ j ≠ 0 then 0 else d.bounds.get i j := get_ofFn _ hi hj
  have zero : ∀ i < lowered.dim, lowered.get i i = 0 := by
    intro i hi
    rw [get hi hi, if_neg (fun both => both.2 both.1)]
    exact h.closed.diagonal i hi
  have start : Solves (valuation θ₀) lowered := by
    intro i hi j hj
    rw [get hi hj]
    split
    next reference =>
      obtain ⟨rfl, nonzero⟩ := reference
      obtain ⟨k, rfl⟩ := Nat.exists_eq_succ_of_ne_zero nonzero
      have lt : k + 1 < d.bounds.dim := hj
      refine meets_zero.mpr ?_
      simpa [valuation] using nonneg k (by omega)
    next => exact contains.solves i hi j hj
  have passed : d.letTimePass = DBM.canonicalize lowered d.clockNames := by
    unfold DBM.letTimePass
    rw [h.nonempty, if_neg Bool.false_ne_true]
  obtain ⟨canonical, names, bounds⟩ :=
    canonicalize_exact (m := lowered) d.clockNames dim zero start
  rw [← passed] at canonical names bounds
  refine ⟨canonical, names, fun θ => ⟨fun after => ?_, ?_⟩⟩
  · rw [canonical.contains_iff, bounds, solves_tighten] at after
    have clock {i j : Nat} (hi : i < d.bounds.dim) (hj : j < d.bounds.dim) (nonzero : i ≠ 0) :
        Meets (valuation θ i - valuation θ j) (d.bounds.get i j) := by
      have := after i hi j hj
      rwa [get hi hj, if_neg (fun both => nonzero both.1)] at this
    refine ⟨fun k lt => ?_, ?_⟩
    · have := after 0 (show 0 < d.bounds.dim by omega) (k + 1) (show k + 1 < d.bounds.dim by omega)
      rw [get (by omega) (by omega), if_pos ⟨rfl, Nat.succ_ne_zero k⟩] at this
      simpa [valuation] using meets_zero.mp this
    · -- a reading of the reference clock before the clocks read `θ`, and not later than theirs
      have others : SolvesOn (fun i => i ≠ 0) (valuation θ) d.bounds :=
        fun i hi j hj nonzero _ => clock hi hj nonzero
      obtain ⟨w, solves, same⟩ := h.closed.extend others
      refine ⟨-min (w 0) 0, by simp, h.contains_iff.mpr fun i hi j hj => ?_⟩
      have reads (i : Nat) (nonzero : i ≠ 0) :
          valuation (fun k => θ k + -min (w 0) 0) i = valuation θ i - min (w 0) 0 := by
        obtain ⟨k, rfl⟩ := Nat.exists_eq_succ_of_ne_zero nonzero
        simp [valuation, sub_eq_add_neg]
      rcases Nat.eq_zero_or_pos i with rfl | pos <;> rcases Nat.eq_zero_or_pos j with rfl | pos'
      · rw [sub_self, h.closed.diagonal 0 hi]
        exact meets_zero.mpr (le_refl 0)
      · rw [reads j (by omega)]
        refine (solves 0 hi j hj).of_le ?_
        rw [same j (by omega)]
        simp only [valuation]
        linarith [min_le_left (w 0) 0]
      · rw [reads i (by omega)]
        rcases min_choice (w 0) 0 with eq | eq
        · have := solves i hi 0 hj
          rw [same i (by omega)] at this
          simpa only [eq, valuation, sub_zero] using this
        · have := clock hi hj (by omega)
          simpa only [eq, valuation, sub_zero] using this
      · rw [reads i (by omega), reads j (by omega), sub_sub_sub_cancel_right]
        exact clock hi hj (by omega)
  · rintro ⟨ahead, δ, past, before⟩
    have := letTimePass_contains before past fun k lt => by
      have := ahead k lt
      linarith
    simpa using this

/-! ## Successor domains -/

/-- What the clocks can read when the fired clock has run out first, the persistent ones have gone on, the
new ones have started, and time has passed without any running out. -/
def SuccessorReadings (d : DBM) (f : Nat) (newClocks : List Clock) (persistent : List Nat) :
    Set (Nat → R) :=
  {θ'' | (∀ k < persistent.length + newClocks.length, 0 ≤ θ'' k) ∧
    ∃ θ δ, 0 ≤ δ ∧ Contains d θ ∧ RunsOut d f newClocks persistent θ fun k => θ'' k + δ}

section Successor

variable {d : DBM} {f : Nat} {newClocks : List Clock} {persistent : List Nat}

/-- The fired clock can run out first exactly when there are readings behind it. -/
theorem successorReadings_nonempty (bound : f < d.clockNames.length)
    (proper : ∀ c ∈ newClocks, Clock.Proper c)
    (inside : ∀ k ∈ persistent, k < d.clockNames.length) :
    (SuccessorReadings d f newClocks persistent : Set (Nat → R)).Nonempty ↔
      ∃ θ : Nat → R, Contains d θ ∧ ∀ k < d.clockNames.length, θ f ≤ θ k := by
  constructor
  · rintro ⟨θ'', -, θ, δ, -, contains, runs⟩
    exact ⟨θ, contains, runs.first⟩
  · rintro ⟨θ, contains, first⟩
    obtain ⟨θ', runs, nonneg⟩ := exists_runsOut bound proper inside first
    exact ⟨θ', nonneg, θ, 0, le_refl 0, contains, by simpa using runs⟩

/-- Where the fired clock can run out first, the successor domain is the canonical form of exactly the
readings behind it. -/
theorem successor_readings (h : Canonical d) (bound : f < d.clockNames.length)
    (proper : ∀ c ∈ newClocks, Clock.Proper c)
    (inside : ∀ k ∈ persistent, k < d.clockNames.length)
    (nonempty : (SuccessorReadings d f newClocks persistent : Set (Nat → ℚ)).Nonempty) :
    Canonical (d.fireTransition f newClocks persistent).letTimePass ∧
      (d.fireTransition f newClocks persistent).letTimePass.clockNames =
        persistent.map (fun k => d.clockNames.getD k "") ++ newClocks.map Clock.name ∧
      ∀ θ'' : Nat → R, Contains (d.fireTransition f newClocks persistent).letTimePass θ'' ↔
        θ'' ∈ SuccessorReadings d f newClocks persistent := by
  have fires := (successorReadings_nonempty bound proper inside).mp nonempty
  obtain ⟨fired, names, exactly_⟩ := fireTransition_exact (R := R) h bound proper inside fires
  have length : (d.fireTransition f newClocks persistent).clockNames.length =
      persistent.length + newClocks.length := by simp [names]
  have room : ∃ θ : Nat → ℚ, Contains (d.fireTransition f newClocks persistent) θ ∧
      ∀ k < (d.fireTransition f newClocks persistent).clockNames.length, 0 ≤ θ k := by
    obtain ⟨θ, contains, first⟩ := fires
    obtain ⟨θ', runs, nonneg⟩ := exists_runsOut bound proper inside first
    exact ⟨θ', fireTransition_contains contains runs, by rwa [length]⟩
  obtain ⟨canonical, names', passed⟩ := letTimePass_exact (R := R) fired room
  refine ⟨canonical, names'.trans names, fun θ'' => ?_⟩
  rw [passed, length]
  simp only [exactly_, SuccessorReadings, Set.mem_ofPred_eq]
  refine and_congr_right fun _ => ?_
  constructor
  · rintro ⟨δ, past, θ, contains, runs⟩
    exact ⟨θ, δ, past, contains, runs⟩
  · rintro ⟨θ, δ, past, contains, runs⟩
    exact ⟨δ, past, θ, contains, runs⟩

/-- An empty successor domain has no readings. -/
theorem successor_isEmpty (h : Canonical d) (bound : f < d.clockNames.length)
    (proper : ∀ c ∈ newClocks, Clock.Proper c)
    (inside : ∀ k ∈ persistent, k < d.clockNames.length)
    (empty : (d.fireTransition f newClocks persistent).letTimePass.isEmpty = true) :
    (SuccessorReadings d f newClocks persistent : Set (Nat → ℚ)) = ∅ := by
  by_contra some_
  have nonempty := Set.nonempty_iff_ne_empty.mpr some_
  have := (successor_readings (R := ℚ) h bound proper inside nonempty).1.nonempty
  rw [empty] at this
  cases this

/-- Where no clock is kept before the fired one by less than `EPSILON`, a successor domain without readings
is empty. -/
theorem successor_isEmpty_of_none (h : Canonical d) (bound : f < d.clockNames.length)
    (proper : ∀ c ∈ newClocks, Clock.Proper c)
    (inside : ∀ k ∈ persistent, k < d.clockNames.length)
    (apart : ∀ k < d.clockNames.length, d.bounds.get (k + 1) (f + 1) < 0 →
      d.bounds.get (k + 1) (f + 1) < ((-EPSILON : ℚ) : Bound))
    (none : (SuccessorReadings d f newClocks persistent : Set (Nat → ℚ)) = ∅) :
    (d.fireTransition f newClocks persistent).letTimePass.isEmpty = true := by
  have dim := h.dim
  obtain ⟨k, lt, before⟩ : ∃ k < d.clockNames.length, d.bounds.get (k + 1) (f + 1) < 0 := by
    by_contra all
    push Not at all
    exact Set.nonempty_iff_ne_empty.mp ((successorReadings_nonempty bound proper inside).mpr
      (h.exists_contains_first bound all)) none
  have fired := fireTransition_isEmpty_of_precedes newClocks persistent h bound lt (apart k lt before)
  unfold DBM.letTimePass
  rw [fired, if_pos rfl]
  exact fired

/-- **The successor domain is exact.**  It is empty only where the fired clock cannot run out first, and
otherwise the canonical form of what the clocks can read behind it.  Where no clock is kept before the
fired one by less than `EPSILON`, it is empty exactly when the fired clock cannot run out first. -/
theorem successorDomain_exact (h : Canonical d) (bound : f < d.clockNames.length)
    (proper : ∀ c ∈ newClocks, Clock.Proper c)
    (inside : ∀ k ∈ persistent, k < d.clockNames.length) :
    ((SuccessorReadings d f newClocks persistent : Set (Nat → ℚ)).Nonempty →
      Canonical (d.fireTransition f newClocks persistent).letTimePass ∧
        (d.fireTransition f newClocks persistent).letTimePass.clockNames =
          persistent.map (fun k => d.clockNames.getD k "") ++ newClocks.map Clock.name ∧
        {θ'' | Contains (d.fireTransition f newClocks persistent).letTimePass θ''} =
          (SuccessorReadings d f newClocks persistent : Set (Nat → ℚ))) ∧
    ((d.fireTransition f newClocks persistent).letTimePass.isEmpty = true →
      (SuccessorReadings d f newClocks persistent : Set (Nat → ℚ)) = ∅) ∧
    ((∀ k < d.clockNames.length, ¬(((-EPSILON : ℚ) : Bound) ≤ d.bounds.get (k + 1) (f + 1) ∧
        d.bounds.get (k + 1) (f + 1) < 0)) →
      ((d.fireTransition f newClocks persistent).letTimePass.isEmpty = true ↔
        (SuccessorReadings d f newClocks persistent : Set (Nat → ℚ)) = ∅)) := by
  refine ⟨fun nonempty => ?_, successor_isEmpty h bound proper inside, fun apart =>
    ⟨successor_isEmpty h bound proper inside, successor_isEmpty_of_none h bound proper inside ?_⟩⟩
  · obtain ⟨canonical, names, readings⟩ :=
      successor_readings (R := ℚ) h bound proper inside nonempty
    exact ⟨canonical, names, Set.ext readings⟩
  · intro k lt before
    by_contra late
    exact apart k lt ⟨not_lt.mp late, before⟩

end Successor

/-! ## Less than a nanosecond -/

/-- Two clocks, the first of which runs out less than a nanosecond before the second. -/
def precededDomain : DBM :=
  (DBM.create [⟨"a", 0, (0 : ℚ)⟩, ⟨"b", 1 / 10 ^ 10, (1 / 10 ^ 10 : ℚ)⟩]).letTimePass

theorem precededDomain_canonical : Canonical precededDomain := by
  refine ⟨by decide +kernel, by decide +kernel, ⟨?_, ?_⟩⟩
  · decide +kernel
  · decide +kernel

theorem precededDomain_contains :
    Contains precededDomain fun k => if k = 0 then (0 : ℚ) else 1 / 10 ^ 10 := by
  have created : Contains (DBM.create [⟨"a", 0, (0 : ℚ)⟩, ⟨"b", 1 / 10 ^ 10, (1 / 10 ^ 10 : ℚ)⟩])
      fun k => if k = 0 then (0 : ℚ) else 1 / 10 ^ 10 := by
    refine create_contains fun k c at_ => ?_
    rcases k with _ | _ | k
    · obtain rfl := Option.some.inj at_
      exact ⟨by norm_num, meets_coe.mpr (by norm_num)⟩
    · obtain rfl := Option.some.inj at_
      exact ⟨by norm_num, meets_coe.mpr (by norm_num)⟩
    · cases at_
  have passed := letTimePass_contains created (le_refl 0) fun k _ => by
    split <;> norm_num
  exact passed.congr fun k _ => sub_zero _

theorem precededClock_proper : ∀ c ∈ [(⟨"c", 1, ⊤⟩ : Clock)], Clock.Proper c := by
  intro c mem
  rw [List.mem_singleton.mp mem]
  exact ⟨by norm_num, le_top⟩

theorem successorDomain_exact_preceded :
    {θ'' | Contains (precededDomain.fireTransition 0 [⟨"c", 1, ⊤⟩] [1]).letTimePass θ''} =
      (SuccessorReadings precededDomain 0 [⟨"c", 1, ⊤⟩] [1] : Set (Nat → ℚ)) := by
  have bound : 0 < precededDomain.clockNames.length := by decide +kernel
  have inside : ∀ k ∈ [1], k < precededDomain.clockNames.length := by decide +kernel
  refine ((successorDomain_exact precededDomain_canonical bound precededClock_proper
    inside).1 ?_).2.2
  refine (successorReadings_nonempty bound precededClock_proper inside).mpr
    ⟨_, precededDomain_contains, fun k _ => ?_⟩
  rw [if_pos rfl]
  split <;> norm_num

/-- The second clock cannot run out first, and the domain behind its firing is not empty. -/
theorem preceded_not_exact :
    Canonical precededDomain ∧ precededDomain.canFire 1 = true ∧
      (SuccessorReadings precededDomain 1 [] [] : Set (Nat → ℚ)) = ∅ ∧
      (precededDomain.fireTransition 1 [] []).letTimePass.isEmpty = false := by
  refine ⟨precededDomain_canonical, by decide +kernel, ?_, by decide +kernel⟩
  rw [Set.eq_empty_iff_forall_notMem]
  rintro θ'' ⟨-, θ, δ, -, contains, runs⟩
  have two : precededDomain.clockNames.length = 2 := by decide +kernel
  have dim := contains.dim
  have kept := contains.solves 1 (by omega) 2 (by omega)
  have before : precededDomain.bounds.get 1 2 = ((-(1 / 10 ^ 10) : ℚ) : Bound) := by decide +kernel
  rw [before, meets_coe] at kept
  have first := runs.first 0 (by omega)
  simp only [valuation, Rat.cast_id] at kept
  norm_num at kept
  linarith

end LibPetri.Verified

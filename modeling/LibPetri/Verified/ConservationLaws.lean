import LibPetri.Basis.Elimination
import LibPetri.Verified.WeightedCounts

/-! # The computed laws are a basis

The rows of the augmented matrix always combine the places to their entries, and span all weightings.  Where
the elimination is through, the rows without a pivot have no entries left: they are a basis of the
weightings that no transition changes.
-/

namespace LibPetri.Verified

open LibPetri.Basis LibPetri.Core LibPetri.Runtime LibPetri.Verification
open LibPetri.Verification.PInvariantComputer

section Elimination

variable {P T : Nat} {incidence : Fin T → Fin P → ℤ}

/-- `y·C`. -/
def changes (incidence : Fin T → Fin P → ℤ) : (Fin P → ℚ) →ₗ[ℚ] (Fin T → ℚ) :=
  (Matrix.of fun t p => (incidence t p : ℚ)).mulVecLin

theorem changes_apply (y : Fin P → ℚ) (t : Fin T) :
    changes incidence y t = ∑ p, y p * incidence t p := by
  simp only [changes, Matrix.mulVecLin_apply, Matrix.mulVec, dotProduct, Matrix.of_apply, mul_comm]

/-- The weights of a row. -/
def rowWeights (row : AugmentedRow P T) (p : Fin P) : ℚ := row.identity p

/-- The entries of a row are what its weights combine to. -/
def Combines (incidence : Fin T → Fin P → ℤ) (row : AugmentedRow P T) : Prop :=
  ∀ c, row.ct c = ∑ p, row.identity p * incidence c p

theorem Combines.changes {row : AugmentedRow P T} (h : Combines incidence row) (c : Fin T) :
    changes incidence (rowWeights row) c = row.ct c := by
  rw [changes_apply, h c]
  push_cast
  rfl

/-! ## Normalized rows -/

theorem dvd_foldl_gcd {α : Type} (f : α → ℤ) (items : List α) (g : Nat) :
    (items.foldl (fun g a => g.gcd (f a).natAbs) g ∣ g) ∧
      ∀ a ∈ items, ((items.foldl (fun g a => g.gcd (f a).natAbs) g : ℕ) : ℤ) ∣ f a := by
  induction items generalizing g with
  | nil => exact ⟨dvd_rfl, fun _ mem => (by cases mem)⟩
  | cons a items ih =>
    obtain ⟨divides, each⟩ := ih (g.gcd (f a).natAbs)
    refine ⟨divides.trans (Nat.gcd_dvd_left _ _), fun b mem => ?_⟩
    rcases List.mem_cons.mp mem with rfl | later
    · exact Int.natCast_dvd.mpr (divides.trans (Nat.gcd_dvd_right _ _))
    · exact each b later

theorem rowGcd_dvd_ct (row : AugmentedRow P T) (c : Fin T) : (rowGcd row : ℤ) ∣ row.ct c := by
  have inner := (dvd_foldl_gcd row.ct (List.finRange T) 0).2 c (List.mem_finRange c)
  exact (Int.natCast_dvd_natCast.mpr (dvd_foldl_gcd row.identity (List.finRange P) _).1).trans inner

theorem rowGcd_dvd_identity (row : AugmentedRow P T) (p : Fin P) : (rowGcd row : ℤ) ∣ row.identity p :=
  (dvd_foldl_gcd row.identity (List.finRange P) _).2 p (List.mem_finRange p)

/-- A row is a positive multiple of its normalized one. -/
theorem exists_normalizeRow (row : AugmentedRow P T) :
    ∃ g : ℤ, 0 < g ∧ (∀ c, row.ct c = g * (normalizeRow row).ct c) ∧
      ∀ p, row.identity p = g * (normalizeRow row).identity p := by
  unfold normalizeRow
  dsimp only
  split
  next large =>
    refine ⟨rowGcd row, by omega, fun c => ?_, fun p => ?_⟩
    · exact (Int.mul_ediv_cancel' (rowGcd_dvd_ct row c)).symm
    · exact (Int.mul_ediv_cancel' (rowGcd_dvd_identity row p)).symm
  next => exact ⟨1, one_pos, fun c => (one_mul _).symm, fun p => (one_mul _).symm⟩

/-! ## One pivot -/

/-- The cleared row, up to a factor. -/
theorem eliminate_of_ne {rows : Fin P → AugmentedRow P T} {k j : Fin P} {col : Fin T} (other : j ≠ k)
    (here : (rows k).ct col ≠ 0) :
    ∃ a b g : ℤ, a ≠ 0 ∧ 0 < g ∧
      (∀ c, g * (eliminate rows k col j).ct c = a * (rows j).ct c - b * (rows k).ct c) ∧
      (∀ p, g * (eliminate rows k col j).identity p =
        a * (rows j).identity p - b * (rows k).identity p) ∧
      (eliminate rows k col j).ct col = 0 := by
  unfold eliminate
  by_cases clear : (rows j).ct col = 0
  · rw [if_pos (by simp [clear])]
    exact ⟨1, 0, 1, one_ne_zero, one_pos, fun c => by ring, fun p => by ring, clear⟩
  · rw [if_neg (by simp [clear, other])]
    dsimp only
    obtain ⟨g, pos, ct, identity⟩ := exists_normalizeRow (⟨fun c => (rows k).ct col * (rows j).ct c -
      (rows j).ct col * (rows k).ct c, fun i => (rows k).ct col * (rows j).identity i -
        (rows j).ct col * (rows k).identity i⟩ : AugmentedRow P T)
    refine ⟨(rows k).ct col, (rows j).ct col, g, here, pos, fun c => (ct c).symm,
      fun p => (identity p).symm, ?_⟩
    have zero := ct col
    dsimp only at zero
    rw [mul_comm ((rows j).ct col), sub_self, eq_comm, mul_eq_zero] at zero
    exact zero.resolve_left pos.ne'

theorem eliminate_self {rows : Fin P → AugmentedRow P T} {k : Fin P} {col : Fin T} :
    eliminate rows k col k = rows k := by
  unfold eliminate
  rw [if_pos (by simp)]

theorem Combines.eliminate {rows : Fin P → AugmentedRow P T} (h : ∀ i, Combines incidence (rows i))
    {k : Fin P} {col : Fin T} (here : (rows k).ct col ≠ 0) (j : Fin P) :
    Combines incidence (eliminate rows k col j) := by
  by_cases other : j = k
  · rw [other, eliminate_self]
    exact h k
  · obtain ⟨a, b, g, -, pos, ct, identity, -⟩ := eliminate_of_ne other here
    intro c
    refine mul_left_cancel₀ pos.ne' ?_
    rw [ct, h j c, h k c, Finset.mul_sum, Finset.mul_sum, Finset.mul_sum, ← Finset.sum_sub_distrib]
    refine Finset.sum_congr rfl fun p _ => ?_
    rw [← mul_assoc g, identity p]
    ring

/-! ## The elimination -/

/-- The rows after some columns: those above `pivotRow` have a pivot, the others have no entry left in these
columns. -/
structure Reducing (incidence : Fin T → Fin P → ℤ) (columns : List (Fin T))
    (rows : Fin P → AugmentedRow P T) (pivotRow : Nat) : Prop where
  combines : ∀ i, Combines incidence (rows i)
  echelon : ∃ pivot : Fin P → Option (Fin T),
    Echelon (changes incidence) (fun i => rowWeights (rows i)) pivot ∧
      ∀ i : Fin P, pivot i = none ↔ pivotRow ≤ i.val
  cleared : ∀ c ∈ columns, ∀ i : Fin P, pivotRow ≤ i.val → (rows i).ct c = 0

theorem reducing_start : Reducing incidence []
    (fun i => ⟨fun c => incidence c i, fun j => if j = i then 1 else 0⟩) 0 := by
  refine ⟨fun i c => by simp, ⟨fun _ => none, .start ?_, fun i => by simp⟩,
    fun _ mem => (by cases mem)⟩
  have unit (i : Fin P) : rowWeights (⟨fun c => incidence c i, fun j => if j = i then 1 else 0⟩ :
      AugmentedRow P T) = Pi.single i 1 := by
    funext p
    by_cases same : p = i
    · subst same
      simp [rowWeights]
    · simp [rowWeights, same]
  have basis : (fun i => Pi.single i 1 : Fin P → Fin P → ℚ) = Pi.basisFun ℚ (Fin P) := by
    funext i
    exact (Pi.basisFun_apply ℚ (Fin P) i).symm
  simp only [unit, basis]
  exact (Pi.basisFun ℚ (Fin P)).span_eq.ge

theorem Reducing.column {columns : List (Fin T)} {state : (Fin P → AugmentedRow P T) × Nat}
    (h : Reducing incidence columns state.1 state.2) (col : Fin T) :
    Reducing incidence (columns ++ [col]) (eliminateColumn state col).1 (eliminateColumn state col).2 := by
  obtain ⟨rows, pivotRow⟩ := state
  obtain ⟨combines, ⟨pivot, echelon, free⟩, cleared⟩ := h
  dsimp only at combines echelon free cleared
  -- a column without an entry from the pivot row down is left as it is
  have unchanged (empty : ∀ i : Fin P, pivotRow ≤ i.val → (rows i).ct col = 0) :
      Reducing incidence (columns ++ [col]) rows pivotRow := by
    refine ⟨combines, ⟨pivot, echelon, free⟩, fun c mem i below => ?_⟩
    rcases List.mem_append.mp mem with old | new
    · exact cleared c old i below
    · rw [List.mem_singleton.mp new]
      exact empty i below
  unfold eliminateColumn
  dsimp only
  by_cases bound : pivotRow < P
  · rw [dif_pos bound]
    cases found : (List.finRange P).find? fun row =>
        decide (pivotRow ≤ row.val) && decide ((rows row).ct col ≠ 0) with
    | none =>
      refine unchanged fun i below => ?_
      have := List.find?_eq_none.mp found i (List.mem_finRange i)
      simpa [below] using this
    | some k =>
      have entry := List.find?_some found
      rw [Bool.and_eq_true, decide_eq_true_eq, decide_eq_true_eq] at entry
      obtain ⟨below, entry⟩ := entry
      dsimp only
      set first : Fin P := ⟨pivotRow, bound⟩ with first_def
      have first_val : first.val = pivotRow := rfl
      set σ := Equiv.swap first k with σ_def
      have swapped : σ first = k := Equiv.swap_apply_left first k
      -- rows from the pivot row down are exchanged among themselves
      have kept (i : Fin P) : pivotRow ≤ (σ i).val ↔ pivotRow ≤ i.val := by
        by_cases upper : i = first
        · rw [upper, swapped]
          exact iff_of_true below le_rfl
        · by_cases lower : i = k
          · rw [lower, σ_def, Equiv.swap_apply_right]
            exact iff_of_true le_rfl below
          · rw [σ_def, Equiv.swap_apply_of_ne_of_ne upper lower]
      have entry : ((rows ∘ σ) first).ct col ≠ 0 := by rwa [Function.comp_apply, swapped]
      have combined : ∀ i, Combines incidence ((rows ∘ σ) i) := fun i => combines (σ i)
      have combines' := Combines.eliminate combined entry
      refine ⟨combines', ⟨Function.update (pivot ∘ σ) first (some col), ?_, fun i => ?_⟩, ?_⟩
      · refine (echelon.permute σ).eliminate ((free _).mpr ((kept first).mpr le_rfl)) ?_ ?_ ?_ ?_
        · rw [Function.comp_apply, (combines _).changes]
          exact_mod_cast entry
        · rw [eliminate_self]
          rfl
        · intro j other
          obtain ⟨a, b, g, nonzero, pos, -, identity, -⟩ := eliminate_of_ne other entry
          have pos : (g : ℚ) ≠ 0 := by exact_mod_cast pos.ne'
          refine ⟨a / g, b / g, div_ne_zero (by exact_mod_cast nonzero) pos, ?_⟩
          funext p
          have scaled : (g : ℚ) * rowWeights (eliminate (rows ∘ σ) first col j) p =
              a * rowWeights (rows (σ j)) p - b * rowWeights (rows (σ first)) p := by
            unfold rowWeights
            exact_mod_cast identity p
          simp only [Pi.sub_apply, Pi.smul_apply, smul_eq_mul, Function.comp_apply]
          field_simp
          linarith
        · intro j other
          obtain ⟨-, -, -, -, -, -, -, zero⟩ := eliminate_of_ne other entry
          rw [(combines' j).changes, zero, Int.cast_zero]
      · by_cases here : i = first
        · rw [here, Function.update_self]
          exact iff_of_false (Option.some_ne_none _) (by omega)
        · rw [Function.update_of_ne here, Function.comp_apply, free, kept]
          have : i.val ≠ pivotRow := fun same => here (Fin.ext same)
          omega
      · intro c mem i below'
        have other : i ≠ first := by
          intro here
          rw [here] at below'
          omega
        obtain ⟨a, b, g, -, pos, ct, -, zero⟩ := eliminate_of_ne other entry
        rcases List.mem_append.mp mem with old | new
        · have upper := cleared c old (σ first) ((kept first).mpr le_rfl)
          have lower := cleared c old (σ i) ((kept i).mpr (by omega))
          have scaled := ct c
          rw [Function.comp_apply, Function.comp_apply, upper, lower, mul_zero, mul_zero, sub_zero,
            mul_eq_zero] at scaled
          exact scaled.resolve_left pos.ne'
        · rw [List.mem_singleton.mp new]
          exact zero
  · rw [dif_neg bound]
    exact unchanged fun i below => absurd i.isLt (by omega)

/-- The elimination runs through all columns. -/
theorem exists_reducing (incidence : Fin T → Fin P → ℤ) :
    ∃ pivotRow, Reducing incidence (List.finRange T) (reduced incidence) pivotRow := by
  have fold (columns left : List (Fin T)) (state : (Fin P → AugmentedRow P T) × Nat)
      (h : Reducing incidence columns state.1 state.2) :
      Reducing incidence (columns ++ left) (left.foldl eliminateColumn state).1
        (left.foldl eliminateColumn state).2 := by
    induction left generalizing columns state with
    | nil => simpa using h
    | cons col left ih =>
      have next := ih (columns ++ [col]) _ (h.column col)
      rwa [List.append_assoc] at next
  exact ⟨_, fold [] (List.finRange T) _ reducing_start⟩

/-- The rows without entries are those without a pivot. -/
theorem Reducing.clear_iff {rows : Fin P → AugmentedRow P T} {pivotRow : Nat}
    (h : Reducing incidence (List.finRange T) rows pivotRow) (i : Fin P) :
    (∀ c, (rows i).ct c = 0) ↔ pivotRow ≤ i.val := by
  obtain ⟨pivot, echelon, free⟩ := h.echelon
  constructor
  · intro clear
    by_contra above
    obtain ⟨c, pivotal⟩ := Option.ne_none_iff_exists'.mp (mt (free i).mp above)
    have entry := echelon.nonzero i c pivotal
    rw [(h.combines i).changes, clear c, Int.cast_zero] at entry
    exact entry rfl
  · exact fun below c => h.cleared c (List.mem_finRange c) i below

theorem Reducing.independent {columns : List (Fin T)} {rows : Fin P → AugmentedRow P T}
    {pivotRow : Nat} (h : Reducing incidence columns rows pivotRow) :
    LinearIndependent ℚ fun i => rowWeights (rows i) := by
  obtain ⟨pivot, echelon, -⟩ := h.echelon
  exact linearIndependent_of_top_le_span_of_card_eq_finrank echelon.spans (by simp)

end Elimination

/-! ## The laws -/

section Laws

variable {S : Type} {flatNet : FlatNet S} {matrix : IncidenceMatrix flatNet.places.length}
  {initialMarking : MarkingState}

/-- A row without entries is a law, up to its sign; a row with entries is none. -/
theorem lawOf_spec (row : AugmentedRow flatNet.places.length matrix.numTransitions) :
    ((∃ c, row.ct c ≠ 0) → lawOf flatNet matrix initialMarking row = none) ∧
      ((∀ c, row.ct c = 0) → (∃ p, row.identity p ≠ 0) → ∃ s : ℤˣ, lawOf flatNet matrix initialMarking row =
        some (pInvariant flatNet initialMarking fun p => s * row.identity p)) := by
  have entries : ((List.finRange _).any fun c => decide (row.ct c ≠ 0)) = true ↔
      ∃ c, row.ct c ≠ 0 := by simp
  unfold lawOf
  refine ⟨fun some_ => if_pos (entries.mpr some_), fun clear weighs => ?_⟩
  rw [if_neg (fun any => by
    obtain ⟨c, entry⟩ := entries.mp any
    exact entry (clear c))]
  dsimp only
  split
  · exact ⟨1, by simp⟩
  · split
    next none_ =>
      obtain ⟨p, nonzero⟩ := weighs
      simp only [Bool.and_eq_true, Bool.not_eq_true', List.any_eq_false, List.mem_finRange,
        decide_eq_true_eq, true_implies] at none_
      have := none_.1 p
      have := none_.2 p
      omega
    · split
      · exact ⟨1, by simp⟩
      · exact ⟨-1, by simp⟩

theorem filterMap_eq_map {α β : Type} {f : α → Option β} {g : α → β} {keep : α → Bool}
    {items : List α} (kept : ∀ a, keep a = true → f a = some (g a))
    (dropped : ∀ a, keep a = false → f a = none) : items.filterMap f = (items.filter keep).map g := by
  induction items with
  | nil => rfl
  | cons a items ih =>
    cases keeps : keep a with
    | true => rw [List.filterMap_cons_some (kept a keeps), List.filter_cons_of_pos keeps, List.map_cons, ih]
    | false =>
      rw [List.filterMap_cons_none (dropped a keeps), List.filter_cons_of_neg (by simp [keeps]), ih]

/-- The weights of a law. -/
def lawWeights (inv : PInvariant flatNet.places.length) (p : flatNet.Index) : ℚ := inv.weights p

/-- A basis of the weightings that no column changes, with the weights of the initial marking. -/
structure IsBasis (matrix : IncidenceMatrix flatNet.places.length) (initialMarking : MarkingState)
    (laws : List (PInvariant flatNet.places.length)) : Prop where
  null : ∀ inv ∈ laws, ∀ row ∈ matrix.incidence, ∑ p, inv.weights p * row p = 0
  constant : ∀ inv ∈ laws,
    inv.constant = ∑ p, inv.weights p * initialMarking.tokens (flatNet.placeAt p)
  independent : LinearIndependent ℚ fun i : Fin laws.length => lawWeights laws[i]
  spans : ∀ y : flatNet.Index → ℚ, (∀ row ∈ matrix.incidence, ∑ p, y p * row p = 0) →
    y ∈ Submodule.span ℚ (Set.range fun i : Fin laws.length => lawWeights laws[i])

theorem constant_pInvariant (weights : flatNet.Index → ℤ) :
    (pInvariant flatNet initialMarking weights).constant =
      ∑ p, weights p * initialMarking.tokens (flatNet.placeAt p) := by
  rw [Fin.sum_univ_def]
  refine sum_map_filter _ fun p _ none_ => ?_
  have zero : weights p = 0 := by simpa using none_
  rw [zero, zero_mul]

section Signed

variable (initialMarking) (sign : flatNet.Index → ℤˣ)
  (rows : flatNet.Index → AugmentedRow flatNet.places.length matrix.numTransitions)

/-- The law of a row, turned by a sign. -/
def signedLaw (i : flatNet.Index) : PInvariant flatNet.places.length :=
  pInvariant flatNet initialMarking fun p => sign i * (rows i).identity p

/-- The weights of a list of laws are weights of rows, up to units. -/
theorem lawWeights_map (free : List flatNet.Index) :
    (fun i : Fin (free.map (signedLaw initialMarking sign rows)).length =>
        lawWeights (free.map (signedLaw initialMarking sign rows))[i]) =
      ((fun i => Units.map (Int.castRingHom ℚ).toMonoidHom (sign i)) • fun i => rowWeights (rows i)) ∘
        free.get ∘ Fin.cast (List.length_map _) := by
  funext i p
  have here : (free.map (signedLaw initialMarking sign rows))[i] =
      signedLaw initialMarking sign rows (free.get (Fin.cast (List.length_map _) i)) := by
    rw [Fin.getElem_fin, List.getElem_map]
    rfl
  rw [here]
  exact Int.cast_mul _ _

end Signed

theorem isBasis_of_columns (flatNet : FlatNet S) (matrix : IncidenceMatrix flatNet.places.length)
    (initialMarking : MarkingState) (columns : matrix.numTransitions ≠ 0) :
    IsBasis matrix initialMarking (computePInvariants flatNet matrix initialMarking) := by
  set incidence : Fin matrix.numTransitions → flatNet.Index → ℤ := fun t p => matrix.incidence[t] p
  obtain ⟨pivotRow, h⟩ := exists_reducing incidence
  set rows := reduced incidence with rows_def
  have weighs (i : flatNet.Index) : ∃ p, (rows i).identity p ≠ 0 := by
    by_contra none_
    push Not at none_
    refine h.independent.ne_zero i (funext fun p => ?_)
    rw [rowWeights, none_ p]
    rfl
  have each (i : flatNet.Index) : ∃ s : ℤˣ, pivotRow ≤ i.val → lawOf flatNet matrix initialMarking (rows i) =
      some (pInvariant flatNet initialMarking fun p => s * (rows i).identity p) := by
    by_cases below : pivotRow ≤ i.val
    · obtain ⟨s, law⟩ := (lawOf_spec (rows i)).2 ((h.clear_iff i).mpr below) (weighs i)
      exact ⟨s, fun _ => law⟩
    · exact ⟨1, fun below' => absurd below' below⟩
  choose sign law using each
  -- the laws are the rows below the pivots, each with its sign
  set free := (List.finRange flatNet.places.length).filter fun i => decide (pivotRow ≤ i.val) with free_def
  have laws : computePInvariants flatNet matrix initialMarking = 
      free.map (signedLaw initialMarking sign rows) := by
    unfold computePInvariants
    by_cases empty : flatNet.places.length = 0
    · have none_ : List.finRange flatNet.places.length = [] := by
        rw [← List.length_eq_zero_iff, List.length_finRange, empty]
      rw [if_pos (by simp [empty]), free_def, none_]
      rfl
    · rw [if_neg (by simp [empty, columns])]
      refine filterMap_eq_map (fun i below => law i (of_decide_eq_true below)) fun i above => ?_
      refine (lawOf_spec (rows i)).1 ?_
      by_contra clear
      push Not at clear
      exact of_decide_eq_false above ((h.clear_iff i).mp clear)
  have clear {i : flatNet.Index} (mem : i ∈ free) (c : Fin matrix.numTransitions) : (rows i).ct c = 0 :=
    (h.clear_iff i).mpr (of_decide_eq_true (List.mem_filter.mp mem).2) c
  rw [laws]
  refine ⟨fun inv mem row listed => ?_, fun inv mem => ?_, ?_, fun y null => ?_⟩
  · obtain ⟨i, here, rfl⟩ := List.mem_map.mp mem
    obtain ⟨t, bound, rfl⟩ := List.mem_iff_getElem.mp listed
    have zero := (h.combines i ⟨t, bound⟩).symm.trans (clear here _)
    have each (p : flatNet.Index) : (signedLaw initialMarking sign rows i).weights p *
        matrix.incidence[t] p = sign i * ((rows i).identity p * incidence ⟨t, bound⟩ p) :=
      mul_assoc _ _ _
    rw [Finset.sum_congr rfl fun p _ => each p, ← Finset.mul_sum, zero, mul_zero]
  · obtain ⟨i, -, rfl⟩ := List.mem_map.mp mem
    exact constant_pInvariant _
  · have signed := h.independent.units_smul fun i => Units.map (Int.castRingHom ℚ).toMonoidHom (sign i)
    have distinct : Function.Injective (free.get ∘
        Fin.cast (List.length_map (signedLaw initialMarking sign rows))) :=
      (List.nodup_iff_injective_get.mp ((List.nodup_finRange _).filter _)).comp (Fin.cast_injective _)
    have independent := signed.comp _ distinct
    rw [lawWeights_map]
    exact independent
  · obtain ⟨pivot, echelon, unpivoted⟩ := h.echelon
    have inside := echelon.ker_le_span (LinearMap.mem_ker.mpr (funext fun t =>
      (changes_apply y t).trans (null _ (List.getElem_mem t.isLt))))
    refine Submodule.span_le.mpr ?_ inside
    rintro _ ⟨i, below, rfl⟩
    have mem : i ∈ free :=
      List.mem_filter.mpr ⟨List.mem_finRange i, decide_eq_true ((unpivoted i).mp below)⟩
    obtain ⟨j, rfl⟩ := List.mem_iff_get.mp mem
    rw [lawWeights_map]
    have unit : ((sign (free.get j) : ℤ) : ℚ) * (sign (free.get j) : ℤ) = 1 := by
      exact_mod_cast Int.units_coe_mul_self (sign (free.get j))
    have turned : rowWeights (rows (free.get j)) = ((sign (free.get j) : ℤ) : ℚ) •
        ((((sign (free.get j) : ℤ) : ℚ)) • rowWeights (rows (free.get j))) := by
      rw [smul_smul, unit, one_smul]
    change rowWeights (rows (free.get j)) ∈ _
    rw [turned]
    exact Submodule.smul_mem _ _ (Submodule.subset_span ⟨Fin.cast (List.length_map _).symm j, rfl⟩)

/-- The computed laws are a basis, where the matrix has a column.  Without a column there are none. -/
theorem computePInvariants_basis (flatNet : FlatNet S) (matrix : IncidenceMatrix flatNet.places.length)
    (initialMarking : MarkingState) :
    (matrix.numTransitions ≠ 0 →
        IsBasis matrix initialMarking (computePInvariants flatNet matrix initialMarking)) ∧
      (matrix.numTransitions = 0 → computePInvariants flatNet matrix initialMarking = []) := by
  refine ⟨isBasis_of_columns flatNet matrix initialMarking, fun none_ => ?_⟩
  unfold computePInvariants
  rw [if_pos (by simp [none_])]

theorem lone_nodup : ["a"].Nodup := by decide

/-- A place and no transition. -/
def stillNet : FlatNet Unit where
  places := ["a"]
  transitions := []
  environmentBounds := OrderedMap.empty
  environmentInjection := OrderedMap.empty
  places_nodup := lone_nodup
  bounds_injected := nothing_injected

theorem computePInvariants_basis_moveOnce :
    IsBasis (.ofFlatNet moveOnceNet) moveOnceMarking
        (computePInvariants moveOnceNet (.ofFlatNet moveOnceNet) moveOnceMarking) ∧
      computePInvariants stillNet (.ofFlatNet stillNet) MarkingState.empty = [] :=
  ⟨(computePInvariants_basis moveOnceNet _ _).1 (by decide +kernel),
    (computePInvariants_basis stillNet _ _).2 (by decide +kernel)⟩

/-- Every weighting is unchanged where nothing fires, and no law is computed. -/
theorem no_laws_without_columns : ¬IsBasis (.ofFlatNet stillNet) MarkingState.empty
    (computePInvariants stillNet (.ofFlatNet stillNet) MarkingState.empty) := by
  intro basis
  have inside := basis.spans (fun _ => 1) fun _ mem => (by cases mem)
  have none_ : computePInvariants stillNet (.ofFlatNet stillNet) MarkingState.empty = [] := by
    unfold computePInvariants
    rw [if_pos (by decide +kernel)]
  rw [none_] at inside
  have empty : Set.range (fun i : Fin ([] : List (PInvariant stillNet.places.length)).length =>
      lawWeights ([] : List (PInvariant stillNet.places.length))[i]) = ∅ :=
    Set.range_eq_empty_iff.mpr (inferInstanceAs (IsEmpty (Fin 0)))
  rw [empty, Submodule.span_empty, Submodule.mem_bot] at inside
  exact one_ne_zero (congrFun inside ⟨0, Nat.one_pos⟩)

end Laws

end LibPetri.Verified

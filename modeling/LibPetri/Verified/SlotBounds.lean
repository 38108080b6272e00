import LibPetri.Verified.SlotPresolve
import LibPetri.Verified.WeightedCounts

/-! # The bound of the colour slots is right

A weighting that passes the check bounds the tokens on the coloured places, and the solver finds the least
bound there is, unless a limit stops it.
-/

namespace LibPetri.Verified

open LibPetri.Basis LibPetri.Core LibPetri.Verification LibPetri.Verification.SlotBoundLp
open LibPetri.Verification.AbstractReplayer LibPetri.Verification.SmtEncoder Simplex

variable {S : Type} {flatNet : FlatNet S} {initial : MarkingState} {coloured : List flatNet.Index}

/-! ## The check -/

section Check

variable {cover : ScaledCover} {checked : CheckedCover}

theorem delta_eq {y : flatNet.Index → ℤ} (t : flatNet.Position) :
    delta y (flatNet.transition t) = ∑ p, y p * column flatNet t p := by
  rw [delta, Fin.sum_univ_def]
  rfl

theorem weighted_eq (y : flatNet.Index → ℤ) :
    ((List.finRange _).map fun p => y p * (initial.tokens (flatNet.placeAt p) : ℤ)).sum =
      weighted y (flatNet.vectorize initial) := by
  rw [weighted, Fin.sum_univ_def]
  rfl

/-- What the check makes sure of before it computes the bound. -/
structure Passes (flatNet : FlatNet S) (coloured : List flatNet.Index) (cover : ScaledCover) : Prop where
  length : cover.weights.length = flatNet.places.length
  positive : 0 < cover.denominator
  nonneg : ∀ p : flatNet.Index, 0 ≤ cover.weights.getD p 0
  coloured : ∀ p ∈ coloured, cover.denominator ≤ cover.weights.getD p 0
  lowers : ∀ t, ∑ p : flatNet.Index, cover.weights.getD p 0 * column flatNet t p ≤ 0

/-- The weighted tokens of the initial marking. -/
def startValue (flatNet : FlatNet S) (initial : MarkingState) (cover : ScaledCover) : ℤ :=
  weighted (fun p => cover.weights.getD p 0) (flatNet.vectorize initial)

theorem checkCover_of_passes (passes : Passes flatNet coloured cover) :
    checkCover flatNet initial coloured cover =
      if slotCap < startValue flatNet initial cover / cover.denominator then
        .error s!"k={startValue flatNet initial cover / cover.denominator} exceeds {slotCap}"
      else .ok ⟨startValue flatNet initial cover / cover.denominator,
        startValue flatNet initial cover / cover.denominator⟩ := by
  have none_negative : ((List.finRange flatNet.places.length).find? fun p : flatNet.Index =>
      cover.weights.getD p 0 < 0) = none := by
    rw [List.find?_eq_none]
    exact fun p _ => by simpa using passes.nonneg p
  have none_below : ((coloured.insertionSort (· ≤ ·)).find? fun p : flatNet.Index =>
      cover.weights.getD p 0 < cover.denominator) = none := by
    rw [List.find?_eq_none]
    intro p mem
    simpa using passes.coloured p ((List.perm_insertionSort _ _).mem_iff.mp mem)
  have none_raised : (flatNet.transitions.find? fun row =>
      0 < delta (fun p : flatNet.Index => cover.weights.getD p 0) row) = none := by
    rw [List.find?_eq_none]
    intro row mem
    obtain ⟨t, rfl⟩ := flatNet.mem_transitions.mp mem
    simpa [delta_eq] using passes.lowers t
  rw [checkCover, if_neg (not_not.mpr passes.length), if_neg (not_le.mpr passes.positive)]
  dsimp only
  rw [none_negative, none_below, none_raised]
  dsimp only
  rw [weighted_eq, startValue]

theorem passes_of_checkCover (accepts : checkCover flatNet initial coloured cover = .ok checked) :
    Passes flatNet coloured cover ∧
      checked.k = startValue flatNet initial cover / cover.denominator := by
  rw [checkCover] at accepts
  split at accepts
  · cases accepts
  next length =>
  split at accepts
  · cases accepts
  next positive =>
  dsimp only at accepts
  cases negative : (List.finRange flatNet.places.length).find? fun p : flatNet.Index =>
      cover.weights.getD p 0 < 0 with
  | some p =>
    rw [negative] at accepts
    cases accepts
  | none =>
    rw [negative] at accepts
    cases below : (coloured.insertionSort (· ≤ ·)).find? fun p : flatNet.Index =>
        cover.weights.getD p 0 < cover.denominator with
    | some p =>
      rw [below] at accepts
      cases accepts
    | none =>
      rw [below] at accepts
      cases raised : flatNet.transitions.find? fun row =>
          0 < delta (fun p : flatNet.Index => cover.weights.getD p 0) row with
      | some row =>
        rw [raised] at accepts
        cases accepts
      | none =>
        rw [raised] at accepts
        dsimp only at accepts
        rw [weighted_eq] at accepts
        split at accepts
        · cases accepts
        refine ⟨⟨not_not.mp length, not_le.mp positive, fun p => ?_, fun p mem => ?_, fun t => ?_⟩, ?_⟩
        · simpa using List.find?_eq_none.mp negative p (List.mem_finRange p)
        · simpa using List.find?_eq_none.mp below p ((List.perm_insertionSort _ _).mem_iff.mpr mem)
        · simpa [delta_eq] using List.find?_eq_none.mp raised _ (flatNet.transition_mem t)
        · rw [← Except.ok.inj accepts]
          rfl

/-- The tokens on the coloured places. -/
def colouredTokens (coloured : List flatNet.Index) (s : flatNet.State) : ℕ := ∑ p ∈ coloured.toFinset, s p

/-- A weighting that passes bounds the coloured tokens of every marking that a run of firings reaches. -/
theorem colouredTokens_le (accepts : checkCover flatNet initial coloured cover = .ok checked)
    {labels : List (Option flatNet.Position)} {s : flatNet.State}
    (run : FlatRun flatNet (flatNet.vectorize initial) labels s) (fires : ∀ l ∈ labels, l ≠ none) :
    (colouredTokens coloured s : ℤ) ≤ checked.k := by
  obtain ⟨passes, value⟩ := passes_of_checkCover accepts
  have bounded := weighted_le_of_run passes.nonneg passes.lowers run (.inr fires)
  rw [value, Int.le_ediv_iff_mul_le passes.positive, colouredTokens, Nat.cast_sum, Finset.sum_mul]
  calc ∑ p ∈ coloured.toFinset, (s p : ℤ) * cover.denominator
      ≤ ∑ p ∈ coloured.toFinset, cover.weights.getD p 0 * (s p : ℤ) := by
        refine Finset.sum_le_sum fun p mem => ?_
        rw [mul_comm]
        exact mul_le_mul_of_nonneg_right (passes.coloured p (List.mem_toFinset.mp mem))
          (Int.natCast_nonneg _)
    _ ≤ weighted (fun p => cover.weights.getD p 0) s :=
        Finset.sum_le_sum_of_subset_of_nonneg (Finset.subset_univ _)
          fun p _ _ => mul_nonneg (passes.nonneg p) (Int.natCast_nonneg _)
    _ ≤ startValue flatNet initial cover := bounded

end Check

/-! ## Weightings over a common denominator -/

section Scaled

variable {P : Nat} {y : Fin P → ℚ}

theorem commonDenominator_spec (items : List (Fin P)) (d : ℕ) (positive : 0 < d) :
    let common := items.foldl (fun denominator p =>
      denominator / denominator.gcd (y p).den * (y p).den) d
    0 < common ∧ d ∣ common ∧ ∀ p ∈ items, (y p).den ∣ common := by
  induction items generalizing d with
  | nil => exact ⟨positive, dvd_rfl, fun _ mem => (by cases mem)⟩
  | cons p items ih =>
    have lcm : d / d.gcd (y p).den * (y p).den = d.lcm (y p).den :=
      (Nat.div_mul_right_comm (Nat.gcd_dvd_left _ _) _).trans rfl
    have positive' : 0 < d.lcm (y p).den := Nat.lcm_pos positive (y p).den_pos
    obtain ⟨up, divides, each⟩ := ih (d.lcm (y p).den) positive'
    rw [List.foldl_cons, lcm]
    refine ⟨up, (Nat.dvd_lcm_left _ _).trans divides, fun q mem => ?_⟩
    rcases List.mem_cons.mp mem with rfl | later
    · exact (Nat.dvd_lcm_right _ _).trans divides
    · exact each q later

theorem scaled_spec (y : Fin P → ℚ) : 0 < (scaled y).denominator ∧ (scaled y).weights.length = P ∧
    ∀ p : Fin P, ((scaled y).weights.getD p 0 : ℚ) = y p * (scaled y).denominator := by
  obtain ⟨positive, -, divides⟩ := commonDenominator_spec (y := y) (List.finRange P) 1 Nat.one_pos
  refine ⟨Int.natCast_pos.mpr positive, by simp [scaled], fun p => ?_⟩
  obtain ⟨factor, common⟩ := divides p (List.mem_finRange p)
  simp only [scaled, List.getD_eq_getElem?_getD, List.getElem?_map]
  rw [List.getElem?_eq_getElem (by simp), List.getElem_finRange]
  simp only [Option.map_some, Option.getD_some, Fin.cast_mk, Fin.eta]
  rw [common, Nat.mul_div_cancel_left _ (y p).den_pos]
  push_cast
  have value : (y p).num = y p * (y p).den := (Rat.mul_den_eq_num (y p)).symm
  rw [value]
  ring

end Scaled

/-! ## The optimum -/

section Optimum

/-- The initial tokens. -/
abbrev startTokens (flatNet : FlatNet S) (initial : MarkingState) (p : flatNet.Index) : ℕ :=
  initial.tokens (flatNet.placeAt p)

abbrev isColoured (coloured : List flatNet.Index) (p : flatNet.Index) : Bool := decide (p ∈ coloured)

theorem passes_of_covers {y : flatNet.Index → ℚ} (covers : Covers flatNet (isColoured coloured) y) :
    Passes flatNet coloured (scaled y) := by
  obtain ⟨positive, length, value⟩ := scaled_spec y
  have positive' : (0 : ℚ) < (scaled y).denominator := Int.cast_pos.mpr positive
  refine ⟨length, positive, fun p => ?_, fun p mem => ?_, fun t => ?_⟩
  · have : (0 : ℚ) ≤ ((scaled y).weights.getD p 0 : ℤ) := by
      rw [value]
      exact mul_nonneg (covers.nonneg p) positive'.le
    exact_mod_cast this
  · have : ((scaled y).denominator : ℚ) ≤ ((scaled y).weights.getD p 0 : ℤ) := by
      rw [value]
      exact le_mul_of_one_le_left positive'.le (covers.coloured p (decide_eq_true mem))
    exact_mod_cast this
  · have sum : (((∑ p : flatNet.Index, (scaled y).weights.getD p 0 * column flatNet t p : ℤ)) : ℚ) =
        (∑ p, y p * (column flatNet t p : ℚ)) * (scaled y).denominator := by
      push_cast
      rw [Finset.sum_mul]
      refine Finset.sum_congr rfl fun p _ => ?_
      rw [value]
      ring
    have : (((∑ p : flatNet.Index, (scaled y).weights.getD p 0 * column flatNet t p : ℤ)) : ℚ) ≤ 0 := by
      rw [sum]
      exact mul_nonpos_of_nonpos_of_nonneg (covers.lowers t) positive'.le
    exact_mod_cast this

theorem startValue_scaled (initial : MarkingState) (y : flatNet.Index → ℚ) :
    (startValue flatNet initial (scaled y) : ℚ) =
      coverValue (startTokens flatNet initial) y * (scaled y).denominator := by
  rw [startValue, weighted, coverValue, Finset.sum_mul]
  push_cast
  refine Finset.sum_congr rfl fun p _ => ?_
  rw [(scaled_spec y).2.2 p]
  change _ = y p * (initial.tokens (flatNet.placeAt p) : ℚ) * _
  change y p * _ * ((initial.tokens (flatNet.placeAt p) : ℤ) : ℚ) = _
  push_cast
  ring

/-- What the check answers on a weighting that covers the net. -/
theorem checkCover_of_covers {y : flatNet.Index → ℚ} (covers : Covers flatNet (isColoured coloured) y)
    {value : ℚ} (same : coverValue (startTokens flatNet initial) y = value) :
    checkCover flatNet initial coloured (scaled y) =
      if slotCap < ⌊value⌋ then .error s!"k={⌊value⌋} exceeds {slotCap}" else .ok ⟨⌊value⌋, value⟩ := by
  have positive := (scaled_spec y).1
  have positive' : (0 : ℚ) < (scaled y).denominator := Int.cast_pos.mpr positive
  have start := startValue_scaled initial y
  rw [same] at start
  have ratio : (startValue flatNet initial (scaled y) : ℚ) / (scaled y).denominator = value := by
    rw [start, mul_div_cancel_right₀ _ positive'.ne']
  have floor : startValue flatNet initial (scaled y) / (scaled y).denominator = ⌊value⌋ := by
    refine eq_of_forall_le_iff fun k => ?_
    rw [Int.le_ediv_iff_mul_le positive, Int.le_floor, ← ratio, le_div_iff₀ positive']
    norm_cast
  rw [checkCover_of_passes (passes_of_covers covers), floor, ratio]

variable {program : Presolved flatNet.places.length} {fuel : Nat}

theorem weighting_eq_extended {final : SlotTableau program.places.length
      (program.rows.length + program.places.length)} (tidy : Tidy final)
    (colour : flatNet.Index → Bool) (m0 : flatNet.Index → Nat) :
    program.weighting colour final.obj =
      extended colour program (Tableau.prices (dense (program.tableau colour m0)) (dense final)) := by
  funext p
  rw [Presolved.weighting, extended]
  cases program.places.finIdxOf? p with
  | none => rfl
  | some i =>
    dsimp only
    rw [lookup_getD tidy.obj, Tableau.prices, basis_tableau, least]
    split
    · rfl
    · exact (add_zero _).symm

/-- The least value of a cover is that of the optimal tableau. -/
theorem optimal_right (keeps : Keeps flatNet (isColoured coloured) program)
    {final : SlotTableau program.places.length (program.rows.length + program.places.length)}
    (tidy : Tidy final) (canonical : (dense final).Canonical)
    (same : (dense (program.tableau (isColoured coloured) (startTokens flatNet initial))).Same
      (dense final))
    (optimal : ∀ j, 0 ≤ (dense final).obj j) :
    Covers flatNet (isColoured coloured) (program.weighting (isColoured coloured) final.obj) ∧
      ∀ y, Covers flatNet (isColoured coloured) y →
        coverValue (startTokens flatNet initial) (program.weighting (isColoured coloured) final.obj) ≤
          coverValue (startTokens flatNet initial) y := by
  obtain ⟨dual, least_⟩ := Tableau.prices_optimal canonical_tableau same canonical optimal
  rw [weighting_eq_extended tidy (isColoured coloured) (startTokens flatNet initial)]
  refine ⟨covers_of_dual keeps dual, fun y covers => ?_⟩
  have below := least_ _ (dual_of_covers keeps covers)
  have above := value_of_covers (startTokens flatNet initial) keeps covers
  rw [value_of_dual keeps]
  linarith

/-- How the solver ends. -/
structure CoverAnswers (flatNet : FlatNet S) (initial : MarkingState) (coloured : List flatNet.Index)
    (limits : Limits) (stop : Nat → Bool) (answer : LpAnswer) : Prop where
  optimal : ∀ cover places rows, answer = .optimal cover places rows →
    ∃ opt, IsLeast {value | ∃ y, Covers flatNet (isColoured coloured) y ∧
        coverValue (startTokens flatNet initial) y = value} opt ∧
      checkCover flatNet initial coloured cover =
        if slotCap < ⌊opt⌋ then .error s!"k={⌊opt⌋} exceeds {slotCap}" else .ok ⟨⌊opt⌋, opt⟩
  infeasible : ∀ places rows, answer = .infeasible places rows →
    ¬∃ y, Covers flatNet (isColoured coloured) y
  tooLarge : ∀ places rows, answer = .tooLarge places rows →
    past limits.maxPlaces places = true ∨ past limits.maxRows rows = true
  worked : ∀ pivots, answer = .workLimit pivots → limits.work ≠ none
  grown : ∀ pivots, answer = .coefficientLimit pivots → limits.coefficient ≠ none
  polled : answer = .stopped → ∃ poll, stop poll = true

theorem run_ends {n k : Nat} {t : SlotTableau n k} (limits : Limits) (stop : Nat → Bool) (tidy : Tidy t)
    (canonical : (dense t).Canonical) :
    ∃ fuel₀ outcome final, (∀ fuel ≥ fuel₀, t.run limits .bland stop fuel = some (.ok (outcome, final))) ∧
      Ends limits stop t outcome final := by
  by_cases within : t.fits limits = true
  · obtain ⟨fuel₀, result, ended⟩ := exists_rounds limits stop tidy canonical
    obtain ⟨outcome, final, rfl, ends⟩ := rounds_ends tidy canonical ended
    refine ⟨fuel₀, outcome, final, fun fuel enough => ?_, ends⟩
    rw [SlotTableau.run, if_pos within]
    exact rounds_mono tidy canonical enough ended
  · refine ⟨0, .coefficientLimit, t, fun fuel _ => ?_, tidy, canonical, .refl _, nofun, nofun, nofun,
      fun _ unlimited => within ?_, nofun⟩
    · rw [SlotTableau.run, if_neg within]
    · simp [SlotTableau.fits, fits_of_unlimited unlimited, rowFits_of_unlimited unlimited]

/-- With enough fuel the solver answers, and rightly. -/
theorem solveSlotBound_right (flatNet : FlatNet S) (initial : MarkingState) (coloured : List flatNet.Index)
    (limits : Limits) (stop : Nat → Bool) :
    ∃ fuel₀ answer, (∀ fuel ≥ fuel₀,
        solveSlotBound flatNet limits stop initial coloured fuel = some (.ok answer)) ∧
      CoverAnswers flatNet initial coloured limits stop answer := by
  obtain ⟨fuel₁, inU, upstreamed⟩ := exists_upstream (flatNet.transitions.map columnOf) (isColoured coloured)
  obtain ⟨program, presolved⟩ : ∃ program, ∀ fuel ≥ fuel₁,
      presolve flatNet (isColoured coloured) fuel = some program :=
    ⟨_, fun fuel enough => by rw [presolve, upstreamed fuel enough, Option.map_some]⟩
  have keeps := keeps_of_presolve (presolved fuel₁ le_rfl)
  by_cases large : (past limits.maxPlaces program.places.length ||
      past limits.maxRows program.rows.length) = true
  · refine ⟨fuel₁, .tooLarge program.places.length program.rows.length, fun fuel enough => ?_, nofun, nofun, fun places rows same => ?_, nofun,
      nofun, nofun⟩
    · rw [solveSlotBound, presolved fuel enough]
      exact if_pos large
    · cases same
      exact Bool.or_eq_true_iff.mp large
  obtain ⟨fuel₂, outcome, final, ended, ends⟩ := run_ends limits stop
    (tidy_tableau (startTokens flatNet initial) keeps) canonical_tableau
  have solved : ∀ fuel ≥ max fuel₁ fuel₂, solveSlotBound flatNet limits stop initial coloured fuel =
      some (.ok (program.answer (isColoured coloured) final outcome)) := by
    intro fuel enough
    rw [solveSlotBound, presolved fuel (le_of_max_le_left enough)]
    dsimp only
    rw [if_neg large, ended fuel (le_of_max_le_right enough), Option.map_some]
    rfl
  refine ⟨_, _, solved, ?_⟩
  cases outcome with
  | optimal =>
    refine ⟨fun cover places rows same => ?_, nofun, nofun, nofun, nofun, nofun⟩
    obtain ⟨rfl, -, -⟩ := LpAnswer.optimal.inj same
    obtain ⟨covers, least_⟩ := optimal_right keeps ends.tidy ends.canonical ends.same (ends.optimal rfl)
    refine ⟨_, ⟨⟨_, covers, rfl⟩, ?_⟩, checkCover_of_covers covers rfl⟩
    rintro _ ⟨y, covers', rfl⟩
    exact least_ y covers'
  | unbounded =>
    refine ⟨nofun, fun _ _ _ => ?_, nofun, nofun, nofun, nofun⟩
    rintro ⟨y, covers⟩
    obtain ⟨e, gains, unblocked⟩ := ends.unbounded rfl
    exact Tableau.dual_eq_empty canonical_tableau ends.same ends.canonical gains unblocked _
      (dual_of_covers keeps covers)
  | workLimit => exact ⟨nofun, nofun, nofun, fun _ _ => ends.worked rfl, nofun, nofun⟩
  | coefficientLimit => exact ⟨nofun, nofun, nofun, nofun, fun _ _ => ends.grown rfl, nofun⟩
  | stopped => exact ⟨nofun, nofun, nofun, nofun, nofun, fun _ => ends.polled rfl⟩

end Optimum

/-! ## The slot bound -/

/-- The answers that no limit and no stop gives. -/
inductive Decided : LpAnswer → Prop
  | optimal (cover : ScaledCover) (places rows : Nat) : Decided (.optimal cover places rows)
  | infeasible (places rows : Nat) : Decided (.infeasible places rows)

theorem CoverAnswers.decided {limits : Limits} {stop : Nat → Bool} {answer : LpAnswer}
    (h : CoverAnswers flatNet initial coloured limits stop answer) (unlimited : limits = .unlimited)
    (never : ∀ poll, stop poll = false) : Decided answer := by
  subst unlimited
  cases answer with
  | optimal cover places rows => exact .optimal cover places rows
  | infeasible places rows => exact .infeasible places rows
  | tooLarge places rows => rcases h.tooLarge places rows rfl with large | large <;> cases large
  | workLimit pivots => exact absurd rfl (h.worked pivots rfl)
  | coefficientLimit pivots => exact absurd rfl (h.grown pivots rfl)
  | stopped =>
    obtain ⟨poll, stops⟩ := h.polled rfl
    exact absurd ((never poll).symm.trans stops) Bool.false_ne_true

theorem CoverAnswers.infeasible_iff {limits : Limits} {stop : Nat → Bool} {answer : LpAnswer}
    (h : CoverAnswers flatNet initial coloured limits stop answer) (decided : Decided answer) :
    (∃ places rows, answer = .infeasible places rows) ↔ ¬∃ y, Covers flatNet (isColoured coloured) y := by
  cases decided with
  | optimal cover places rows =>
    obtain ⟨opt, ⟨⟨y, covers, -⟩, -⟩, -⟩ := h.optimal cover places rows rfl
    exact ⟨nofun, fun none_ => absurd ⟨y, covers⟩ none_⟩
  | infeasible places rows => exact ⟨fun _ => h.infeasible places rows rfl, fun _ => ⟨places, rows, rfl⟩⟩

/-- An accepted weighting bounds the coloured tokens of what firings reach, and so of what is reachable
where nothing is injected.  The solver ends with the least bound, or rightly says that there is none, or was
stopped by a limit. -/
theorem slotBound_right (flatNet : FlatNet S) (initial : MarkingState) (coloured : List flatNet.Index)
    (limits : Limits) (stop : Nat → Bool) :
    (∀ cover checked, checkCover flatNet initial coloured cover = .ok checked →
      (∀ labels s, FlatRun flatNet (flatNet.vectorize initial) labels s → (∀ l ∈ labels, l ≠ none) →
        (colouredTokens coloured s : ℤ) ≤ checked.k) ∧
      (resolveEnvInjection flatNet = [] → ∀ s, FlatReachable flatNet (flatNet.vectorize initial) s →
        (colouredTokens coloured s : ℤ) ≤ checked.k)) ∧
    ∃ fuel₀ answer, (∀ fuel ≥ fuel₀,
        solveSlotBound flatNet limits stop initial coloured fuel = some (.ok answer)) ∧
      CoverAnswers flatNet initial coloured limits stop answer ∧
      (limits = .unlimited → (∀ poll, stop poll = false) → Decided answer) ∧
      (Decided answer → ((∃ places rows, answer = .infeasible places rows) ↔
        ¬∃ y, Covers flatNet (isColoured coloured) y)) := by
  constructor
  · intro cover checked accepts
    have fired (labels : List (Option flatNet.Position)) (s : flatNet.State)
        (run : FlatRun flatNet (flatNet.vectorize initial) labels s) (fires : ∀ l ∈ labels, l ≠ none) :
        (colouredTokens coloured s : ℤ) ≤ checked.k := colouredTokens_le accepts run fires
    refine ⟨fired, fun closed s reachable => ?_⟩
    obtain ⟨labels, run⟩ := flatReachable_iff_run.mp reachable
    refine fired labels s run ?_
    clear fired reachable
    induction run with
    | start => exact fun _ mem => (by cases mem)
    | move l _ step ih =>
      intro l' mem
      rcases List.mem_append.mp mem with before | here
      · exact ih l' before
      · obtain rfl := List.mem_singleton.mp here
        cases step with
        | fire t _ _ => exact Option.some_ne_none t
        | inject pid bound listed _ =>
          rw [closed] at listed
          cases listed
  · obtain ⟨fuel₀, answer, solved, answers⟩ := solveSlotBound_right flatNet initial coloured limits stop
    exact ⟨fuel₀, answer, solved, answers, answers.decided, answers.infeasible_iff⟩

theorem slotBound_right_moveOnce :
    (colouredTokens [(1 : moveOnceNet.Index)] (moveOnceNet.vectorize moveOnceMarking) : ℤ) ≤ 1 ∧
      ∃ fuel₀ answer, ∀ fuel ≥ fuel₀, solveSlotBound moveOnceNet .verifier (fun _ => false)
        moveOnceMarking [(1 : moveOnceNet.Index)] fuel = some (.ok answer) := by
  obtain ⟨bounds, fuel₀, answer, solved, -⟩ := slotBound_right moveOnceNet moveOnceMarking
    [(1 : moveOnceNet.Index)] .verifier fun _ => false
  have accepted := bounds ⟨[1, 1], 1⟩ ⟨1, 1⟩ (by decide +kernel)
  exact ⟨accepted.1 [] _ .start fun _ mem => (by cases mem), fuel₀, answer, solved⟩

/-- A net of one place that tokens are injected into. -/
def injectedNet : FlatNet Unit where
  places := ["a"]
  transitions := []
  environmentBounds := OrderedMap.empty
  environmentInjection := setAll ["a"] none
  places_nodup := List.nodup_singleton "a"
  bounds_injected := nothing_capped _

instance : NeZero injectedNet.places.length := ⟨Nat.succ_ne_zero 0⟩

/-- The check does not look at injections. -/
theorem slotBound_injected :
    checkCover injectedNet MarkingState.empty [(0 : injectedNet.Index)] ⟨[1], 1⟩ = .ok ⟨0, 0⟩ ∧
      ∃ s, FlatReachable injectedNet (injectedNet.vectorize MarkingState.empty) s ∧
        (0 : ℤ) < colouredTokens [(0 : injectedNet.Index)] s := by
  refine ⟨by decide +kernel, injectA (injectedNet.vectorize MarkingState.empty) 0, ?_, by decide +kernel⟩
  refine .single (flatStep_iff_move.mpr ⟨none, .inject 0 none ?_ rfl⟩)
  decide +kernel

end LibPetri.Verified

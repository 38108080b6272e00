import LibPetri.Verified.Flattening
import LibPetri.Verified.TimedClasses
import LibPetri.Verified.Verdicts
import LibPetri.Verified.Violations

/-! # Three tests of a violation

The replayer's test on counts, the encoder's formula over them and the predicate of the graph route on a
class say the same of a marking of the flat places.
-/

namespace LibPetri.Verified

open LibPetri.Basis LibPetri.Basis.Smt LibPetri.Core LibPetri.Runtime LibPetri.Verification
open LibPetri.Verification.AbstractReplayer LibPetri.Verification.SmtEncoder TokenGame

/-! ## Markings of the flat places -/

section Markings

variable {S : Type} {flatNet : FlatNet S} {m : MarkingState} {sinkPlaces : List PlaceName}
  {conditionalSinks : List ConditionalSinks}

/-- Every token of a marking is in a flat place. -/
def Placed (flatNet : FlatNet S) (m : MarkingState) : Prop :=
  ∀ p, 0 < m.tokens p → p ∈ flatNet.places

theorem exists_placeAt {p : PlaceName} (mem : p ∈ flatNet.places) :
    ∃ pid, flatNet.placeAt pid = p := by
  obtain ⟨pid, found⟩ := Option.isSome_iff_exists.mp (flatNet.placeIndex_isSome.mpr mem)
  exact ⟨pid, flatNet.placeIndex_eq_some.mp found⟩

/-- What holds of the places with an index and of every other place, which is empty, holds of all. -/
theorem Placed.forall_iff (placed : Placed flatNet m) {P : PlaceName → Prop}
    (empty : ∀ p, m.tokens p = 0 → P p) : (∀ p, P p) ↔ ∀ pid, P (flatNet.placeAt pid) := by
  refine ⟨fun all pid => all _, fun all p => ?_⟩
  rcases Nat.eq_zero_or_pos (m.tokens p) with none | some_
  · exact empty p none
  · obtain ⟨pid, rfl⟩ := exists_placeAt (placed p some_)
    exact all pid

theorem Placed.exists_iff (placed : Placed flatNet m) {P : PlaceName → Prop} :
    (∃ p, 0 < m.tokens p ∧ P p) ↔
      ∃ pid, 0 < m.tokens (flatNet.placeAt pid) ∧ P (flatNet.placeAt pid) := by
  constructor
  · rintro ⟨p, some_, holds⟩
    obtain ⟨pid, rfl⟩ := exists_placeAt (placed p some_)
    exact ⟨pid, some_, holds⟩
  · rintro ⟨pid, holds⟩
    exact ⟨_, holds⟩

/-- A token is stranded on the counts where it is on the marking. -/
theorem strandsSome_vectorize (placed : Placed flatNet m) :
    strandsSome flatNet sinkPlaces conditionalSinks (flatNet.vectorize m) =
      strandsToken m sinkPlaces conditionalSinks := by
  rw [Bool.eq_iff_iff, strandsToken_iff, placed.exists_iff]
  unfold strandsSome
  rw [List.any_eq_true]
  refine exists_congr fun pid => ?_
  simp only [List.mem_finRange, true_and, strandingExcuses, Rests, not_or]
  by_cases excused : flatNet.placeAt pid ∈ sinkPlaces ∨
      ∃ c ∈ conditionalSinks, c.marker = flatNet.placeAt pid
  · rw [if_pos excused]
    refine iff_of_false (by simp) ?_
    rintro ⟨-, outside, other⟩
    rcases excused with sink | ⟨c, mem, same⟩
    · exact outside sink
    · exact other ⟨c, mem, .inl same.symm⟩
  · rw [if_neg excused]
    rw [not_or] at excused
    simp only [Bool.and_eq_true, decide_eq_true_eq, List.all_eq_true, List.mem_filter,
      List.mem_finRange, true_and, List.any_eq_true]
    refine and_congr_right fun _ => ?_
    constructor
    · refine fun unmarked => ⟨excused.1, ?_⟩
      rintro ⟨c, mem, same | ⟨marked, inside⟩⟩
      · exact excused.2 ⟨c, mem, same.symm⟩
      · obtain ⟨k, at_⟩ := exists_placeAt (placed _ marked)
        have : m.tokens (flatNet.placeAt k) = 0 := unmarked k ⟨c, mem, at_.symm, inside⟩
        rw [at_] at this
        omega
    · rintro ⟨-, other⟩ k ⟨c, mem, at_, inside⟩
      by_contra marked
      have some_ : m.tokens (flatNet.placeAt k) ≠ 0 := marked
      exact other ⟨c, mem, .inr ⟨by rw [at_]; omega, inside⟩⟩

/-- The counts across some places, each counted once. -/
theorem sum_indexOrdered (placed : Placed flatNet m) (places : List PlaceName) :
    ((indexOrdered flatNet places).map (flatNet.vectorize m)).sum =
      ∑ p ∈ places.toFinset, m.tokens p := by
  have nodup : (indexOrdered flatNet places).Nodup := (List.nodup_finRange _).filter _
  rw [← List.sum_toFinset _ nodup]
  have image : (indexOrdered flatNet places).toFinset.image flatNet.placeAt ⊆ places.toFinset := by
    intro p mem
    obtain ⟨pid, listed, rfl⟩ := Finset.mem_image.mp mem
    rw [List.mem_toFinset, mem_indexOrdered] at listed
    exact List.mem_toFinset.mpr listed
  rw [← Finset.sum_subset image]
  · exact (Finset.sum_image fun a _ b _ same => flatNet.placeAt_injective same).symm
  · intro p mem other
    by_contra some_
    obtain ⟨pid, rfl⟩ := exists_placeAt (placed p (Nat.pos_of_ne_zero some_))
    refine other (Finset.mem_image.mpr ⟨pid, ?_, rfl⟩)
    rw [List.mem_toFinset, mem_indexOrdered]
    exact List.mem_toFinset.mp mem

theorem forall_indexOrdered (placed : Placed flatNet m) (places : List PlaceName) :
    ((indexOrdered flatNet places).all fun pid => flatNet.vectorize m pid = 0) = true ↔
      ∀ p ∈ places, m.tokens p = 0 := by
  rw [placed.forall_iff (P := fun p => p ∈ places → m.tokens p = 0) fun p none _ => none]
  simp only [List.all_eq_true, mem_indexOrdered, decide_eq_true_eq]
  rfl

/-- A property that names some place where it takes a list of them. -/
def NamesSome : SmtProperty → Prop
  | .unreachable places => places ≠ []
  | .quiescentCount places _ _ _ => places ≠ []
  | _ => True

variable (sinkPlaces conditionalSinks) in
/-- The replayer's test of a marking reads as the graph route's. -/
theorem flatViolates_iff (placed : Placed flatNet m) {property : SmtProperty}
    (resolves : Resolves flatNet property) (names : NamesSome property)
    (unaligned : property.routeBOnlyReason = none) :
    FlatViolates flatNet property sinkPlaces conditionalSinks (flatNet.vectorize m) ↔
      match safetyViolation property with
      | some violates => violates m = true
      | none => isQuiescent flatNet (flatNet.vectorize m) = true ∧
          restViolation property sinkPlaces conditionalSinks m = true := by
  unfold FlatViolates satisfiesBad
  have above (place : PlaceName) (bound : Bound) (mem : place ∈ flatNet.places) :
      satisfiesBad.aboveBound flatNet (flatNet.vectorize m) place bound =
        decide (bound < ((m.tokens place : ℚ) : Bound)) := by
    obtain ⟨pid, rfl⟩ := exists_placeAt mem
    unfold satisfiesBad.aboveBound
    rw [FlatNet.placeIndex_placeAt]
    rfl
  cases property with
  | deadlockFree =>
    simp only [safetyViolation, restViolation, Except.ok.injEq, Bool.and_eq_true,
      strandsSome_vectorize placed]
  | terminatesAtSink =>
    simp only [safetyViolation, restViolation, Except.ok.injEq, Bool.and_eq_true,
      forall_indexOrdered placed, Bool.not_eq_true', anySinkMarked_eq_false]
  | mutualExclusion p1 p2 =>
    obtain ⟨i, rfl⟩ := exists_placeAt (resolves p1 (by simp [propertyPlaces]))
    obtain ⟨j, rfl⟩ := exists_placeAt (resolves p2 (by simp [propertyPlaces]))
    simp only [safetyViolation, FlatNet.placeIndex_placeAt, Except.ok.injEq, Bool.and_eq_true,
      MarkingState.hasTokens_iff, decide_eq_true_eq]
    rfl
  | placeBound place bound =>
    have reads := above place bound (resolves place (by simp [propertyPlaces]))
    simp only [safetyViolation, Except.ok.injEq, reads]
  | branchPlaceBound place bound =>
    have reads := above place bound (resolves place (by simp [propertyPlaces]))
    simp only [safetyViolation, Except.ok.injEq, reads]
  | unreachable places =>
    have some_ : places.filterMap flatNet.placeIndex ≠ [] := by
      obtain ⟨p, mem⟩ := List.exists_mem_of_ne_nil _ names
      obtain ⟨pid, rfl⟩ := exists_placeAt (resolves p mem)
      exact List.ne_nil_of_mem (mem_filterMap_placeIndex.mpr mem)
    simp only [safetyViolation, Except.ok.injEq, Bool.and_eq_true, List.all_eq_true,
      decide_eq_true_eq, some_, ne_eq, not_false_eq_true, and_true, mem_filterMap_placeIndex,
      MarkingState.hasTokens_iff]
    constructor
    · intro marked p mem
      obtain ⟨pid, rfl⟩ := exists_placeAt (resolves p mem)
      exact marked pid mem
    · exact fun marked pid mem => marked _ mem
  | joinedOrDeadLettered pending =>
    obtain ⟨pid, rfl⟩ := exists_placeAt (resolves pending (by simp [propertyPlaces]))
    simp only [safetyViolation, restViolation, FlatNet.placeIndex_placeAt, Except.ok.injEq,
      Bool.and_eq_true, MarkingState.hasTokens_iff, decide_eq_true_eq]
    rfl
  | quiescentCount places min max waivedBy =>
    simp only [safetyViolation, restViolation, Except.ok.injEq, Bool.and_eq_true, Bool.or_eq_true,
      decide_eq_true_eq, sum_indexOrdered placed, forall_indexOrdered placed,
      countViolation_isSome]
  | nameAligned places => cases unaligned
  | quiescentNameAligned places => cases unaligned

end Markings

/-! ## Quiescence -/

section Quiescence

variable {V N : Type} {net : PetriNet V N} {m : MarkingState}

/-- The reapable set of a list of transition names. -/
def reapableNames (names : List String) : Transition V N → Bool := fun t => t.name ∈ names

theorem flatten_ignored {env : Environment} (ignore : env.mode = .ignore)
    (reapable : Transition V N → Bool) :
    flatten net env reapable = .ok (closedFlatNet net reapable) := by
  unfold flatten
  rw [ignore]
  rfl

/-- Without injection a flat transition is enabled at rest where it is in a run. -/
theorem enabledRelaxEnv_closed {reapable : Transition V N → Bool}
    {s : (closedFlatNet net reapable).State}
    {ft : FlatTransition (NetTransition net) (closedFlatNet net reapable).places.length} :
    enabledRelaxEnv (closedFlatNet net reapable) s ft = enabledA s ft := by
  have own (p : (closedFlatNet net reapable).Index) (need : Nat) :
      supplies (closedFlatNet net reapable) s p need = decide (need ≤ s p) := rfl
  rw [Bool.eq_iff_iff, enabledA_iff_conditions]
  unfold enabledRelaxEnv
  simp only [own, Bool.and_eq_true, List.all_eq_true, List.mem_finRange, true_implies,
    Bool.or_eq_true, decide_eq_true_eq, and_assoc]
  refine and_congr_left' (forall_congr' fun p => ?_)
  omega

/-- The counts of a marking rest where the marking enables only what may be reaped. -/
theorem isQuiescent_closed {reapable : Transition V N → Bool} :
    isQuiescent (closedFlatNet net reapable) ((closedFlatNet net reapable).vectorize m) = true ↔
      ∀ t : NetTransition net, Enabled (transitionAt t) m.tokens →
        reapable (transitionAt t) = true := by
  unfold isQuiescent
  simp only [List.all_eq_true, Bool.or_eq_true, Bool.not_eq_true', enabledRelaxEnv_closed]
  constructor
  · intro rest t can
    obtain ⟨o, outcome⟩ := List.exists_mem_of_ne_nil _ (outcomes_ne_nil (transitionAt t))
    obtain ⟨i, lt, rfl⟩ := List.mem_iff_getElem.mp outcome
    have listed : flatTransition (flatPlaces net) reapable t (outcomes (transitionAt t)).length i
        (outcomes (transitionAt t))[i] ∈ (closedFlatNet net reapable).transitions :=
      List.mem_flatMap.mpr ⟨t, List.mem_finRange t, List.mem_mapIdx.mpr ⟨i, lt, rfl⟩⟩
    rcases rest _ listed with reaped | disabled
    · exact reaped
    · have enabled : enabledA (fun p => m.tokens (flatPlaces net)[p]) (flatTransition (flatPlaces net)
          reapable t (outcomes (transitionAt t)).length i (outcomes (transitionAt t))[i]) = true :=
        enabledA_iff.mpr can
      exact absurd enabled (Bool.eq_false_iff.mp disabled)
  · intro rest ft listed
    obtain ⟨t, -, listed⟩ := List.mem_flatMap.mp listed
    obtain ⟨i, lt, rfl⟩ := List.mem_mapIdx.mp listed
    by_cases can : Enabled (transitionAt t) m.tokens
    · exact .inl (rest t can)
    · exact .inr (Bool.eq_false_iff.mpr fun enabled => can (enabledA_iff.mp enabled))

end Quiescence

/-! ## Agreement -/

/-- An exploration that ignores the timing runs in whole seconds. -/
theorem AtOnce.runsInUnits {V N : Type} {net : PetriNet V N} {untimed : Bool}
    (atOnce : AtOnce net untimed) : RunsInUnits net untimed (AddSubgroup.zmultiples 1) := by
  refine ⟨fun q mem negative => ?_, fun t => ?_⟩
  · obtain ⟨n, rfl⟩ := AddSubgroup.mem_zmultiples_iff.mp mem
    rw [zsmul_one] at negative ⊢
    have : n ≤ -1 := by
      have : n < 0 := by exact_mod_cast negative
      omega
    have : (n : ℚ) ≤ -1 := by exact_mod_cast this
    refine lt_of_le_of_lt this ?_
    norm_num [EPSILON]
  · have immediate : StateClassGraph.clockOf untimed t = ⟨(transitionAt t).name, 0, ((3153600000 : ℚ) : Bound)⟩ := by
      unfold StateClassGraph.clockOf
      rw [atOnce.immediate]
      norm_num [Timing.earliest, Timing.latest, MAX_DURATION_MS]
    rw [immediate]
    refine ⟨AddSubgroup.zero_mem _, fun q same => ?_⟩
    rw [← WithTop.coe_inj.mp same]
    exact AddSubgroup.mem_zmultiples_iff.mpr ⟨3153600000, by norm_num⟩

/-- **The tests agree.**  The replayer's test of a marking holds exactly when the encoder's formula is true
of it, and, where nothing is injected, exactly when the predicate of the graph route is true of an
expanded class with that marking whose domain has readings.  All domains have where the clocks run in
units above `EPSILON`. -/
theorem violation_tests_agree (property : SmtProperty) (sinkPlaces : List PlaceName)
    (conditionalSinks : List ConditionalSinks) (names : NamesSome property)
    (unaligned : property.routeBOnlyReason = none) :
    (∀ {S : Type} (flatNet : FlatNet S) (s : flatNet.State), Resolves flatNet property →
      (satisfiesBad flatNet property sinkPlaces conditionalSinks s = .ok true ↔
        ∃ f, encodePropertyViolation flatNet (fun p => .var p) property sinkPlaces conditionalSinks =
          some f ∧ f.Holds fun p => (s p : ℚ))) ∧
    ∀ {V N : Type} {net : PetriNet V N} {env : Environment} {initialMarking : MarkingState}
      {maxClasses : Nat} {untimed stubborn : Bool} {g : StateClassGraph net} (reapable : List String),
      env.mode = .ignore →
      StateClassGraph.build net initialMarking maxClasses env ⟨untimed, stubborn⟩ = .ok g →
      (stubborn = true → AtOnce net untimed) →
      flatten net env (reapableNames reapable) = .ok (closedFlatNet net (reapableNames reapable)) ∧
      (Resolves (closedFlatNet net (reapableNames reapable)) property →
        ∀ i c, g.classes[i]? = some c → i < g.expanded →
          Placed (closedFlatNet net (reapableNames reapable)) c.marking →
          (∃ θ : Nat → ℚ, Contains c.firingDomain θ) →
          (classViolates (ScgVerifier.classView g reapable) property sinkPlaces conditionalSinks i =
              true ↔
            satisfiesBad (closedFlatNet net (reapableNames reapable)) property sinkPlaces
              conditionalSinks ((closedFlatNet net (reapableNames reapable)).vectorize c.marking) =
                .ok true)) ∧
      ((∃ G, RunsInUnits net untimed G) →
        ∀ c ∈ g.classes, ∃ θ : Nat → ℚ, Contains c.firingDomain θ) := by
  refine ⟨fun {S} flatNet s resolves => ?_, fun {V N net env initialMarking maxClasses untimed
    stubborn g} reapable ignore built reduced => ⟨flatten_ignored ignore _, ?_, ?_⟩⟩
  · have now : Denotes (fun p => (s p : ℚ)) (fun p => .var p) s := fun p => eval_var p
    constructor
    · intro violates
      obtain ⟨f, found⟩ : ∃ f, encodePropertyViolation flatNet (fun p => .var p) property sinkPlaces
          conditionalSinks = some f := by
        have bounded (place : PlaceName) (bound : Bound)
            (above : satisfiesBad.aboveBound flatNet s place bound = true) :
            ∃ f, encodePropertyViolation.exceeds flatNet (fun p => .var p) place bound = some f := by
          cases bound with
          | some bound => exact ⟨_, rfl⟩
          | none =>
            unfold satisfiesBad.aboveBound at above
            split at above
            next => cases above
            next idx _ =>
              exact absurd (of_decide_eq_true (p := (⊤ : Bound) < ((s idx : ℚ) : Bound)) above)
                not_top_lt
        cases property with
        | placeBound place bound => exact bounded place bound (Except.ok.inj violates)
        | branchPlaceBound place bound => exact bounded place bound (Except.ok.inj violates)
        | nameAligned places => cases unaligned
        | quiescentNameAligned places => cases unaligned
        | _ => exact ⟨_, rfl⟩
      exact ⟨f, found, (holds_violation now found).1 violates⟩
    · rintro ⟨f, found, holds⟩
      exact (holds_violation now found).2 resolves holds
  · intro resolves i c at_ expanded placed readings
    have tested := flatViolates_iff sinkPlaces conditionalSinks placed resolves names unaligned
    have marking : (ScgVerifier.classView g reapable).markingOf i = c.marking := by
      simp [ScgVerifier.classView, at_]
    have rests := classView_isQuiescent_iff ignore built reduced reapable at_ expanded readings
    have flatRests : isQuiescent (closedFlatNet net (reapableNames reapable))
        ((closedFlatNet net (reapableNames reapable)).vectorize c.marking) = true ↔
        ∀ t : NetTransition net, Enabled (transitionAt t) c.marking.tokens →
          reapableNames reapable (transitionAt t) = true := isQuiescent_closed
    have same : (ScgVerifier.classView g reapable).isQuiescent i = true ↔
        isQuiescent (closedFlatNet net (reapableNames reapable))
          ((closedFlatNet net (reapableNames reapable)).vectorize c.marking) = true := by
      rw [rests, flatRests]
      simp only [reapableNames, decide_eq_true_eq]
    refine Iff.trans ?_ tested.symm
    unfold classViolates
    rw [marking]
    cases safetyViolation property with
    | some violates => exact Iff.rfl
    | none =>
      dsimp only
      rw [Bool.and_eq_true, same]
  · rintro ⟨G, runs⟩ c mem
    exact (classes_regular ignore built runs c mem).canonical.exists_contains

theorem movingNet_resolves :
    Resolves (closedFlatNet movingNet (reapableNames [])) (.placeBound "b" 0) := by
  intro p mem
  rw [List.mem_singleton.mp mem]
  decide +kernel

theorem moved_placed : Placed (closedFlatNet movingNet (reapableNames [])) movedMarking := by
  intro p marked
  have : p ∈ movedMarking.placesWithTokens := MarkingState.mem_placesWithTokens.mpr marked
  have all : ∀ p ∈ movedMarking.placesWithTokens,
      p ∈ (closedFlatNet movingNet (reapableNames [])).places := by decide +kernel
  exact all p this

/-- The moved token breaks its bound on the counts and in the graph. -/
theorem violation_tests_agree_moving :
    satisfiesBad (closedFlatNet movingNet (reapableNames [])) (.placeBound "b" 0) [] []
      ((closedFlatNet movingNet (reapableNames [])).vectorize movedMarking) = .ok true := by
  have built : StateClassGraph.build movingNet movingMarking 10 closedEnvironment ⟨true, false⟩ =
    .ok movingGraph := rfl
  have agree := violation_tests_agree (.placeBound "b" 0) [] [] trivial rfl
  obtain ⟨-, tests, readings⟩ := agree.2 [] rfl built nofun
  have runs : RunsInUnits movingNet true (AddSubgroup.zmultiples 1) := AtOnce.runsInUnits (.inl rfl)
  have at_ : (movingGraph.classes[1]?).map StateClass.marking = some movedMarking := by decide +kernel
  obtain ⟨c, there, same⟩ := Option.map_eq_some_iff.mp at_
  have tested := tests movingNet_resolves 1 c there (by decide +kernel) (same ▸ moved_placed)
    (readings ⟨_, runs⟩ c (List.mem_iff_getElem?.mpr ⟨1, there⟩))
  rw [same] at tested
  exact tested.mp (by decide +kernel)

/-! ## Timings less than a nanosecond apart -/

/-- An exact timing in the first second. -/
theorem exact_valid {atMs : Ms} (nonneg : 0 ≤ atMs) (early : atMs ≤ 1000) :
    (Timing.exact atMs).Valid :=
  ⟨nonneg, le_trans early (by norm_num [MAX_DURATION_MS])⟩

/-- Two transitions due one after the other, at distinct times less than a nanosecond apart. -/
def racingNet : PetriNet Unit Unit :=
  netOf ["p", "q"]
    [{ immediateTransition "a" (some "p") [] none with
        timing := .exact 1
        timing_valid := exact_valid (by norm_num) (by norm_num) },
     { immediateTransition "b" (some "q") [] none with
        timing := .exact (1 + 2 / 10 ^ 8)
        timing_valid := exact_valid (by norm_num) (by norm_num) }]

def racingGraph : StateClassGraph racingNet :=
  Exploration.build StateClassGraph.classKey
    (StateClassGraph.successors closedEnvironment false false) 10
    (StateClassGraph.initialStateClass racingNet closedEnvironment false
      ((MarkingState.empty.addTokens "p" 1).addTokens "q" 1))

/-- The class behind the firing of the later transition enables the earlier one, which has no successor
there. -/
theorem racing_tests_differ :
    StateClassGraph.build racingNet ((MarkingState.empty.addTokens "p" 1).addTokens "q" 1) 10
        closedEnvironment ⟨false, false⟩ = .ok racingGraph ∧
      racingGraph.classes[2]?.map (fun c => c.marking.placesWithTokens) = some ["p"] ∧
      2 < racingGraph.expanded ∧
      classViolates (ScgVerifier.classView racingGraph []) .deadlockFree [] [] 2 = true ∧
      racingGraph.classes[2]?.map (fun c => satisfiesBad (closedFlatNet racingNet (reapableNames []))
        .deadlockFree [] [] ((closedFlatNet racingNet (reapableNames [])).vectorize c.marking)) =
          some (.ok false) := by
  refine ⟨rfl, by decide +kernel, by decide +kernel, by decide +kernel, ?_⟩
  decide +kernel

end LibPetri.Verified

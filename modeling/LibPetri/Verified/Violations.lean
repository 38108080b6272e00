import LibPetri.Verified.Encodings

/-! # Encoded violations

The formula of a violated property and the replayer's test for it agree on every state, for a property
whose places resolve.
-/

namespace LibPetri.Verified

open LibPetri.Basis LibPetri.Basis.Smt LibPetri.Core LibPetri.Runtime LibPetri.Verification
open LibPetri.Verification.AbstractReplayer LibPetri.Verification.SmtEncoder

variable {S V : Type} {a : V → ℚ} {R : List ℚ → Prop} {flatNet : FlatNet S} {s : flatNet.State}
  {mVars : flatNet.Index → Term V}

/-! ## Injection bounds -/

/-- How a place is injected: not at all, or with a bound. -/
def injectionOf (flatNet : FlatNet S) (p : flatNet.Index) : Option (Option Nat) :=
  flatNet.environmentInjection.get? (flatNet.placeAt p)

theorem lookup_filterMap {α β : Type} [DecidableEq α] {f : α → Option β} {items : List α} {p : α}
    (nodup : items.Nodup) (mem : p ∈ items) :
    (items.filterMap fun q => (f q).map fun b => (q, b)).lookup p = f p := by
  induction items with
  | nil => cases mem
  | cons q items ih =>
    rw [List.nodup_cons] at nodup
    rw [List.filterMap_cons]
    rcases List.mem_cons.mp mem with rfl | later
    · cases at_ : f p with
      | none =>
        dsimp only [Option.map_none]
        rw [OrderedMap.lookup_eq_none_iff]
        intro listed
        obtain ⟨⟨r, b⟩, found, rfl⟩ := List.mem_map.mp listed
        obtain ⟨r', here, same⟩ := List.mem_filterMap.mp found
        obtain ⟨b', -, same⟩ := Option.map_eq_some_iff.mp same
        obtain ⟨rfl, -⟩ := Prod.mk.inj same
        exact nodup.1 here
      | some b =>
        dsimp only [Option.map_some]
        rw [List.lookup_cons, beq_self_eq_true]
    · have other : (p == q) = false := by
        rw [beq_eq_false_iff_ne]
        rintro rfl
        exact nodup.1 later
      cases f q with
      | none => exact ih nodup.2 later
      | some b =>
        dsimp only [Option.map_some]
        rw [List.lookup_cons, other]
        exact ih nodup.2 later

theorem lookup_resolveEnvInjection (p : flatNet.Index) :
    (resolveEnvInjection flatNet).lookup p = injectionOf flatNet p :=
  lookup_filterMap (f := injectionOf flatNet) (List.nodup_finRange _) (List.mem_finRange p)

theorem lookup_envInj (p : flatNet.Index) :
    (envInj flatNet).lookup p = injectionOf flatNet p := by
  have listed (q : flatNet.Index) (bound : Option Nat) :
      (q, bound) ∈ envInj flatNet ↔ injectionOf flatNet q = some bound := by
    rw [injectionOf, OrderedMap.get?_eq_some_iff, envInj, List.mem_filterMap]
    constructor
    · rintro ⟨⟨name, b⟩, entry, found⟩
      obtain ⟨r, at_, same⟩ := Option.map_eq_some_iff.mp found
      obtain ⟨rfl, rfl⟩ := Prod.mk.inj same
      exact flatNet.placeIndex_eq_some.mp at_ ▸ entry
    · intro entry
      exact ⟨_, entry, by rw [FlatNet.placeIndex_placeAt]; rfl⟩
  cases at_ : injectionOf flatNet p with
  | none =>
    rw [OrderedMap.lookup_eq_none_iff]
    intro mem
    obtain ⟨⟨q, bound⟩, entry, rfl⟩ := List.mem_map.mp mem
    have := (listed _ _).mp entry
    rw [at_] at this
    cases this
  | some bound =>
    cases found : (envInj flatNet).lookup p with
    | none =>
      rw [OrderedMap.lookup_eq_none_iff] at found
      exact absurd (List.mem_map_of_mem ((listed _ _).mpr at_)) found
    | some bound' =>
      obtain ⟨before, after, split, -⟩ := List.lookup_eq_some_iff.mp found
      have entry : (p, bound') ∈ envInj flatNet := by rw [split]; simp
      rw [← at_, (listed _ _).mp entry]

/-! ## Quiescence -/

theorem supplies_iff {p : flatNet.Index} {need : Nat} :
    supplies flatNet s p need = true ↔
      (∀ bound ∈ injectionOf flatNet p, ∀ k ∈ bound, need ≤ k) ∧
        (injectionOf flatNet p = none → need ≤ s p) := by
  unfold supplies
  rw [lookup_envInj]
  rcases injectionOf flatNet p with _ | _ | k <;> simp

theorem exceedsInjection_iff {p : flatNet.Index} {need : Nat} :
    exceedsInjection flatNet p need = true ↔ ∃ bound ∈ injectionOf flatNet p, ∃ k ∈ bound, k < need := by
  unfold exceedsInjection
  rw [lookup_resolveEnvInjection]
  rcases injectionOf flatNet p with _ | _ | k <;> simp

theorem isInjected_iff {p : flatNet.Index} :
    isInjected flatNet p = false ↔ injectionOf flatNet p = none := by
  rw [isInjected, lookup_resolveEnvInjection, Option.isSome_eq_false_iff, Option.isNone_iff_eq_none]

/-- A demand that no injection meets is not met; any other one is met by injection or by tokens. -/
theorem not_supplies_iff {p : flatNet.Index} {need : Nat} :
    supplies flatNet s p need = false ↔
      exceedsInjection flatNet p need = true ∨ isInjected flatNet p = false ∧ s p < need := by
  rw [← Bool.not_eq_true, supplies_iff, exceedsInjection_iff, isInjected_iff, not_and_or]
  push Not
  rfl

theorem enabledRelaxEnv_eq_false {ft : FlatTransition S flatNet.places.length} :
    enabledRelaxEnv flatNet s ft = false ↔
      (∃ p, 0 < ft.preVector p ∧ supplies flatNet s p (ft.preVector p) = false) ∨
        (∃ p ∈ ft.readPlaces, supplies flatNet s p 1 = false) ∨ ∃ p ∈ ft.inhibitorPlaces, s p ≠ 0 := by
  unfold enabledRelaxEnv
  simp only [Bool.and_eq_false_iff, List.all_eq_false, List.mem_finRange, true_and,
    Bool.not_eq_true, Bool.or_eq_false_iff, decide_eq_false_iff_not, Nat.pos_iff_ne_zero, or_assoc,
    ne_eq]

section Quiescence

variable (now : Denotes a mVars s)

include now in
theorem holds_disableReasons {ft : FlatTransition S flatNet.places.length} :
    (∃ f ∈ disableReasons flatNet mVars ft, f.HoldsWith a R) ↔
      (∃ p, 0 < ft.preVector p ∧ isInjected flatNet p = false ∧ s p < ft.preVector p) ∨
        (∃ p ∈ ft.readPlaces, isInjected flatNet p = false ∧ s p < 1) ∨
          ∃ p ∈ ft.inhibitorPlaces, s p ≠ 0 := by
  have demand (p : flatNet.Index) (need : Nat) :
      (Formula.lt (mVars p) (num need)).HoldsWith a R ↔ s p < need := by
    rw [holds_lt, now, eval_num]
    norm_cast
  have blocked (p : flatNet.Index) :
      (Formula.gt (mVars p) (num 0)).HoldsWith a R ↔ s p ≠ 0 := by
    rw [holds_lt, now, eval_num]
    norm_cast
    omega
  have once (p : flatNet.Index) :
      (Formula.lt (mVars p) (num 1)).HoldsWith a R ↔ s p < 1 := demand p 1
  unfold disableReasons
  simp only [List.mem_append, List.mem_map, List.mem_filter, List.mem_finRange, true_and,
    Bool.and_eq_true, decide_eq_true_eq, Bool.not_eq_true', or_and_right, exists_or, ↓existsAndEq,
    demand, blocked, once, and_assoc]
  exact or_assoc.trans (or_congr_right or_comm)

include now in
/-- The condition of a disabled transition, where some marking disables it. -/
theorem holds_disabledCondition (ft : FlatTransition S flatNet.places.length) :
    (disabledCondition flatNet mVars ft = none → enabledRelaxEnv flatNet s ft = true) ∧
      ∀ f, disabledCondition flatNet mVars ft = some f →
        (f.HoldsWith a R ↔ enabledRelaxEnv flatNet s ft = false) := by
  have permanent : permanentlyDisabled flatNet ft = true ↔
      (∃ p, 0 < ft.preVector p ∧ exceedsInjection flatNet p (ft.preVector p) = true) ∨
        ∃ p ∈ ft.readPlaces, exceedsInjection flatNet p 1 = true := by
    unfold permanentlyDisabled
    simp only [Bool.or_eq_true, List.any_eq_true, List.mem_finRange, true_and, Bool.and_eq_true,
      decide_eq_true_eq]
  have disabled : enabledRelaxEnv flatNet s ft = false ↔ permanentlyDisabled flatNet ft = true ∨
      ∃ f ∈ disableReasons flatNet mVars ft, f.HoldsWith a R := by
    rw [enabledRelaxEnv_eq_false, permanent, holds_disableReasons now]
    simp only [not_supplies_iff, and_or_left, exists_or]
    exact (or_congr_right or_assoc).trans or_or_or_comm
  unfold disabledCondition
  by_cases always : permanentlyDisabled flatNet ft = true
  · rw [if_pos always]
    refine ⟨(fun h => by cases h), fun f same => ?_⟩
    obtain rfl := Option.some.inj same
    exact ⟨fun _ => disabled.mpr (.inl always), fun _ => holds_tt⟩
  · rw [if_neg always]
    by_cases none : disableReasons flatNet mVars ft = []
    · rw [if_pos none]
      refine ⟨fun _ => ?_, (fun _ same => by cases same)⟩
      rw [← Bool.not_eq_false, disabled, none]
      simp [always]
    · rw [if_neg none]
      refine ⟨(fun h => by cases h), fun f same => ?_⟩
      obtain rfl := Option.some.inj same
      rw [holds_or, disabled, or_iff_right always]

include now in
/-- A quiescence property: the state rests, and what it adds holds. -/
theorem holds_quiescent (own : List (Formula V)) :
    (quiescent flatNet mVars own).HoldsWith a R ↔
      isQuiescent flatNet s = true ∧ ∀ f ∈ own, f.HoldsWith a R := by
  have encoded : (encodeQuiescent flatNet mVars = none → isQuiescent flatNet s = false) ∧
      ∀ conditions, encodeQuiescent flatNet mVars = some conditions →
        ((∀ f ∈ conditions, f.HoldsWith a R) ↔ isQuiescent flatNet s = true) := by
    unfold encodeQuiescent isQuiescent
    induction flatNet.transitions with
    | nil => simp
    | cons ft fts ih =>
      obtain ⟨always, sometimes⟩ := holds_disabledCondition (R := R) now ft
      rw [List.all_cons, List.filter_cons]
      by_cases reapable : ft.reapable = true
      · simpa [reapable] using ih
      · rw [Bool.not_eq_true] at reapable
        simp only [reapable, Bool.not_false, ↓reduceIte, List.mapM_cons, Bool.false_or]
        cases found : disabledCondition flatNet mVars ft with
        | none => simp [always found]
        | some f =>
          cases rest : (fts.filter fun ft => !ft.reapable).mapM (disabledCondition flatNet mVars) with
          | none =>
            have awake := ih.1 rest
            simp [awake]
          | some conditions =>
            have resting := ih.2 conditions rest
            simp [resting, sometimes f found]
  unfold quiescent
  cases found : encodeQuiescent flatNet mVars with
  | none =>
    have awake := encoded.1 found
    simp [awake]
  | some conditions =>
    have resting := encoded.2 conditions found
    dsimp only
    rw [← resting, ← List.forall_mem_append, joinConditions]
    split
    next none => simp [none]
    next => exact holds_and _

end Quiescence

/-! ## Properties -/

/-- The state violates the property, as the replayer tests it. -/
def FlatViolates (flatNet : FlatNet S) (property : SmtProperty) (sinkPlaces : List PlaceName)
    (conditionalSinks : List ConditionalSinks) (s : flatNet.State) : Prop :=
  satisfiesBad flatNet property sinkPlaces conditionalSinks s = .ok true

/-- The places a property names. -/
def propertyPlaces : SmtProperty → List PlaceName
  | .deadlockFree => []
  | .terminatesAtSink => []
  | .mutualExclusion p1 p2 => [p1, p2]
  | .placeBound place _ => [place]
  | .branchPlaceBound place _ => [place]
  | .unreachable places => places
  | .joinedOrDeadLettered pending => [pending]
  | .quiescentCount places _ _ waivedBy => places ++ waivedBy
  | .nameAligned places => places
  | .quiescentNameAligned places => places

/-- Every place of the property is a place of the net. -/
def Resolves (flatNet : FlatNet S) (property : SmtProperty) : Prop :=
  ∀ p ∈ propertyPlaces property, p ∈ flatNet.places

section Properties

theorem mem_indexOrdered {places : List PlaceName} {p : flatNet.Index} :
    p ∈ indexOrdered flatNet places ↔ flatNet.placeAt p ∈ places := by
  simp [indexOrdered]

theorem mem_filterMap_placeIndex {places : List PlaceName} {p : flatNet.Index} :
    p ∈ places.filterMap flatNet.placeIndex ↔ flatNet.placeAt p ∈ places := by
  rw [List.mem_filterMap]
  constructor
  · rintro ⟨name, mem, found⟩
    exact flatNet.placeIndex_eq_some.mp found ▸ mem
  · exact fun mem => ⟨_, mem, flatNet.placeIndex_placeAt p⟩

variable (now : Denotes a mVars s)

include now

theorem holds_marked {places : List PlaceName} :
    (encodePropertyViolation.marked flatNet mVars places).HoldsWith a R ↔
      (∃ p, flatNet.placeAt p ∈ places) ∧ ∀ p, flatNet.placeAt p ∈ places → 1 ≤ s p := by
  have atLeast (p : flatNet.Index) :
      (Formula.ge (mVars p) (num 1)).HoldsWith a R ↔ 1 ≤ s p := by
    rw [holds_le, now, eval_num]
    norm_cast
  unfold encodePropertyViolation.marked encodePropertyViolation.indexOrdered
  dsimp only
  split
  next none =>
    rw [List.map_eq_nil_iff, List.eq_nil_iff_forall_not_mem] at none
    simp only [mem_indexOrdered] at none
    simp [none]
  next some =>
    rw [List.map_eq_nil_iff, List.eq_nil_iff_forall_not_mem] at some
    simp only [mem_indexOrdered] at some
    push Not at some
    simp only [holds_and, List.forall_mem_map, mem_indexOrdered, atLeast, some, true_and]

theorem holds_exceeds {place : PlaceName} {bound : Bound} {f : Formula V}
    (found : encodePropertyViolation.exceeds flatNet mVars place bound = some f) :
    f.HoldsWith a R ↔ satisfiesBad.aboveBound flatNet s place bound = true := by
  cases bound with
  | none => cases found
  | some bound =>
    obtain rfl := Option.some.inj found
    unfold satisfiesBad.aboveBound
    cases flatNet.placeIndex place with
    | none => simp
    | some pid =>
      simp only [holds_lt, eval_lit, now pid, decide_eq_true_eq, Rat.cast_id]
      exact WithTop.coe_lt_coe.symm

theorem holds_strandedConditions (sinkPlaces : List PlaceName)
    (conditionalSinks : List ConditionalSinks) :
    (∃ f ∈ strandedConditions flatNet mVars sinkPlaces conditionalSinks, f.HoldsWith a R) ↔
      strandsSome flatNet sinkPlaces conditionalSinks s = true := by
  have atLeast (p : flatNet.Index) :
      (Formula.ge (mVars p) (num 1)).HoldsWith a R ↔ 1 ≤ s p := by
    rw [holds_le, now, eval_num]
    norm_cast
  have unmarked (p : flatNet.Index) :
      (Formula.eq (mVars p) (num 0)).HoldsWith a R ↔ s p = 0 := by
    rw [holds_eq, now, eval_num]
    norm_cast
  unfold strandedConditions strandsSome
  rw [List.any_eq_true]
  constructor
  · rintro ⟨f, mem, holds⟩
    obtain ⟨pid, listed, found⟩ := List.mem_filterMap.mp mem
    obtain ⟨markers, excuses, rfl⟩ := Option.map_eq_some_iff.mp found
    refine ⟨pid, listed, ?_⟩
    rw [excuses]
    split at holds
    next none => simpa [none] using (atLeast pid).mp holds
    next => simpa [atLeast, unmarked] using holds
  · rintro ⟨pid, listed, stranded⟩
    cases excuses : strandingExcuses flatNet sinkPlaces conditionalSinks pid with
    | none => simp [excuses] at stranded
    | some markers =>
      rw [excuses] at stranded
      simp only [Bool.and_eq_true, decide_eq_true_eq, List.all_eq_true] at stranded
      refine ⟨_, List.mem_filterMap.mpr ⟨pid, listed, by rw [excuses]; rfl⟩, ?_⟩
      beta_reduce
      split
      next => exact (atLeast pid).mpr stranded.1
      next =>
        rw [holds_and, List.forall_mem_cons, List.forall_mem_map]
        exact ⟨(atLeast pid).mpr stranded.1, fun k mem => (unmarked k).mpr (stranded.2 k mem)⟩

theorem eval_counts (counts : List flatNet.Index) :
    (sumTerms (counts.map mVars)).eval a = (((counts.map s).sum : Nat) : ℚ) := by
  rw [eval_sumTerms, List.map_map, Nat.cast_list_sum, List.map_map]
  exact congrArg List.sum (List.map_congr_left fun p _ => now p)

theorem holds_belowCondition {counts waivers : List flatNet.Index} {min : Nat} :
    (∃ f ∈ belowCondition (counts.map mVars) (waivers.map mVars) min, f.HoldsWith a R) ↔
      (counts.map s).sum < min ∧ ∀ k ∈ waivers, s k = 0 := by
  have below : (Formula.lt (sumTerms (counts.map mVars)) (num min)).HoldsWith a R ↔
      (counts.map s).sum < min := by
    rw [holds_lt, eval_counts now, eval_num, Int.cast_natCast, Nat.cast_lt]
  have unmarked (p : flatNet.Index) :
      (Formula.eq (mVars p) (num 0)).HoldsWith a R ↔ s p = 0 := by
    rw [holds_eq, now, eval_num]
    norm_cast
  unfold belowCondition
  dsimp only
  by_cases asked : 0 < min
  · rw [if_pos asked]
    simp only [List.mem_singleton, exists_eq_left]
    split
    next none =>
      rw [List.map_eq_nil_iff] at none
      simp [below, none]
    next =>
      rw [holds_and, List.forall_mem_cons, below, List.forall_mem_map, List.forall_mem_map]
      simp only [unmarked]
  · have : min = 0 := by omega
    simp [this]

theorem holds_aboveCondition {counts : List flatNet.Index} {max : WithTop ℕ} :
    (∃ f ∈ aboveCondition (counts.map mVars) max, f.HoldsWith a R) ↔
      max < (((counts.map s).sum : Nat) : WithTop ℕ) := by
  unfold aboveCondition
  cases max with
  | top => simp
  | coe max =>
    simp only [List.mem_singleton, exists_eq_left, holds_lt, eval_num, eval_counts now]
    rw [Int.cast_natCast, Nat.cast_lt, Nat.cast_withTop, WithTop.coe_lt_coe]

theorem holds_countViolation (counts waivers : List flatNet.Index) (min : Nat) (max : WithTop ℕ) :
    (countViolationCondition (counts.map mVars) (waivers.map mVars) min max).elim False
        (fun bad => bad.HoldsWith a R) ↔
      max < (((counts.map s).sum : Nat) : WithTop ℕ) ∨
        (counts.map s).sum < min ∧ ∀ k ∈ waivers, s k = 0 := by
  have parts : (∃ f ∈ belowCondition (counts.map mVars) (waivers.map mVars) min ++
      aboveCondition (counts.map mVars) max, f.HoldsWith a R) ↔
      max < (((counts.map s).sum : Nat) : WithTop ℕ) ∨
        (counts.map s).sum < min ∧ ∀ k ∈ waivers, s k = 0 := by
    rw [← holds_belowCondition (R := R) now, ← holds_aboveCondition (R := R) now]
    simp only [List.mem_append, or_and_right, exists_or]
    exact or_comm
  unfold countViolationCondition
  dsimp only
  split
  next none =>
    rw [none] at parts
    simpa using parts
  next => rw [Option.elim_some, holds_disjoin, parts]

/-- What the formula of a violated property says of a state.  A mutual exclusion is the one property
whose formula overlooks a place that does not resolve. -/
theorem holds_violation {property : SmtProperty} {sinkPlaces : List PlaceName}
    {conditionalSinks : List ConditionalSinks} {f : Formula V}
    (found : encodePropertyViolation flatNet mVars property sinkPlaces conditionalSinks = some f) :
    (FlatViolates flatNet property sinkPlaces conditionalSinks s → f.HoldsWith a R) ∧
      (Resolves flatNet property → f.HoldsWith a R →
        FlatViolates flatNet property sinkPlaces conditionalSinks s) := by
  have unmarked (p : flatNet.Index) :
      (Formula.eq (mVars p) (num 0)).HoldsWith a R ↔ s p = 0 := by
    rw [holds_eq, now, eval_num]
    norm_cast
  have same {P : Prop} (exact : f.HoldsWith a R ↔ P)
      (tested : FlatViolates flatNet property sinkPlaces conditionalSinks s ↔ P) :
      (FlatViolates flatNet property sinkPlaces conditionalSinks s → f.HoldsWith a R) ∧
        (Resolves flatNet property → f.HoldsWith a R →
          FlatViolates flatNet property sinkPlaces conditionalSinks s) :=
    ⟨fun h => exact.mpr (tested.mp h), fun _ h => tested.mpr (exact.mp h)⟩
  unfold encodePropertyViolation at found
  cases property with
  | deadlockFree =>
    obtain rfl := Option.some.inj found
    have stranded := holds_strandedConditions (R := R) now sinkPlaces conditionalSinks
    refine same ?_ (by rw [FlatViolates, satisfiesBad, Except.ok.injEq, Bool.and_eq_true])
    rw [← stranded]
    split
    next none => simp [none]
    next => simp [holds_quiescent now]
  | terminatesAtSink =>
    obtain rfl := Option.some.inj found
    refine same ?_ (by rw [FlatViolates, satisfiesBad, Except.ok.injEq, Bool.and_eq_true])
    rw [holds_quiescent now, List.forall_mem_map, List.all_eq_true]
    simp only [unmarked, decide_eq_true_eq, encodePropertyViolation.indexOrdered]
  | mutualExclusion p1 p2 =>
    obtain rfl := Option.some.inj found
    have tested : FlatViolates flatNet (.mutualExclusion p1 p2) sinkPlaces conditionalSinks s ↔
        ∃ i j, flatNet.placeAt i = p1 ∧ flatNet.placeAt j = p2 ∧ 1 ≤ s i ∧ 1 ≤ s j := by
      rw [FlatViolates, satisfiesBad, Except.ok.injEq]
      simp only [← flatNet.placeIndex_eq_some]
      cases flatNet.placeIndex p1 with
      | none => simp
      | some i =>
        cases flatNet.placeIndex p2 with
        | none => simp
        | some j => simp
    rw [tested, holds_marked now]
    simp only [List.mem_cons, List.not_mem_nil, or_false]
    constructor
    · rintro ⟨i, j, rfl, rfl, left, right⟩
      refine ⟨⟨i, .inl rfl⟩, fun p which => ?_⟩
      rcases which with same | same
      · exact flatNet.placeAt_injective same ▸ left
      · exact flatNet.placeAt_injective same ▸ right
    · rintro resolves ⟨-, marked⟩
      obtain ⟨i, left⟩ := List.mem_iff_get.mp (resolves p1 (by simp [propertyPlaces]))
      obtain ⟨j, right⟩ := List.mem_iff_get.mp (resolves p2 (by simp [propertyPlaces]))
      exact ⟨i, j, left, right, marked i (.inl left), marked j (.inr right)⟩
  | placeBound place bound =>
    refine same (holds_exceeds now found) ?_
    rw [FlatViolates, satisfiesBad, Except.ok.injEq]
  | branchPlaceBound place bound =>
    refine same (holds_exceeds now found) ?_
    rw [FlatViolates, satisfiesBad, Except.ok.injEq]
  | unreachable places =>
    obtain rfl := Option.some.inj found
    refine same (holds_marked now) ?_
    rw [FlatViolates, satisfiesBad, Except.ok.injEq, Bool.and_eq_true, List.all_eq_true,
      decide_eq_true_eq, ne_eq, List.eq_nil_iff_forall_not_mem]
    simp only [mem_filterMap_placeIndex, decide_eq_true_eq, not_forall, not_not]
    exact and_comm
  | joinedOrDeadLettered pending =>
    obtain rfl := Option.some.inj found
    refine same (Iff.rfl) ?_
    rw [FlatViolates, satisfiesBad, Except.ok.injEq]
    cases flatNet.placeIndex pending with
    | none => simp
    | some pid => simp [holds_quiescent now, now pid, Nat.one_le_iff_ne_zero]
  | quiescentCount places min max waivedBy =>
    obtain rfl := Option.some.inj found
    have count := holds_countViolation (R := R) now (indexOrdered flatNet places)
      (indexOrdered flatNet waivedBy) min max
    have tested : FlatViolates flatNet (.quiescentCount places min max waivedBy) sinkPlaces
        conditionalSinks s ↔ isQuiescent flatNet s = true ∧
          (max < ((((indexOrdered flatNet places).map s).sum : Nat) : WithTop ℕ) ∨
            ((indexOrdered flatNet places).map s).sum < min ∧
              ∀ k ∈ indexOrdered flatNet waivedBy, s k = 0) := by
      rw [FlatViolates, satisfiesBad, Except.ok.injEq]
      simp only [Bool.and_eq_true, Bool.or_eq_true, decide_eq_true_eq, List.all_eq_true]
    refine same ?_ tested
    rw [← count]
    unfold encodePropertyViolation.indexOrdered
    cases countViolationCondition ((indexOrdered flatNet places).map mVars)
      ((indexOrdered flatNet waivedBy).map mVars) min max with
    | none => simp
    | some bad => simp [holds_quiescent now]
  | nameAligned places => cases found
  | quiescentNameAligned places => cases found

end Properties

end LibPetri.Verified

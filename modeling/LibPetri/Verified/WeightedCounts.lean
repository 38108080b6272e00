import LibPetri.Verification.LinearBound
import LibPetri.Verified.Certificates

/-! # Weighted counts along runs

What a weighting of the places is along a run of a flat net: at most what it was where no transition raises
it, and constant where no transition changes it and no weighted place is cleared.
-/

namespace LibPetri.Verified

open LibPetri.Basis LibPetri.Core LibPetri.Runtime LibPetri.Verification
open LibPetri.Verification.AbstractReplayer LibPetri.Verification.SmtEncoder
open LibPetri.Verification.PInvariantComputer LibPetri.Verification.LinearBound

variable {S : Type} {flatNet : FlatNet S} {y : flatNet.Index → ℤ}

/-- The weighted number of tokens of a state. -/
def weighted (y : flatNet.Index → ℤ) (s : flatNet.State) : ℤ := ∑ p, y p * (s p : ℤ)

/-- No injected place has a weight. -/
def Uninjected (y : flatNet.Index → ℤ) : Prop := ∀ p, injectionOf flatNet p ≠ none → y p = 0

/-- No cleared place has a weight. -/
def Linear (y : flatNet.Index → ℤ) : Prop := ∀ p, nonlinearPlaces flatNet p = true → y p = 0

theorem injectionOf_of_mem {pid : flatNet.Index} {bound : Option Nat}
    (mem : (pid, bound) ∈ resolveEnvInjection flatNet) : injectionOf flatNet pid ≠ none := by
  rw [mem_resolveEnvInjection, ← OrderedMap.get?_eq_some_iff] at mem
  rw [injectionOf, mem]
  exact Option.some_ne_none _

theorem weighted_inject {s : flatNet.State} {pid : flatNet.Index} (none_ : y pid = 0) :
    weighted y (injectA s pid) = weighted y s := by
  refine Finset.sum_congr rfl fun p _ => ?_
  by_cases here : p = pid
  · rw [here, none_, zero_mul, zero_mul]
  · rw [injectA, Function.update_of_ne here]

/-- A firing raises a weighting that is not negative by no more than its column. -/
theorem weighted_fire_le (nonneg : ∀ p, 0 ≤ y p) {s : flatNet.State} {t : flatNet.Position}
    (enabled : enabledA s (flatNet.transition t) = true) :
    weighted y (fireA s (flatNet.transition t)) ≤ weighted y s + ∑ p, y p * column flatNet t p := by
  rw [weighted, weighted, ← Finset.sum_add_distrib]
  refine Finset.sum_le_sum fun p _ => ?_
  rw [← mul_add]
  exact mul_le_mul_of_nonneg_left (fireA_le enabled p) (nonneg p)

/-- A firing changes a weighting of places that are never cleared by its column. -/
theorem weighted_fire_eq (linear : Linear y) {s : flatNet.State} {t : flatNet.Position}
    (enabled : enabledA s (flatNet.transition t) = true) :
    weighted y (fireA s (flatNet.transition t)) = weighted y s + ∑ p, y p * column flatNet t p := by
  rw [weighted, weighted, ← Finset.sum_add_distrib]
  refine Finset.sum_congr rfl fun p _ => ?_
  rw [← mul_add]
  cases cleared : nonlinearPlaces flatNet p with
  | true => rw [linear p cleared, zero_mul, zero_mul]
  | false =>
    rw [nonlinearPlaces, List.any_eq_false] at cleared
    have kept := cleared _ (flatNet.transition_mem t)
    simp only [Bool.or_eq_true, decide_eq_true_eq, not_or, Bool.not_eq_true] at kept
    rw [fireA_eq_column enabled kept.2 kept.1]
    rfl

/-- A weighting that no transition raises does not grow along a run whose injections it does not see. -/
theorem weighted_le_of_run (nonneg : ∀ p, 0 ≤ y p)
    (lowers : ∀ t, ∑ p, y p * column flatNet t p ≤ 0) {labels : List (Option flatNet.Position)}
    {s s' : flatNet.State} (run : FlatRun flatNet s labels s')
    (unseen : Uninjected y ∨ ∀ l ∈ labels, l ≠ none) : weighted y s' ≤ weighted y s := by
  induction run with
  | start => exact le_rfl
  | move l _ step ih =>
    have before := ih (unseen.imp_right fun fires l mem => fires l (List.mem_append_left _ mem))
    refine le_trans ?_ before
    cases step with
    | fire t enabled _ =>
      have := weighted_fire_le nonneg enabled
      have := lowers t
      omega
    | inject pid bound mem _ =>
      rcases unseen with free | fires
      · exact (weighted_inject (free pid (injectionOf_of_mem mem))).le
      · exact absurd rfl (fires none (by simp))

/-- A weighting that no transition changes is constant along every run. -/
theorem weighted_eq_of_reachable (linear : Linear y) (free : Uninjected y)
    (keeps : ∀ t, ∑ p, y p * column flatNet t p = 0) {s s' : flatNet.State}
    (reachable : FlatReachable flatNet s s') : weighted y s' = weighted y s := by
  induction reachable with
  | refl => rfl
  | tail _ step ih =>
    rw [← ih]
    obtain ⟨l, move⟩ := flatStep_iff_move.mp step
    cases move with
    | fire t enabled _ => rw [weighted_fire_eq linear enabled, keeps t, add_zero]
    | inject pid bound mem _ => exact weighted_inject (free pid (injectionOf_of_mem mem))

/-! ## Laws that pass the exact re-check -/

section Laws

variable {initialMarking : MarkingState}

theorem sum_map_filter {α K : Type} [AddCommMonoid K] {f : α → K} {keep : α → Bool} (items : List α)
    (zero : ∀ a ∈ items, keep a = false → f a = 0) :
    ((items.filter keep).map f).sum = (items.map f).sum := by
  induction items with
  | nil => rfl
  | cons a items ih =>
    have ih := ih fun b mem => zero b (List.mem_cons_of_mem _ mem)
    rw [List.filter_cons, List.map_cons, List.sum_cons, ← ih]
    cases kept : keep a with
    | true => rw [if_pos rfl, List.map_cons, List.sum_cons]
    | false => rw [if_neg Bool.false_ne_true, zero a List.mem_cons_self kept, zero_add]

theorem sum_nonzero {y : flatNet.Index → ℚ} {f : flatNet.Index → ℤ} (zero : ∀ p, y p = 0 → f p = 0) :
    (((List.finRange _).filter fun p => y p ≠ 0).map f).sum = ∑ p, f p := by
  rw [Fin.sum_univ_def]
  refine sum_map_filter _ fun p _ none => zero p ?_
  simpa using none

/-- The weights of a law, as integers. -/
def wholeWeights (flatNet : FlatNet S) (inv : RawInvariant) (p : flatNet.Index) : ℤ :=
  (inv.weights.getD p 0).num

/-- What the exact re-check makes sure of. -/
structure Checked (flatNet : FlatNet S) (initialMarking : MarkingState) (inv : RawInvariant) : Prop where
  whole : ∀ p : flatNet.Index, inv.weights.getD p 0 = wholeWeights flatNet inv p
  linear : Linear (wholeWeights flatNet inv)
  null : ∀ row ∈ (IncidenceMatrix.ofFlatNet flatNet).incidence,
    ∑ p, wholeWeights flatNet inv p * row p = 0
  constant : inv.constant = weighted (wholeWeights flatNet inv) (flatNet.vectorize initialMarking)

theorem checked_of_none {inv : RawInvariant}
    (passes : exactCheckFailure flatNet (.ofFlatNet flatNet) initialMarking inv = none) :
    Checked flatNet initialMarking inv := by
  have zero {p : flatNet.Index} (none_ : inv.weights.getD p 0 = 0) : wholeWeights flatNet inv p = 0 := by
    rw [wholeWeights, none_]
    rfl
  unfold exactCheckFailure at passes
  dsimp only at passes
  split at passes
  · cases passes
  simp only [Option.orElse_eq_none, List.findSome?_eq_none_iff, List.mem_finRange, true_implies,
    ite_eq_left_iff, reduceCtorEq, imp_false, Bool.not_eq_true, Bool.not_eq_false] at passes
  obtain ⟨whole, -, linear, null, constant⟩ := passes
  refine ⟨fun p => ?_, fun p cleared => zero ?_, fun row mem => ?_, ?_⟩
  · have safe := whole p
    rw [isSafeInteger, Bool.and_eq_true] at safe
    exact ((Rat.den_eq_one_iff _).mp (eq_of_beq safe.1)).symm
  · by_contra weighted
    have blocked := linear p
    rw [if_pos (by rw [cleared, Bool.and_true]; exact decide_eq_true weighted)] at blocked
    cases blocked
  · obtain ⟨t, at_⟩ := List.mem_iff_getElem?.mp mem
    have passes := null (row, t) (List.mem_zipIdx_iff_getElem?.mpr at_)
    simp only [columnFailure, Option.orElse_eq_none, ite_eq_left_iff, reduceCtorEq, imp_false,
      Decidable.not_not] at passes
    rw [← passes.2, sum_nonzero fun p none_ => by rw [none_, Rat.num_zero, zero_mul]]
    rfl
  · simp only [constantFailure, Option.orElse_eq_none, ite_eq_left_iff, reduceCtorEq, imp_false,
      Decidable.not_not] at constant
    rw [← constant.2, sum_nonzero fun p none_ => by rw [none_, Rat.num_zero, zero_mul]]
    rfl

theorem Checked.keeps {inv : RawInvariant} (checked : Checked flatNet initialMarking inv)
    (t : flatNet.Position) : ∑ p, wholeWeights flatNet inv p * column flatNet t p = 0 :=
  checked.null _ (List.mem_append_left _
    (List.mem_map.mpr ⟨flatNet.transition t, flatNet.transition_mem t, rfl⟩))

/-- The injector columns leave an injected place no weight. -/
theorem Checked.uninjected {inv : RawInvariant} (checked : Checked flatNet initialMarking inv) :
    Uninjected (wholeWeights flatNet inv) := by
  intro pid injected
  have listed : pid ∈ (envInj flatNet).map Prod.fst := by
    by_contra absent
    rw [← OrderedMap.lookup_eq_none_iff, lookup_envInj] at absent
    exact injected absent
  have null := checked.null _ (List.mem_append_right _ (List.mem_map_of_mem listed))
  simpa using null

/-- A law that has been checked holds in every reachable state. -/
theorem Checked.holds {inv : RawInvariant} (checked : Checked flatNet initialMarking inv) {s : flatNet.State}
    (reachable : FlatReachable flatNet (flatNet.vectorize initialMarking) s) :
    ∑ p : flatNet.Index, inv.weights.getD p 0 * (s p : ℚ) = inv.constant := by
  have kept := weighted_eq_of_reachable checked.linear checked.uninjected checked.keeps reachable
  rw [checked.constant, ← kept, weighted]
  push_cast
  exact Finset.sum_congr rfl fun p _ => by rw [checked.whole p]

theorem checked_of_valid {inv : RawInvariant} {invariants : List RawInvariant}
    (valid : inv ∈ (validateInvariantsExact flatNet (.ofFlatNet flatNet) initialMarking invariants).1) :
    Checked flatNet initialMarking inv :=
  checked_of_none (Option.isNone_iff_eq_none.mp (List.mem_filter.mp valid).2)

/-- A law that passes the exact re-check holds in every reachable state. -/
theorem valid_invariant_holds (flatNet : FlatNet S) (initialMarking : MarkingState)
    (invariants : List RawInvariant) :
    ∀ inv ∈ (validateInvariantsExact flatNet (.ofFlatNet flatNet) initialMarking invariants).1,
      ∀ s, FlatReachable flatNet (flatNet.vectorize initialMarking) s →
        ∑ p : flatNet.Index, inv.weights.getD p 0 * (s p : ℚ) = inv.constant := by
  intro inv mem s reachable
  exact (checked_of_valid mem).holds reachable

/-- A law whose support lists the places of its weights is the condition that strengthens a query. -/
theorem conserved_of_valid {inv : PInvariant flatNet.places.length} {raw : RawInvariant}
    (weights : ∀ p : flatNet.Index, raw.weights.getD p 0 = inv.weights p)
    (constant : raw.constant = inv.constant) (support : ∀ p, p ∈ inv.support ↔ inv.weights p ≠ 0)
    {invariants : List RawInvariant}
    (valid : raw ∈ (validateInvariantsExact flatNet (.ofFlatNet flatNet) initialMarking invariants).1)
    {s : flatNet.State} (reachable : FlatReachable flatNet (flatNet.vectorize initialMarking) s) :
    ConservedAt inv fun p => (s p : ℚ) := by
  intro _
  have holds := (checked_of_valid valid).holds reachable
  rw [← constant, ← holds, Fin.sum_univ_def, sum_map_filter]
  · exact congrArg List.sum (List.map_congr_left fun p _ => by rw [weights p])
  · intro p _ outside
    have none_ : inv.weights p = 0 := by simpa [support] using outside
    rw [none_, Int.cast_zero, zero_mul]

/-- The token is on one of the two places. -/
def tokenLaw : RawInvariant := ⟨[1, 1], 1, [0, 1]⟩

theorem valid_invariant_holds_moveOnce :
    tokenLaw ∈ (validateInvariantsExact moveOnceNet (.ofFlatNet moveOnceNet) moveOnceMarking
        [tokenLaw]).1 ∧
      ∑ p : moveOnceNet.Index, tokenLaw.weights.getD p 0 *
        (fireA (moveOnceNet.vectorize moveOnceMarking) (moveOnceNet.transition ⟨0, Nat.one_pos⟩) p : ℚ) =
          tokenLaw.constant := by
  have passes : (exactCheckFailure moveOnceNet (.ofFlatNet moveOnceNet) moveOnceMarking
      tokenLaw).isNone = true := by decide +kernel
  have valid : tokenLaw ∈ (validateInvariantsExact moveOnceNet (.ofFlatNet moveOnceNet) moveOnceMarking
      [tokenLaw]).1 := List.mem_filter.mpr ⟨List.mem_singleton_self tokenLaw, passes⟩
  have step : FlatStep moveOnceNet (moveOnceNet.vectorize moveOnceMarking)
      (fireA (moveOnceNet.vectorize moveOnceMarking) (moveOnceNet.transition ⟨0, Nat.one_pos⟩)) :=
    flatStep_iff_move.mpr ⟨_, .fire _ (by decide +kernel) (by decide +kernel)⟩
  exact ⟨valid, valid_invariant_holds moveOnceNet moveOnceMarking [tokenLaw] tokenLaw valid _ (.single step)⟩

end Laws

/-! ## Linear bounds -/

section Bounds

variable {initialMarking : MarkingState} {property : SmtProperty}

theorem mapM_eq_ok {α β ε : Type} {f : α → Except ε β} {g : α → β}
    (right : ∀ a b, f a = .ok b → b = g a) {items : List α} {results : List β}
    (all : items.mapM f = .ok results) :
    results = items.map g ∧ ∀ a ∈ items, ∃ b, f a = .ok b := by
  induction items generalizing results with
  | nil =>
    obtain rfl := Except.ok.inj all
    exact ⟨rfl, fun _ mem => (by cases mem)⟩
  | cons a items ih =>
    rw [List.mapM_cons] at all
    cases first : f a with
    | error e =>
      rw [first] at all
      cases all
    | ok b =>
      cases rest : items.mapM f with
      | error e =>
        rw [first, rest] at all
        cases all
      | ok bs =>
        rw [first, rest] at all
        obtain rfl := Except.ok.inj all
        obtain ⟨rfl, each⟩ := ih rest
        refine ⟨by rw [List.map_cons, right a b first], fun a' mem => ?_⟩
        rcases List.mem_cons.mp mem with rfl | later
        · exact ⟨b, first⟩
        · exact each a' later

/-- The integer that a demand is, where it is one. -/
def wholeDemand : Bound → ℤ
  | some q => q.num
  | none => 0

theorem bigInt_eq_ok {b : Bound} {n : ℤ} (whole : bigInt b = .ok n) :
    n = wholeDemand b ∧ b = ((n : ℚ) : Bound) := by
  cases b with
  | none => cases whole
  | some q =>
    unfold bigInt at whole
    dsimp only at whole
    split at whole
    next isInt =>
      obtain rfl := Except.ok.inj whole
      have same : ((q.num : ℚ)) = q := (Rat.den_eq_one_iff q).mp (eq_of_beq isInt)
      exact ⟨rfl, congrArg WithTop.some same.symm⟩
    next => cases whole

/-- What an accepted weighting has been checked for. -/
structure Accepted (flatNet : FlatNet S) (initialMarking : MarkingState)
    (demand : OrderedMap flatNet.Index Bound) (y : flatNet.Index → ℤ) : Prop where
  nonneg : ∀ p, 0 ≤ y p
  uninjected : Uninjected y
  lowers : ∀ t, ∑ p, y p * column flatNet t p ≤ 0
  whole : ∀ e ∈ demand.entries, e.2 = ((wholeDemand e.2 : ℚ) : Bound)
  exceeds : weighted y (flatNet.vectorize initialMarking) <
    (demand.entries.map fun e => y e.1 * wholeDemand e.2).sum

theorem accepted_of_some {y : List ℤ} {b : LinearBound.LinearBound}
    (accepts : checkLinearBoundExact flatNet initialMarking property y = .ok (some b)) :
    ∃ demand, violationDemand flatNet property = some demand ∧
      Accepted flatNet initialMarking demand fun p => y.getD p 0 := by
  unfold checkLinearBoundExact at accepts
  dsimp only at accepts
  cases demands : violationDemand flatNet property with
  | none =>
    rw [demands] at accepts
    cases accepts
  | some demand =>
    rw [demands] at accepts
    dsimp only at accepts
    split at accepts
    · cases accepts
    split at accepts
    · cases accepts
    next signs =>
      split at accepts
      · cases accepts
      next raised =>
        simp only [List.any_eq_true, List.mem_finRange, true_and, Bool.or_eq_true, Bool.and_eq_true,
          decide_eq_true_eq, not_exists, not_or, not_and, not_lt, Decidable.not_not] at signs raised
        cases evaluated : demand.entries.mapM fun e => (do
            let least ← bigInt e.2
            Except.ok (y.getD e.1 0 * least) : Except Thrown ℤ) with
        | error thrown =>
          rw [evaluated] at accepts
          cases accepts
        | ok values =>
          rw [evaluated] at accepts
          simp only [bind, Except.bind] at accepts
          split at accepts
          · cases accepts
          next above =>
            have entry (e : flatNet.Index × Bound) (v : ℤ)
                (value : (do
                  let least ← bigInt e.2
                  Except.ok (y.getD e.1 0 * least) : Except Thrown ℤ) = .ok v) :
                v = y.getD e.1 0 * wholeDemand e.2 ∧ e.2 = ((wholeDemand e.2 : ℚ) : Bound) := by
              cases whole : bigInt e.2 with
              | error thrown =>
                rw [whole] at value
                cases value
              | ok n =>
                rw [whole] at value
                obtain rfl := Except.ok.inj value
                obtain ⟨rfl, same⟩ := bigInt_eq_ok whole
                exact ⟨rfl, same⟩
            obtain ⟨rfl, each⟩ := mapM_eq_ok (fun e v value => (entry e v value).1) evaluated
            refine ⟨demand, rfl, fun p => (signs p).1, fun pid injected => ?_, fun t => ?_, ?_, ?_⟩
            · refine (signs pid).2 ?_
              rw [zeroWeight, Bool.or_eq_true, decide_eq_true_eq]
              right
              by_contra absent
              rw [← OrderedMap.lookup_eq_none_iff, lookup_resolveEnvInjection] at absent
              exact injected absent
            · rw [Fin.sum_univ_def]
              exact raised _ (flatNet.transition_mem t)
            · intro e mem
              obtain ⟨v, value⟩ := each e mem
              exact (entry e v value).2
            · rw [weighted, Fin.sum_univ_def]
              rw [not_lt] at above
              exact Int.lt_of_add_one_le above

theorem mem_demandEach {places : List PlaceName} {count d : Bound} {pid : flatNet.Index}
    (mem : (pid, d) ∈ (demandEach flatNet places count).entries) :
    d = count ∧ pid ∈ places.filterMap flatNet.placeIndex := by
  have folded (pids : List flatNet.Index) (demand : OrderedMap flatNet.Index Bound)
      (found : (pids.foldl (fun demand pid => demand.set pid count) demand).get? pid = some d) :
      demand.get? pid = some d ∨ d = count ∧ pid ∈ pids := by
    induction pids generalizing demand with
    | nil => exact .inl found
    | cons q pids ih =>
      rcases ih _ found with kept | ⟨same, later⟩
      · rw [OrderedMap.get?_set] at kept
        split at kept
        next here => exact .inr ⟨(Option.some.inj kept).symm, here ▸ List.mem_cons_self⟩
        next => exact .inl kept
      · exact .inr ⟨same, List.mem_cons_of_mem _ later⟩
  rcases folded _ _ ((OrderedMap.get?_eq_some_iff _).mpr mem) with kept | demanded
  · cases kept
  · exact demanded

/-- A violating state holds what is demanded. -/
theorem demand_le_of_violates {demand : OrderedMap flatNet.Index Bound}
    (demands : violationDemand flatNet property = some demand) {s : flatNet.State}
    {sinkPlaces : List PlaceName} {conditionalSinks : List ConditionalSinks}
    (violates : satisfiesBad flatNet property sinkPlaces conditionalSinks s = .ok true)
    {pid : flatNet.Index} {n : ℤ} (mem : (pid, ((n : ℚ) : Bound)) ∈ demand.entries) : n ≤ s pid := by
  have above {bound : Bound} {place : PlaceName}
      (exceeded : satisfiesBad.aboveBound flatNet s place bound = true)
      (mem : (pid, ((n : ℚ) : Bound)) ∈ (demandEach flatNet [place] (bound + (1 : ℚ))).entries) :
      n ≤ s pid := by
    obtain ⟨same, listed⟩ := mem_demandEach mem
    have found : flatNet.placeIndex place = some pid := by simpa using listed
    rw [satisfiesBad.aboveBound, found] at exceeded
    have exceeded : bound < ((s pid : ℚ) : Bound) := of_decide_eq_true exceeded
    cases bound with
    | none => exact absurd exceeded not_top_lt
    | some q =>
      have below : q < s pid := WithTop.coe_lt_coe.mp exceeded
      have same : (n : ℚ) = q + 1 := WithTop.coe_inj.mp same
      have : (n : ℚ) < s pid + 1 := by linarith
      have : n < s pid + 1 := by exact_mod_cast this
      omega
  have once {places : List PlaceName} (held : ∀ q ∈ places.filterMap flatNet.placeIndex, 1 ≤ s q)
      (mem : (pid, ((n : ℚ) : Bound)) ∈ (demandEach flatNet places (1 : ℚ)).entries) : n ≤ s pid := by
    obtain ⟨same, listed⟩ := mem_demandEach mem
    have : n = 1 := by
      have := WithTop.coe_inj.mp same
      exact_mod_cast this
    have := held pid listed
    omega
  unfold violationDemand at demands
  split at demands
  · cases demands
  obtain rfl := Option.some.inj demands
  cases property with
  | unreachable places =>
    have held := Except.ok.inj violates
    rw [Bool.and_eq_true, List.all_eq_true] at held
    exact once (fun q listed => of_decide_eq_true (held.1 q listed)) mem
  | mutualExclusion p1 p2 =>
    have held := Except.ok.inj violates
    cases first : flatNet.placeIndex p1 with
    | none =>
      rw [first] at held
      cases held
    | some idx1 =>
      cases second : flatNet.placeIndex p2 with
      | none =>
        rw [first, second] at held
        cases held
      | some idx2 =>
        rw [first, second, Bool.and_eq_true] at held
        refine once (fun q listed => ?_) mem
        simp only [List.filterMap_cons, first, second, List.filterMap_nil, List.mem_cons,
          List.not_mem_nil, or_false] at listed
        rcases listed with rfl | rfl
        · exact of_decide_eq_true held.1
        · exact of_decide_eq_true held.2
  | placeBound place bound => exact above (Except.ok.inj violates) mem
  | branchPlaceBound place bound => exact above (Except.ok.inj violates) mem
  | _ => cases mem

/-- What the listed places weigh is no more than what all places weigh. -/
theorem listed_le_weighted {y : flatNet.Index → ℤ} (nonneg : ∀ p, 0 ≤ y p)
    (demand : OrderedMap flatNet.Index Bound) {s : flatNet.State}
    (held : ∀ e ∈ demand.entries, wholeDemand e.2 ≤ s e.1) :
    (demand.entries.map fun e => y e.1 * wholeDemand e.2).sum ≤ weighted y s := by
  have each : (demand.entries.map fun e => y e.1 * wholeDemand e.2).sum ≤
      (demand.keys.map fun p => y p * (s p : ℤ)).sum := by
    rw [OrderedMap.keys, List.map_map]
    exact List.sum_le_sum fun e mem => mul_le_mul_of_nonneg_left (held e mem) (nonneg e.1)
  refine each.trans ?_
  rw [OrderedMap.keys, ← List.sum_toFinset _ demand.nodup]
  exact Finset.sum_le_sum_of_subset_of_nonneg (Finset.subset_univ _)
    fun p _ _ => mul_nonneg (nonneg p) (Int.natCast_nonneg _)

def accepts (result : Except Thrown (Option LinearBound.LinearBound)) : Bool :=
  result.toOption.join.isSome

theorem exists_of_accepts {result : Except Thrown (Option LinearBound.LinearBound)}
    (accepted : accepts result = true) : ∃ b, result = .ok (some b) := by
  rcases result with thrown | none | b
  · cases accepted
  · cases accepted
  · exact ⟨b, rfl⟩

end Bounds

end LibPetri.Verified

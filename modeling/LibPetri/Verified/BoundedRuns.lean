import LibPetri.Verification.BoundedRun
import LibPetri.Verified.Violations

/-! # The firing bound

A checked ranking bounds the firings of every run, and the unrolled formula of a depth has a model exactly
when some run of at most that many firings violates the property.  So no model at the bound is a proof.
-/

namespace LibPetri.Verified

open LibPetri.Basis LibPetri.Basis.Smt LibPetri.Core LibPetri.Runtime LibPetri.Verification
open LibPetri.Verification.AbstractReplayer LibPetri.Verification.SmtEncoder
open LibPetri.Verification.BoundedRun

variable {S : Type} {flatNet : FlatNet S}

/-! ## Closed nets -/

section Closed

variable (closed : flatNet.environmentInjection.entries = [])

include closed

/-- Without injection every move is a firing. -/
theorem move_of_closed {s s' : flatNet.State} {l : Option flatNet.Position}
    (move : FlatMove flatNet s l s') : ∃ t, l = some t ∧
      enabledA s (flatNet.transition t) = true ∧ s' = fireA s (flatNet.transition t) := by
  cases move with
  | fire t enabled within => exact ⟨t, rfl, enabled, rfl⟩
  | inject pid bound mem room =>
    rw [mem_resolveEnvInjection, closed] at mem
    cases mem

/-- Nor is any place capped. -/
theorem environmentCaps_of_closed : environmentCaps flatNet = [] := by
  have empty : flatNet.environmentBounds.entries = [] := by
    rw [List.eq_nil_iff_forall_not_mem]
    intro e mem
    have injected := flatNet.bounds_injected e.1 (List.mem_map_of_mem mem)
    rw [OrderedMap.keys, closed] at injected
    cases injected
  rw [environmentCaps, empty, List.filterMap_nil]

theorem withinEnvBounds_of_closed (s : flatNet.State) : withinEnvBounds flatNet s = true := by
  rw [withinEnvBounds, environmentCaps_of_closed closed, List.all_nil]

/-! ## Rankings -/

omit closed in
theorem weigh_eq_sum (weights : List Int) (counts : flatNet.Index → Int) :
    weigh flatNet weights counts = ∑ p : flatNet.Index, weights.getD p 0 * counts p := by
  rw [weigh, ← List.ofFn_eq_map, List.sum_ofFn]

omit closed in
theorem canFire_of_enabledA {s : flatNet.State} {ft : FlatTransition S flatNet.places.length}
    (enabled : enabledA s ft = true) : canFire ft = true := by
  obtain ⟨inputs, reads, inhibitors⟩ := enabledA_iff_conditions.mp enabled
  unfold canFire
  rw [List.all_eq_true]
  intro p mem
  have empty := inhibitors p mem
  have unneeded : ¬0 < ft.preVector p := by
    have := inputs p
    omega
  have unread : p ∉ ft.readPlaces := fun read => by
    have := reads p read
    omega
  simp [unneeded, unread]

/-- What the check establishes. -/
structure Ranks (flatNet : FlatNet S) (weights : List Int) : Prop where
  nonneg : ∀ p : flatNet.Index, 0 ≤ weights.getD p 0
  lowers : ∀ ft ∈ flatNet.transitions, canFire ft = true →
    weigh flatNet weights (fun p => ft.postVector p - ft.preVector p) ≤ -1

omit closed in
theorem checkRankingExact_eq_some {initial : flatNet.State} {weights : List Int} {b : FiringBound}
    (checked : checkRankingExact flatNet initial weights = some b) :
    Ranks flatNet weights ∧ b.bound = weigh flatNet weights fun p => initial p := by
  unfold checkRankingExact at checked
  split at checked
  next => cases checked
  next shape =>
    split at checked
    next lowers =>
      obtain rfl := Option.some.inj checked
      simp only [Bool.or_eq_true, decide_eq_true_eq, List.any_eq_true, not_or, not_exists, not_and,
        not_lt] at shape
      refine ⟨⟨fun p => ?_, fun ft mem able => ?_⟩, rfl⟩
      · rw [List.getD_eq_getElem?_getD]
        cases found : weights[p.val]? with
        | none => rfl
        | some w => exact shape.2 w (List.mem_of_getElem? found)
      · have := List.all_eq_true.mp lowers ft mem
        simpa [able] using this
    next => cases checked

omit closed in
theorem weigh_nonneg {weights : List Int} (ranks : Ranks flatNet weights) (s : flatNet.State) :
    0 ≤ weigh flatNet weights fun p => s p := by
  rw [weigh_eq_sum]
  exact Finset.sum_nonneg fun p _ => mul_nonneg (ranks.nonneg p) (Int.natCast_nonneg _)

/-- A clearing arc removes its weight at least, so the column bounds its effect from above. -/
theorem weigh_lowers {weights : List Int} (ranks : Ranks flatNet weights) {s s' : flatNet.State}
    {l : Option flatNet.Position} (move : FlatMove flatNet s l s') :
    weigh flatNet weights (fun p => s' p) + 1 ≤ weigh flatNet weights fun p => s p := by
  obtain ⟨t, -, enabled, rfl⟩ := move_of_closed closed move
  have column := ranks.lowers _ (flatNet.transition_mem t) (canFire_of_enabledA enabled)
  have above : weigh flatNet weights (fun p => fireA s (flatNet.transition t) p) ≤
      weigh flatNet weights (fun p => s p) + weigh flatNet weights (fun p =>
        (flatNet.transition t).postVector p - (flatNet.transition t).preVector p) := by
    rw [weigh_eq_sum, weigh_eq_sum, weigh_eq_sum, ← Finset.sum_add_distrib]
    refine Finset.sum_le_sum fun p _ => ?_
    rw [← mul_add]
    exact mul_le_mul_of_nonneg_left (fireA_le enabled p) (ranks.nonneg p)
  omega

theorem length_le_bound {initial s : flatNet.State} {weights : List Int} {b : FiringBound}
    (checked : checkRankingExact flatNet initial weights = some b)
    {labels : List (Option flatNet.Position)} (run : FlatRun flatNet initial labels s) :
    (labels.length : ℤ) ≤ b.bound := by
  obtain ⟨ranks, bound⟩ := checkRankingExact_eq_some checked
  rw [bound]
  exact run.length_le (fun s : flatNet.State => weigh flatNet weights fun p => s p)
    (fun _ t _ => weigh_nonneg ranks t) fun _ _ _ => weigh_lowers closed ranks

end Closed

/-! ## Unrolled formulas -/

section Unrolled

variable {a : RunVar flatNet.places.length → ℚ} {R : List ℚ → Prop} {initial : flatNet.State}
  {σ : ℕ → ℕ} {states : ℕ → flatNet.State}

theorem eval_shifted {V : Type} {a : V → ℚ} (v : Term V) (delta : Int) :
    (shifted v delta).eval a = v.eval a + delta := by
  unfold shifted
  split
  next zero => rw [zero, Int.cast_zero, add_zero]
  next =>
    split
    · rw [eval_add]
      simp
    · rw [eval_sub, eval_num, Int.cast_neg, sub_neg_eq_add]

/-- A chain of tests of one selector reads the entry of the selected transition. -/
theorem eval_tests {V : Type} {a : V → ℚ} {T : Nat} {s : Term V} (base : Term V)
    (next : Fin T → Term V) {chosen : ℕ} (selected : s.eval a = (chosen : ℚ)) (ts : List (Fin T)) :
    (∀ t ∈ ts, t.val = chosen →
      (ts.foldl (fun value t => .ite s (num t.val) (next t) value) base).eval a =
        (next t).eval a) ∧
    ((∀ t ∈ ts, t.val ≠ chosen) →
      (ts.foldl (fun value t => .ite s (num t.val) (next t) value) base).eval a = base.eval a) := by
  induction ts using List.reverseRecOn with
  | nil => exact ⟨(fun _ mem => by cases mem), fun _ => rfl⟩
  | append_singleton ts u ih =>
    have tested : s.eval a = (num u.val : Term V).eval a ↔ u.val = chosen := by
      rw [selected, eval_num, Int.cast_natCast, Nat.cast_inj]
      exact eq_comm
    simp only [List.foldl_append, List.foldl_cons, List.foldl_nil, eval_ite, tested,
      List.mem_append, List.mem_singleton, or_imp, forall_and, forall_eq]
    by_cases here : u.val = chosen
    · simp only [here, ↓reduceIte, true_implies, not_true_eq_false, ne_eq]
      refine ⟨⟨fun t _ same => ?_, trivial⟩, fun h => h.2.elim⟩
      rw [Fin.ext (same.trans here.symm)]
    · simp only [here, ↓reduceIte, false_implies, and_true, ne_eq, not_false_iff]
      exact ih

/-- The marking after the selected transition, or the same one where none is selected. -/
def selectedStep (flatNet : FlatNet S) (k : ℕ) (s : flatNet.State) : flatNet.State :=
  if h : k < flatNet.transitions.length then fireA s (flatNet.transition ⟨k, h⟩) else s

section Step

variable {i : ℕ} (now : Denotes a (markingTerm flatNet initial i) (states i))
  (next : Denotes a (markingTerm flatNet initial (i + 1)) (states (i + 1)))
  (selected : ∀ i, (selector flatNet i).eval a = (σ i : ℚ))

include now selected

theorem eval_nextTerm (p : flatNet.Index) (enabled : ∀ h : σ i < flatNet.transitions.length,
    enabledA (states i) (flatNet.transition ⟨σ i, h⟩) = true) :
    (nextTerm flatNet initial i p).eval a = selectedStep flatNet (σ i) (states i) p := by
  unfold nextTerm selectedStep
  have tests := eval_tests (markingTerm flatNet initial i p) (fun t =>
    if clears (flatNet.transition t) p then num ((flatNet.transition t).postVector p)
    else shifted (markingTerm flatNet initial i p)
      ((flatNet.transition t).postVector p - (flatNet.transition t).preVector p : Int))
    (selected i) (nesting flatNet p)
  have changed (t : flatNet.Position) : t ∈ nesting flatNet p ↔
      clears (flatNet.transition t) p = true ∨
        (flatNet.transition t).postVector p ≠ (flatNet.transition t).preVector p := by
    simp [nesting]
  split
  next h =>
    have enough := (enabledA_iff_conditions.mp (enabled h)).1 p
    have cleared : clears (flatNet.transition ⟨σ i, h⟩) p =
        (decide (p ∈ (flatNet.transition ⟨σ i, h⟩).resetPlaces) ||
          (flatNet.transition ⟨σ i, h⟩).consumeAll p) := Bool.or_comm _ _
    by_cases mem : (⟨σ i, h⟩ : flatNet.Position) ∈ nesting flatNet p
    · refine (tests.1 _ mem rfl).trans ?_
      unfold fireA
      rw [cleared]
      split
      · rw [eval_num, Int.cast_natCast]
      · rw [eval_shifted, now p]
        push_cast [Nat.cast_sub enough]
        ring
    · refine (tests.2 fun t listed same => mem ?_).trans ?_
      · rwa [← Fin.ext (a := t) (b := ⟨σ i, h⟩) same]
      · rw [changed, not_or, not_not, Bool.not_eq_true, cleared] at mem
        unfold fireA
        rw [mem.1, if_neg Bool.false_ne_true, mem.2, now p, Nat.sub_add_cancel enough]
  next idle => exact (tests.2 fun t _ same => idle (same ▸ t.isLt)).trans (now p)

include next

/-- The asserts of a step. -/
theorem holds_stepConditions {depth : ℕ} (closed : flatNet.environmentInjection.entries = []) :
    (∀ f ∈ stepConditions flatNet initial depth i, f.HoldsWith a R) ↔
      (σ i ≤ flatNet.transitions.length ∧
        (i + 1 < depth → σ i = flatNet.transitions.length →
          σ (i + 1) = flatNet.transitions.length)) ∧
      (∀ h : σ i < flatNet.transitions.length,
        enabledA (states i) (flatNet.transition ⟨σ i, h⟩) = true) ∧
      states (i + 1) = selectedStep flatNet (σ i) (states i) := by
  have idle : (∀ f ∈ (if i + 1 < depth then
      [Formula.imp (.eq (selector flatNet i) (num flatNet.transitions.length))
        (.eq (selector flatNet (i + 1)) (num flatNet.transitions.length))]
      else []), f.HoldsWith a R) ↔ (i + 1 < depth → σ i = flatNet.transitions.length →
        σ (i + 1) = flatNet.transitions.length) := by
    split
    next more =>
      rw [List.forall_mem_singleton, holds_imp, holds_eq, holds_eq, selected, selected, eval_num]
      norm_cast
      simp [more]
    next last => simp [last]
  have range : (Formula.and [.ge (selector flatNet i) (num 0),
      .le (selector flatNet i) (num flatNet.transitions.length)]).HoldsWith a R ↔
        σ i ≤ flatNet.transitions.length := by
    rw [holds_and, List.forall_mem_cons, List.forall_mem_singleton, holds_le, holds_le, selected,
      eval_num, eval_num]
    norm_cast
    simp
  have guards : (∀ t : flatNet.Position, (Formula.imp (.eq (selector flatNet i) (num t.val))
      (conjoin (BoundedRun.guardConditions (flatNet.transition t)
        (markingTerm flatNet initial i)))).HoldsWith a R) ↔
      ∀ h : σ i < flatNet.transitions.length,
        enabledA (states i) (flatNet.transition ⟨σ i, h⟩) = true := by
    unfold BoundedRun.guardConditions
    simp only [holds_imp, holds_eq, selected, eval_num, holds_conjoin, holds_guardConditions now]
    norm_cast
    constructor
    · exact fun h lt => h ⟨σ i, lt⟩ rfl
    · rintro h t same
      have lt : σ i < flatNet.transitions.length := same ▸ t.isLt
      rw [show t = ⟨σ i, lt⟩ from Fin.ext same.symm]
      exact h lt
  unfold stepConditions
  dsimp only
  rw [List.forall_mem_append, List.forall_mem_append, List.forall_mem_append, List.forall_mem_append,
    List.forall_mem_singleton, range, idle, List.forall_mem_map, List.forall_mem_map,
    environmentCaps_of_closed closed]
  simp only [List.mem_finRange, true_implies, guards, List.map_nil, List.not_mem_nil, false_implies,
    implies_true, and_true, and_assoc]
  refine and_congr_right fun _ => and_congr_right fun _ => and_congr_right fun enabled => ?_
  rw [funext_iff]
  refine forall_congr' fun p => ?_
  rw [holds_eq, next, eval_nextTerm now selected p enabled, Nat.cast_inj]

end Step

/-! ## Models and runs -/

section Models

variable (closed : flatNet.environmentInjection.entries = [])

include closed

/-- The markings of selected steps are those of a run, idle steps left out. -/
theorem run_of_selectedSteps {depth : ℕ} (first : states 0 = initial)
    (steps : ∀ i < depth, (∀ h : σ i < flatNet.transitions.length,
        enabledA (states i) (flatNet.transition ⟨σ i, h⟩) = true) ∧
      states (i + 1) = selectedStep flatNet (σ i) (states i)) :
    ∃ labels, FlatRun flatNet initial labels (states depth) ∧ labels.length ≤ depth := by
  induction depth with
  | zero => exact ⟨[], first ▸ .start, le_rfl⟩
  | succ i ih =>
    obtain ⟨labels, run, short⟩ := ih fun j before => steps j (by omega)
    obtain ⟨enabled, after⟩ := steps i (by omega)
    rw [after, selectedStep]
    split
    next h =>
      refine ⟨labels ++ [some ⟨σ i, h⟩], run.move _ (.fire _ (enabled h) ?_), ?_⟩
      · exact withinEnvBounds_of_closed closed _
      · rw [List.length_append, List.length_singleton]
        omega
    next => exact ⟨labels, run, by omega⟩

/-- A run makes selected steps: its firings, then idle ones. -/
theorem selectedSteps_of_run {labels : List (Option flatNet.Position)} {t : flatNet.State}
    (run : FlatRun flatNet initial labels t) : ∃ (σ : ℕ → ℕ) (states : ℕ → flatNet.State),
      states 0 = initial ∧ (∀ i, labels.length ≤ i → states i = t) ∧ ∀ i,
        (σ i ≤ flatNet.transitions.length ∧ (σ i = flatNet.transitions.length →
          σ (i + 1) = flatNet.transitions.length)) ∧
        (∀ h : σ i < flatNet.transitions.length,
          enabledA (states i) (flatNet.transition ⟨σ i, h⟩) = true) ∧
        states (i + 1) = selectedStep flatNet (σ i) (states i) := by
  obtain ⟨states, first, moves, last⟩ := run.exists_states
  let fired (i : ℕ) : Option flatNet.Position := labels[i]?.join
  let σ (i : ℕ) : ℕ := (fired i).elim flatNet.transitions.length Fin.val
  have idle {i : ℕ} (late : labels.length ≤ i) : σ i = flatNet.transitions.length := by
    have : labels[i]? = none := List.getElem?_eq_none late
    simp [σ, fired, this]
  refine ⟨σ, states, first, last, fun i => ?_⟩
  rcases Nat.lt_or_ge i labels.length with early | late
  · have found : labels[i]? = some labels[i] := List.getElem?_eq_getElem early
    obtain ⟨t, same, enabled, after⟩ := move_of_closed closed (moves i _ found)
    have chosen : σ i = t.val := by
      simp only [σ, fired, found, same, Option.join_some, Option.elim_some]
    refine ⟨⟨chosen ▸ t.isLt.le, fun none => absurd t.isLt (by omega)⟩, ?_, ?_⟩
    · intro h
      rw [show (⟨σ i, h⟩ : flatNet.Position) = t from Fin.ext chosen]
      exact enabled
    · rw [after, selectedStep, dif_pos (chosen ▸ t.isLt)]
      rw [show (⟨σ i, chosen ▸ t.isLt⟩ : flatNet.Position) = t from Fin.ext chosen]
  · have none := idle late
    refine ⟨⟨none.le, fun _ => idle (by omega)⟩, fun h => absurd h (by omega), ?_⟩
    rw [last i late, last (i + 1) (by omega), selectedStep, dif_neg (by omega)]

variable {property : SmtProperty} {sinkPlaces : List PlaceName}
  {conditionalSinks : List ConditionalSinks} {depth : ℕ} {script : List (RunFormula flatNet)}

/-- A violating run up to a depth is a model of its formula. -/
theorem satisfiable_of_run
    (built : encodeBoundedRun flatNet initial property sinkPlaces conditionalSinks depth =
      some script)
    (violated : ∃ labels t, FlatRun flatNet initial labels t ∧ labels.length ≤ depth ∧
      FlatViolates flatNet property sinkPlaces conditionalSinks t) : SatisfiableNat script := by
  obtain ⟨bad, found, rfl⟩ := Option.map_eq_some_iff.mp built
  obtain ⟨labels, t, run, short, violates⟩ := violated
  obtain ⟨σ, states, first, last, steps⟩ := selectedSteps_of_run closed run
  let a : RunVar flatNet.places.length → ℕ := fun
    | .s i => σ i
    | .m i p => states i p
  have denotes (i : ℕ) :
      Denotes (fun v => (a v : ℚ)) (markingTerm flatNet initial i) (states i) := by
    intro p
    unfold markingTerm
    split
    next start => rw [start, first, eval_num, Int.cast_natCast]
    next => exact eval_var _
  refine ⟨a, ?_⟩
  rw [List.forall_mem_append, List.forall_mem_flatMap, List.forall_mem_singleton]
  refine ⟨fun i _ => ?_, (holds_violation (denotes depth) found).1 (last depth short ▸ violates)⟩
  refine (holds_stepConditions (denotes i) (denotes (i + 1)) (fun i => eval_var _) closed).mpr ?_
  exact ⟨⟨(steps i).1.1, fun _ => (steps i).1.2⟩, (steps i).2⟩

/-- The models of the unrolled formula are the violating runs up to its depth. -/
theorem satisfiable_encodeBoundedRun (resolves : Resolves flatNet property)
    (built : encodeBoundedRun flatNet initial property sinkPlaces conditionalSinks depth =
      some script) :
    SatisfiableNat script ↔ ∃ labels t, FlatRun flatNet initial labels t ∧
      labels.length ≤ depth ∧ FlatViolates flatNet property sinkPlaces conditionalSinks t := by
  constructor
  · obtain ⟨bad, found, rfl⟩ := Option.map_eq_some_iff.mp built
    rintro ⟨a, holds⟩
    rw [List.forall_mem_append, List.forall_mem_flatMap, List.forall_mem_singleton] at holds
    obtain ⟨steps, violation⟩ := holds
    let states (i : ℕ) : flatNet.State := fun p => if i = 0 then initial p else a (.m i p)
    have denotes (i : ℕ) :
        Denotes (fun v => (a v : ℚ)) (markingTerm flatNet initial i) (states i) := by
      intro p
      unfold markingTerm
      dsimp only [states]
      split
      · rw [eval_num, Int.cast_natCast]
      · exact eval_var _
    have each (i : ℕ) (before : i < depth) :=
      (holds_stepConditions (denotes i) (denotes (i + 1)) (σ := fun i => a (.s i))
        (fun i => eval_var _) closed).mp (steps i (List.mem_range.mpr before))
    have first : states 0 = initial := by
      funext p
      exact if_pos rfl
    obtain ⟨labels, run, short⟩ :=
      run_of_selectedSteps closed first fun i (before : i < depth) => (each i before).2
    exact ⟨labels, _, run, short, (holds_violation (denotes depth) found).2 resolves violation⟩
  · exact satisfiable_of_run closed built

end Models

end Unrolled

/-! ## The phase -/

section Phase

variable {initialMarking : MarkingState} {property : SmtProperty} {sinkPlaces : List PlaceName}
  {conditionalSinks : List ConditionalSinks}

/-- A depth that reaches the bound covers every run. -/
theorem not_violates_of_unsat (closed : flatNet.environmentInjection.entries = [])
    {initial : flatNet.State} {weights : List Int} {b : FiringBound}
    (checked : checkRankingExact flatNet initial weights = some b) {depth : ℕ}
    (deep : b.bound ≤ depth) {script : List (RunFormula flatNet)}
    (built : encodeBoundedRun flatNet initial property sinkPlaces conditionalSinks depth =
      some script)
    (unsat : ¬SatisfiableNat script) {s : flatNet.State} (reachable : FlatReachable flatNet initial s) :
    ¬FlatViolates flatNet property sinkPlaces conditionalSinks s := by
  intro violates
  obtain ⟨labels, run⟩ := flatReachable_iff_run.mp reachable
  have := length_le_bound closed checked run
  exact unsat (satisfiable_of_run closed built ⟨labels, s, run, by omega, violates⟩)

section Turns

variable {isBad : flatNet.State → Bool} {initial : flatNet.State} {bound : FiringBound}
  {K maxDepth : ℕ} {reply : ℕ → BoundedReply flatNet.transitions.length}

/-- The turns end in a proof only at a depth that reaches the bound. -/
theorem deepen_eq_proven {depth : ℕ} {last : depth = 0 → K = 0 ∨ maxDepth = 0} {b : FiringBound}
    (h : deepen flatNet isBad initial bound K maxDepth reply depth last = .proven b) :
    b = bound ∧ ∃ d, K ≤ d ∧ reply d = .unsat := by
  fun_induction deepen flatNet isBad initial bound K maxDepth reply depth last with
  | case1 => cases h
  | case2 => cases h
  | case3 => cases h
  | case4 => cases h
  | case5 depth last answer deep =>
    cases h
    exact ⟨rfl, depth, deep, answer⟩
  | case6 => cases h
  | case7 depth last answer shallow more ih => exact ih h

/-- A run they report replays from the initial marking. -/
theorem deepen_eq_violated {depth : ℕ} {last : depth = 0 → K = 0 ∨ maxDepth = 0} {b : FiringBound}
    {states : List flatNet.State} {steps : List String}
    (h : deepen flatNet isBad initial bound K maxDepth reply depth last = .violated b states steps) :
    ∃ firings, replayRun flatNet isBad initial firings = some (states, steps) := by
  fun_induction deepen flatNet isBad initial bound K maxDepth reply depth last with
  | case1 => cases h
  | case2 => cases h
  | case3 => cases h
  | case4 depth last firings answer states' steps' replayed =>
    cases h
    obtain ⟨found, -, replays⟩ := Option.bind_eq_some_iff.mp replayed
    exact ⟨found, replays⟩
  | case5 => cases h
  | case6 => cases h
  | case7 depth last answer shallow more ih => exact ih h

theorem violates_of_replayRun {firings : List flatNet.Position} {states : List flatNet.State}
    {steps : List String}
    (replayed : replayRun flatNet isBad initial firings = some (states, steps)) :
    ∃ s, FlatReachable flatNet initial s ∧ isBad s = true := by
  induction firings generalizing initial states steps with
  | nil =>
    unfold replayRun at replayed
    split at replayed
    next bad => exact ⟨initial, .refl, bad⟩
    next => cases replayed
  | cons t firings ih =>
    unfold replayRun at replayed
    dsimp only at replayed
    split at replayed
    next both =>
      rw [Bool.and_eq_true] at both
      obtain ⟨later, rest, -⟩ := Option.map_eq_some_iff.mp replayed
      obtain ⟨s, reachable, bad⟩ := ih rest
      exact ⟨s, .head (flatStep_iff_move.mpr ⟨_, .fire t both.1 both.2⟩) reachable, bad⟩
    next => cases replayed

end Turns

/-- The verdicts of the phase are right, where an `unsat` reply is. -/
theorem runFiringBoundPhase_right {maxDepth : ℕ} {ranking : RankingReply}
    {reply : ℕ → BoundedReply flatNet.transitions.length}
    (right : ∀ depth, reply depth = .unsat → ∃ script,
      encodeBoundedRun flatNet (flatNet.vectorize initialMarking) property sinkPlaces
        conditionalSinks depth = some script ∧ ¬SatisfiableNat script) :
    (∀ b, runFiringBoundPhase flatNet initialMarking property sinkPlaces conditionalSinks maxDepth
        ranking reply = .proven b →
      ∀ s, FlatReachable flatNet (flatNet.vectorize initialMarking) s →
        ¬FlatViolates flatNet property sinkPlaces conditionalSinks s) ∧
    ∀ b states steps, runFiringBoundPhase flatNet initialMarking property sinkPlaces
        conditionalSinks maxDepth ranking reply = .violated b states steps →
      ∃ s, FlatReachable flatNet (flatNet.vectorize initialMarking) s ∧
        FlatViolates flatNet property sinkPlaces conditionalSinks s := by
  unfold runFiringBoundPhase
  dsimp only
  split
  next => exact ⟨(fun _ h => by cases h), fun _ _ _ h => by cases h⟩
  split
  next => exact ⟨(fun _ h => by cases h), fun _ _ _ h => by cases h⟩
  next closed =>
  rw [not_not] at closed
  cases ranking with
  | failed => exact ⟨(fun _ h => by cases h), fun _ _ _ h => by cases h⟩
  | unsat => exact ⟨(fun _ h => by cases h), fun _ _ _ h => by cases h⟩
  | unknown => exact ⟨(fun _ h => by cases h), fun _ _ _ h => by cases h⟩
  | sat weights =>
    dsimp only
    split
    next => exact ⟨(fun _ h => by cases h), fun _ _ _ h => by cases h⟩
    next bound checked =>
    obtain ⟨w, -, checked⟩ := Option.bind_eq_some_iff.mp checked
    split
    next => exact ⟨(fun _ h => by cases h), fun _ _ _ h => by cases h⟩
    constructor
    · intro b h
      obtain ⟨rfl, depth, deep, unsat⟩ := deepen_eq_proven h
      obtain ⟨script, built, none⟩ := right depth unsat
      exact fun s => not_violates_of_unsat closed checked (by omega) built none
    · intro b states steps h
      obtain ⟨firings, replayed⟩ := deepen_eq_violated h
      obtain ⟨s, reachable, bad⟩ := violates_of_replayRun replayed
      refine ⟨s, reachable, ?_⟩
      split at bad
      next violated =>
        rw [bad] at violated
        exact violated
      next => cases bad

end Phase

end LibPetri.Verified

import LibPetri.Verified.Agreement
import LibPetri.Verified.RestingRuns

/-! # What is proven holds in runs

A property of the analyses speaks of the states of a flat net: a bound or an exclusion of all of them, a quiescence
property of those that enable only what may be reaped.  Where no reachable state violates the property, no marking of a
run does, at any time, or where the run has come to rest.
-/

namespace LibPetri.Verified

open LibPetri.Basis LibPetri.Core LibPetri.Runtime LibPetri.Verification CompiledNet Executor
open LibPetri.Verification.AbstractReplayer
open TokenGame (Counts Enabled)

variable {V N : Type}

/-! ## More tokens -/

section More

variable {S : Type} {flatNet : FlatNet S} {property : SmtProperty} {sinkPlaces : List PlaceName}
  {conditionalSinks : List ConditionalSinks} {s s' : flatNet.State}

theorem aboveBound_mono (le : ∀ p, s p ≤ s' p) {place : PlaceName} {bound : Bound}
    (above : satisfiesBad.aboveBound flatNet s place bound = true) :
    satisfiesBad.aboveBound flatNet s' place bound = true := by
  unfold satisfiesBad.aboveBound at above ⊢
  cases found : flatNet.placeIndex place with
  | none =>
    rw [found] at above
    cases above
  | some idx =>
    rw [found] at above
    refine decide_eq_true (lt_of_lt_of_le (of_decide_eq_true above) ?_)
    exact_mod_cast le idx

/-- A marking that is forbidden stays so with more tokens, unless only quiescent ones are. -/
theorem FlatViolates.mono (safety : ¬OfQuiescence property) (le : ∀ p, s p ≤ s' p)
    (violates : FlatViolates flatNet property sinkPlaces conditionalSinks s) :
    FlatViolates flatNet property sinkPlaces conditionalSinks s' := by
  unfold FlatViolates satisfiesBad at violates ⊢
  cases property with
  | placeBound place bound => exact congrArg Except.ok (aboveBound_mono le (Except.ok.inj violates))
  | branchPlaceBound place bound => exact congrArg Except.ok (aboveBound_mono le (Except.ok.inj violates))
  | mutualExclusion p1 p2 =>
    dsimp only at violates ⊢
    rw [Except.ok.injEq] at violates ⊢
    cases first : flatNet.placeIndex p1 with
    | none => simp [first] at violates
    | some i =>
      cases second : flatNet.placeIndex p2 with
      | none => simp [first, second] at violates
      | some j =>
        simp only [first, second, Bool.and_eq_true, decide_eq_true_eq] at violates ⊢
        exact ⟨violates.1.trans (le i), violates.2.trans (le j)⟩
  | unreachable places =>
    dsimp only at violates ⊢
    rw [Except.ok.injEq, Bool.and_eq_true, List.all_eq_true] at violates ⊢
    refine ⟨fun idx mem => ?_, violates.2⟩
    exact decide_eq_true ((of_decide_eq_true (violates.1 idx mem)).trans (le idx))
  | deadlockFree => exact absurd rfl safety
  | terminatesAtSink => exact absurd rfl safety
  | joinedOrDeadLettered => exact absurd rfl safety
  | quiescentCount => exact absurd rfl safety
  | nameAligned => exact absurd rfl safety
  | quiescentNameAligned => exact absurd rfl safety

end More

/-! ## Rest -/

section Rest

variable {net : PetriNet V N} {reapable : Transition V N → Bool} {m : Counts}

/-- A marking that enables only what may be reaped is quiescent in the flat net. -/
theorem isQuiescent_of_rest
    (rest : ∀ t : NetTransition net, Enabled (transitionAt t) m → reapable (transitionAt t) = true) :
    isQuiescent (closedFlatNet net reapable) (countsIn _ m) = true := by
  unfold isQuiescent
  simp only [List.all_eq_true, Bool.or_eq_true, Bool.not_eq_true', enabledRelaxEnv_closed]
  intro ft listed
  obtain ⟨t, -, branch⟩ := List.mem_flatMap.mp listed
  obtain ⟨i, lt, rfl⟩ := List.mem_mapIdx.mp branch
  by_cases can : Enabled (transitionAt t) m
  · exact .inl (rest t can)
  · exact .inr (Bool.eq_false_iff.mpr fun enabled => can (enabledA_iff.mp enabled))

variable [LinearOrder N]

/-- Without names a transition fires where its counts enable it. -/
theorem fireable_of_enabled {t : Transition V N} {queue : PlaceName → List (Token V)} (unmatched : t.matchSpec = none)
    (can : Enabled t (counts queue)) : Fireable t none queue where
  bound := by rw [unmatched]; rfl
  takeable spec mem :=
    have free : correlated t spec.place = none := by rw [correlated, unmatched]; rfl
    { enough := by
        rw [eligible_of_free (.inl free)]
        exact (can.inputs spec mem).trans (List.countP_eq_length.mpr fun _ _ => rfl).ge
      projected := fun key found => by
        rw [free] at found
        cases found }
  binding _ := by rw [findBinding, unmatched]
  reads p mem := List.length_pos_iff.mp (can.reads p mem)
  inhibitors p mem := List.length_eq_zero_iff.mp (can.inhibitors p mem)

variable {cfg : Setting V N} {S : Type} {B : Backend cfg S} {x : Exec cfg S}

/-- A run of a net without joins rests at a marking that is quiescent for the analysis. -/
theorem AtRest.isQuiescent (h : AtRest B x) (unmatched : ∀ t ∈ cfg.net.transitions, t.matchSpec = none) :
    isQuiescent (closedFlatNet cfg.net (reapableIn cfg.net)) (countsIn _ (counts fun p => B.queue p x.store)) = true := by
  refine isQuiescent_of_rest fun t can => ?_
  have free := unmatched _ (transition_mem t)
  rcases h.dead t with ⟨reapable, -⟩ | dead
  · exact reapableIn_of_mem (transition_mem t) reapable
  · have safe : SafeStamps (transition t) fun p => B.queue p x.store := fun ms matched => by
      rw [free] at matched
      cases matched
    exact absurd (fireable_of_enabled free can) (dead none safe)

end Rest

/-! ## Along a run -/

section Runs

variable [LinearOrder N] {cfg : Setting V N} {S : Type} {B : Backend cfg S}
  {flatNet : FlatNet (NetTransition cfg.net)} {property : SmtProperty} {sinkPlaces : List PlaceName}
  {conditionalSinks : List ConditionalSinks} {mode : EnvironmentAnalysisMode}

/-- The state of the flat net that counts the tokens of an executor. -/
def stateOf (flatNet : FlatNet (NetTransition cfg.net)) (B : Backend cfg S) (x : Exec cfg S) : flatNet.State :=
  countsIn flatNet (counts fun p => B.queue p x.store)

/-- A machine keeps to a property: its marking never violates one that every marking must meet, and where a run of a net
without joins has come to rest, the marking is quiescent and violates none. -/
structure KeepsTo (flatNet : FlatNet (NetTransition cfg.net)) (property : SmtProperty) (sinkPlaces : List PlaceName)
    (conditionalSinks : List ConditionalSinks) (B : Backend cfg S) (m : Machine cfg S) : Prop where
  always : ¬OfQuiescence property →
    ¬FlatViolates flatNet property sinkPlaces conditionalSinks (stateOf flatNet B m.exec)
  atRest : m.phase = .ended → m.exec.io.reason = .quiescent → (∀ t ∈ cfg.net.transitions, t.matchSpec = none) →
    isQuiescent flatNet (stateOf flatNet B m.exec) = true ∧
      ¬FlatViolates flatNet property sinkPlaces conditionalSinks (stateOf flatNet B m.exec)

theorem keepsTo_of_shown {m : Machine cfg S} {s : (closedFlatNet cfg.net (reapableIn cfg.net)).State}
    (shown : ShowsIn (closedFlatNet cfg.net (reapableIn cfg.net)) (tokensOf B m.exec) s)
    (fine : ¬FlatViolates (closedFlatNet cfg.net (reapableIn cfg.net)) property sinkPlaces conditionalSinks s)
    (rests : m.phase = .ended → m.exec.io.reason = .quiescent → AtRest B m.exec) :
    KeepsTo (closedFlatNet cfg.net (reapableIn cfg.net)) property sinkPlaces conditionalSinks B m := by
  refine ⟨fun safety violates => fine (violates.mono safety shown.bounds), fun ended quiescent unmatched => ?_⟩
  have rest := rests ended quiescent
  refine ⟨rest.isQuiescent unmatched, ?_⟩
  have idle : ∀ tid, (tokensOf B m.exec).flight tid = none := fun tid => by
    show (B.flight? tid m.exec.store).map consumptionIn = none
    rw [rest.idle tid]
    rfl
  have same : stateOf (closedFlatNet cfg.net (reapableIn cfg.net)) B m.exec = s :=
    funext fun p => (shown.exact_ idle p).symm
  rwa [same]

variable [Value V] [ToString N]

end Runs

/-! ## A choice -/

section Choice

variable {S : Type} {flatNet : FlatNet S} {s s' : flatNet.State}

/-- A list of states that leads to no others has all that are reachable. -/
theorem flatReachable_within {states : List flatNet.State} (start : s ∈ states)
    (closed : ∀ t ∈ states, ∀ x ∈ successors flatNet t, x.state ∈ states) (reachable : FlatReachable flatNet s s') :
    s' ∈ states := by
  induction reachable with
  | refl => exact start
  | tail _ step ih =>
    obtain ⟨x, mem, rfl⟩ := step
    exact closed _ ih x mem

/-- Before the choice, and after it one way and the other. -/
def forkStates : List (closedFlatNet forkSetting.net (reapableIn forkSetting.net)).State :=
  [countsIn _ fun p => if p = "in" then 1 else 0, countsIn _ fun p => if p = "left" then 1 else 0,
    countsIn _ fun p => if p = "right" then 1 else 0]

end Choice

end LibPetri.Verified

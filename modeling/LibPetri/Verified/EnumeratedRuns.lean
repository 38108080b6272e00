import LibPetri.Verified.LegibleKeys
import LibPetri.Verified.PreparedRuns

/-! # What an enumeration proves holds in runs

An enumeration reads its verdict off the graph of the net it has prepared.  A property it has proven holds of every
run of the net of its caller, in whatever order firings start, fail and complete.
-/

namespace LibPetri.Verified

open LibPetri.Basis LibPetri.Core LibPetri.Runtime LibPetri.Verification CompiledNet Executor
open LibPetri.Verification.ScgVerifier
open TokenGame (Counts Enabled Dead ReachableMarking)

variable {V N : Type}

/-! ## What is proven -/

section Proven

variable {net : PetriNet V N} {property : SmtProperty} {sinkPlaces : List PlaceName}
  {conditionalSinks : List ConditionalSinks}

/-- A marking that is forbidden stays so with more tokens, unless only dead ones are. -/
theorem Violates.mono {m m' : Counts} (safety : ¬OfQuiescence property) (le : ∀ p, m p ≤ m' p)
    (violates : Violates net sinkPlaces conditionalSinks m property) :
    Violates net sinkPlaces conditionalSinks m' property := by
  cases property with
  | placeBound place bound =>
    have more : ((m place : ℚ) : Bound) ≤ ((m' place : ℚ) : Bound) := by exact_mod_cast le place
    exact lt_of_lt_of_le violates more
  | branchPlaceBound place bound =>
    have more : ((m place : ℚ) : Bound) ≤ ((m' place : ℚ) : Bound) := by exact_mod_cast le place
    exact lt_of_lt_of_le violates more
  | mutualExclusion p1 p2 => exact ⟨violates.1.trans_le (le p1), violates.2.trans_le (le p2)⟩
  | unreachable places => exact fun p mem => (violates p mem).trans_le (le p)
  | deadlockFree => exact absurd rfl safety
  | terminatesAtSink => exact absurd rfl safety
  | joinedOrDeadLettered => exact absurd rfl safety
  | quiescentCount => exact absurd rfl safety
  | nameAligned => exact absurd rfl safety
  | quiescentNameAligned => exact absurd rfl safety

variable {I O : Type} {verifier : SmtVerifier I O} {netOf : I → PetriNet V N}

/-- The outcomes an enumeration comes to: without a cache, and with one that has answered other queries. -/
def Enumerates [DecidableEq I] [DecidableEq O] (netOf : I → PetriNet V N) (verifier : SmtVerifier I O)
    (outcome : ScgOutcome) : Prop :=
  verifier.enumerateUncached netOf = .ok outcome ∨
    ∃ cache, Reached netOf cache ∧ (verifier.enumerate netOf cache).1 = .ok outcome

/-- The reduction is for quiescence properties. -/
theorem ofQuiescence_of_stubborn (reduced : verifier.stubbornEnumeration net = true) :
    OfQuiescence verifier.property := by
  unfold SmtVerifier.stubbornEnumeration at reduced
  unfold OfQuiescence
  split at reduced
  next kind => rw [kind]; rfl
  next kind => rw [kind]; rfl
  next kind => rw [kind]; rfl
  next kind => rw [kind]; rfl
  next => cases reduced

theorem route_unmatched (route : verifier.enumerationRoute netOf = true) :
    ∀ t ∈ (verifier.prepare netOf).net.transitions, t.matchSpec = none := by
  simp only [SmtVerifier.enumerationRoute, Bool.and_eq_true, List.all_eq_true,
    Option.isNone_iff_eq_none] at route
  exact route.1.1.1.2

/-- What is proven with a cache is proven without. -/
theorem Enumerates.uncached [DecidableEq I] [DecidableEq O] (route : verifier.enumerationRoute netOf = true)
    {outcome : ScgOutcome} (enumerates : Enumerates netOf verifier outcome) {method : String}
    (proven : verdictOf outcome = some (.proven method)) :
    ∃ cold, verifier.enumerateUncached netOf = .ok cold ∧ verdictOf cold = some (.proven method) := by
  obtain uncached | ⟨cache, reached, enumerated⟩ := enumerates
  · exact ⟨outcome, uncached, proven⟩
  · obtain ⟨-, immediate⟩ := enumerationRoute_spec route
    obtain ⟨⟨lookup, answered, answers⟩, -⟩ := lookup_spec route (reached_honest reached)
    obtain ⟨cold, cached, uncached, read, consistent⟩ := consistent_of_answers immediate answers
    -- the outcome is the one read off the lookup
    have same := (enumerate_fst answered).symm.trans enumerated
    obtain rfl := Except.ok.inj (read.symm.trans same)
    exact ⟨cold, uncached, consistent.proven method proven⟩

/-- A property an enumeration has proven forbids no reachable marking. -/
theorem not_violates_of_enumeration (route : verifier.enumerationRoute netOf = true)
    (legible : ∀ p, Named (verifier.prepare netOf).net verifier.initialMarking p → Legible p)
    {outcome : ScgOutcome} {method : String} (answer : verifier.enumerateUncached netOf = .ok outcome)
    (proven : verdictOf outcome = some (.proven method)) {m : Counts}
    (reach : ReachableMarking (verifier.prepare netOf).net verifier.initialMarking.tokens m) :
    ¬Violates (verifier.prepare netOf).net (verifier.prepare netOf).sinkPlaces
      (verifier.prepare netOf).conditionalSinks m verifier.property := by
  obtain ⟨-, immediate⟩ := enumerationRoute_spec route
  obtain ⟨g, built⟩ : ∃ g, buildStateSpace (verifier.prepare netOf).net verifier.initialMarking
      verifier.enumerationMaxClasses (verifier.stubbornEnumeration (verifier.prepare netOf).net) = .ok g :=
    ⟨_, rfl⟩
  obtain ⟨cold, uncached, decided, -⟩ := exists_cold built
  obtain rfl := Except.ok.inj (uncached.symm.trans answer)
  cases cold with
  | truncated => cases proven
  | decided verdict =>
    obtain rfl : verdict = .proven method := Option.some.inj proven
    obtain ⟨complete, -, clear⟩ := decided_proven decided
    have tells := keysTell_of_legible legible
    exact not_violates_of_clear immediate built tells ofQuiescence_of_stubborn complete clear reach

end Proven

/-! ## Along a run -/

section Runs

variable [LinearOrder N] {cfg : Setting V N} {S : Type} {B : Backend cfg S} {net' : PetriNet V N}
  {split : Transition V N → Bool} {property : SmtProperty} {sinkPlaces : List PlaceName}
  {conditionalSinks : List ConditionalSinks}

/-- The marking of an executor. -/
def markingOf (B : Backend cfg S) (x : Exec cfg S) : Counts := counts fun p => B.queue p x.store

/-- A machine fulfils a property: its marking never violates one that every marking must meet, and where it has come
to rest, its marking is dead and, with no firing failed, violates none. -/
structure Fulfils (net' : PetriNet V N) (property : SmtProperty) (sinkPlaces : List PlaceName)
    (conditionalSinks : List ConditionalSinks) (B : Backend cfg S) (m : Machine cfg S) : Prop where
  always : ¬OfQuiescence property → ¬Violates net' sinkPlaces conditionalSinks (markingOf B m.exec) property
  atRest : m.phase = .ended → m.exec.io.reason = .quiescent →
    Dead net' (markingOf B m.exec) ∧
      ((∀ e ∈ m.exec.history.filter booked, loses e = false) →
        ¬Violates net' sinkPlaces conditionalSinks (markingOf B m.exec) property)

omit [LinearOrder N] in
/-- The transitions of a net are those of its split, or start as they do. -/
theorem InTwoSteps.counterpart (steps : InTwoSteps cfg.net net' split) {t : Transition V N}
    (mem : t ∈ cfg.net.transitions) :
    ∃ u ∈ net'.transitions, u.timing = t.timing ∧ u.matchSpec = t.matchSpec := by
  cases halved : split t with
  | false => exact ⟨t, steps.whole t mem halved, rfl, rfl⟩
  | true => exact ⟨startOf t, steps.start t mem halved, rfl, rfl⟩

omit [LinearOrder N] in
/-- Nothing is reaped in a net that knows no time. -/
theorem InTwoSteps.unreapable (steps : InTwoSteps cfg.net net' split) (immediate : isUntimed net' = true)
    (t : Transition V N) : reapableIn cfg.net t = false := by
  refine decide_eq_false fun listed => ?_
  obtain ⟨u, reapable, -⟩ := List.mem_map.mp listed
  obtain ⟨mem, timed⟩ := List.mem_filter.mp reapable
  obtain ⟨u', mem', timing, -⟩ := steps.counterpart mem
  have now : u'.timing = .immediate := of_decide_eq_true (List.all_eq_true.mp immediate u' mem')
  rw [← timing, now] at timed
  cases timed

omit [LinearOrder N] in
/-- Without injections, the counts move as the token game plays. -/
theorem CountReachable.reachableMarking {m m' : Counts} (reachable : CountReachable net' [] m m') :
    ReachableMarking net' m m' := by
  induction reachable with
  | refl => exact .refl
  | tail _ move ih =>
    cases move with
    | fire t o can outcome => exact ih.tail ⟨t, can, o, outcome, rfl⟩
    | inject p open_ => cases open_

theorem fulfils_of_run {m : Machine cfg S} {start : Counts}
    (same : counts (seedTokens cfg.initialTokens) = start)
    (run : TokenRun cfg (seedTokens cfg.initialTokens) (m.exec.history.filter booked) (tokensOf B m.exec))
    (accepted : AllAccepted (m.exec.history.filter booked))
    (permitted : Throughout (Permitted []) (m.exec.history.filter booked))
    (steps : InTwoSteps cfg.net net' split) (built : AsBuilt cfg.net) (undrained : drainedForward cfg.net = false)
    (drains : DrainsUncorrelated cfg.net) (immediate : isUntimed net' = true)
    (unmatched : ∀ t ∈ net'.transitions, t.matchSpec = none)
    (unmarked : ∀ t ∈ cfg.net.transitions, split t = true → B.queue (inFlightPlace t.name) m.exec.store = [])
    (fine : ∀ {m' : Counts}, ReachableMarking net' start m' →
      ¬Violates net' sinkPlaces conditionalSinks m' property)
    (rests : m.phase = .ended → m.exec.io.reason = .quiescent → AtRest B m.exec) :
    Fulfils net' property sinkPlaces conditionalSinks B m := by
  subst same
  obtain ⟨lost, covered, kept⟩ := run.covered steps built undrained drains accepted permitted
  obtain ⟨any, valid⟩ := exists_choice cfg.net
  have reached := (covered.reached any valid).reachableMarking
  refine ⟨fun safety violates => ?_, fun ended quiescent => ?_⟩
  · -- with the firings in flight completed there are more tokens
    have le (p : PlaceName) : markingOf B m.exec p ≤ covering split (tokensOf B m.exec) lost any p :=
      le_covering (tokensOf B m.exec) lost any p
    exact fine reached (violates.mono safety le)
  · have rest := rests ended quiescent
    have joinless (t : Transition V N) (mem : t ∈ cfg.net.transitions) : t.matchSpec = none := by
      obtain ⟨u, mem', -, matching⟩ := steps.counterpart mem
      exact matching.symm.trans (unmatched u mem')
    refine ⟨fun t can => ?_, fun none_lost => ?_⟩
    · have reaped := rest.reapable_split joinless steps unmarked (transitionAt_mem t) can
      rw [steps.unreapable immediate] at reaped
      cases reaped
    · have all : covering split (tokensOf B m.exec) lost any = markingOf B m.exec :=
        funext fun p => covering_idle rest.flight_none (kept none_lost) any p
      exact all ▸ fine reached

variable [Value V] [ToString N] {I O : Type} [DecidableEq I] [DecidableEq O] {verifier : SmtVerifier I O} {netOf : I → PetriNet V N}

end Runs

/-! ## The graph of a split net -/

end LibPetri.Verified

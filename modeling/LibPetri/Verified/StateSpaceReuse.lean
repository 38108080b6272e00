import LibPetri.Basis.Budgets
import LibPetri.Verification.SmtVerifier
import LibPetri.Verified.Verdicts

/-! # Verdicts from a shared cache

Whatever queries a cache has answered, what it answers next is the graph that the query would build, or a
longer exploration of the same graph, read as a prefix.
-/

namespace LibPetri.Verified

open LibPetri.Basis LibPetri.Core LibPetri.Runtime LibPetri.Verification
open LibPetri.Verification.ScgVerifier TokenGame

/-! ## The verdict over a prefix -/

/-- The verdict of an outcome, none where the encoders decide. -/
def verdictOf : ScgOutcome → Option Verdict
  | .decided verdict _ _ _ _ => some verdict
  | .truncated _ => none

section Prefixes

variable {V N : Type} {net : PetriNet V N} {g g' : StateClassGraph net} {property : SmtProperty}
  {sinkPlaces : List PlaceName} {conditionalSinks : List ConditionalSinks} {asPrefix : Bool}

variable (g property sinkPlaces conditionalSinks asPrefix) in
/-- The verdict a graph gives. -/
def verdictAt : Option Verdict :=
  match property.routeBOnlyReason with
  | some reason => some (.unknown reason)
  | none =>
    if ∃ v < g.classes.length,
        classViolates (classView g []) property sinkPlaces conditionalSinks v = true then
      some .violated
    else if g.complete && !asPrefix then some (.proven "state-space enumeration (VER-017)")
    else none

variable (g property sinkPlaces conditionalSinks asPrefix) in
/-- The decision returns, with that verdict. -/
theorem exists_decided : ∃ outcome,
    decideOverStateSpace g property sinkPlaces conditionalSinks asPrefix [] = .ok outcome ∧
      verdictOf outcome = verdictAt g property sinkPlaces conditionalSinks asPrefix := by
  unfold decideOverStateSpace decideOverClasses verdictAt
  cases property.routeBOnlyReason with
  | some reason => exact ⟨_, rfl, rfl⟩
  | none =>
    dsimp only [bind, Except.bind]
    cases found : (List.range (classView g []).count).find?
        (classViolates (classView g []) property sinkPlaces conditionalSinks) with
    | some v =>
      obtain ⟨witness, bound, -⟩ := List.find?_range_eq_some.mp found
      refine ⟨_, rfl, ?_⟩
      rw [if_pos ⟨v, List.mem_range.mp bound, witness⟩]
      rfl
    | none =>
      have clear := List.find?_range_eq_none.mp found
      have none_ : ¬∃ v < g.classes.length,
          classViolates (classView g []) property sinkPlaces conditionalSinks v = true := by
        rintro ⟨v, bound, witness⟩
        simpa [witness] using clear v bound
      rw [if_neg none_]
      cases closed : g.complete && !asPrefix with
      | true => exact ⟨_, rfl, rfl⟩
      | false => exact ⟨_, rfl, rfl⟩

/-- What a class of a prefix witnesses, it witnesses in the longer exploration. -/
theorem classViolates_prefix (shorter : Exploration.Prefix g g') {i : Nat}
    (bound : i < g.classes.length)
    (violates : classViolates (classView g []) property sinkPlaces conditionalSinks i = true) :
    classViolates (classView g' []) property sinkPlaces conditionalSinks i = true := by
  obtain ⟨classes, grows⟩ := shorter.classes
  obtain ⟨rows, expands⟩ := shorter.rows
  have marking : (classView g' []).markingOf i = (classView g []).markingOf i := by
    simp [classView, ← grows, List.getElem?_append_left bound]
  have rests (quiescent : (classView g []).isQuiescent i = true) :
      (classView g' []).isQuiescent i = true := by
    simp only [classView, ne_eq, not_true_eq_false, decide_false, Bool.false_and, Bool.or_false,
      Bool.and_eq_true, decide_eq_true_eq] at quiescent ⊢
    obtain ⟨expanded, none_⟩ := quiescent
    have longer : g.expanded ≤ g'.expanded := shorter.rows.length_le
    refine ⟨Nat.lt_of_lt_of_le expanded longer, ?_⟩
    unfold outgoingBranchEdges at none_ ⊢
    rwa [← expands, List.getElem?_append_left expanded]
  unfold classViolates at violates ⊢
  rw [marking]
  cases safety : safetyViolation property with
  | some _ => rwa [safety] at violates
  | none =>
    rw [safety] at violates
    dsimp only at violates ⊢
    rw [Bool.and_eq_true] at violates ⊢
    exact ⟨rests violates.1, violates.2⟩

/-- A longer exploration read as a prefix says what a truncated one says, or finds a violation. -/
theorem verdictAt_prefix (shorter : Exploration.Prefix g g') (gaveUp : g.complete = false) :
    verdictAt g' property sinkPlaces conditionalSinks true =
        verdictAt g property sinkPlaces conditionalSinks false ∨
      verdictAt g' property sinkPlaces conditionalSinks true = some .violated ∧
        verdictAt g property sinkPlaces conditionalSinks false = none := by
  unfold verdictAt
  cases property.routeBOnlyReason with
  | some reason => exact .inl rfl
  | none =>
    dsimp only
    by_cases found : ∃ v < g.classes.length,
        classViolates (classView g []) property sinkPlaces conditionalSinks v = true
    · obtain ⟨v, bound, witness⟩ := found
      have bound' := Nat.lt_of_lt_of_le bound shorter.classes.length_le
      rw [if_pos ⟨v, bound', classViolates_prefix shorter bound witness⟩, if_pos ⟨v, bound, witness⟩]
      exact .inl rfl
    · rw [if_neg found, gaveUp]
      by_cases later : ∃ v < g'.classes.length,
          classViolates (classView g' []) property sinkPlaces conditionalSinks v = true
      · rw [if_pos later]
        exact .inr ⟨rfl, rfl⟩
      · rw [if_neg later]
        simp

/-- A prefix proves nothing. -/
theorem verdictAt_true_ne_proven (method : String) :
    verdictAt g property sinkPlaces conditionalSinks true ≠ some (.proven method) := by
  unfold verdictAt
  cases property.routeBOnlyReason with
  | some reason => simp
  | none =>
    dsimp only
    split
    · simp
    · simp

end Prefixes

/-! ## What a cache holds -/

section Caches

variable {V N I O : Type} {netOf : I → PetriNet V N}

/-- The net the graph of a key is built from. -/
def builtNet (net : PetriNet V N) (split : List String) (initial : MarkingState) : PetriNet V N :=
  let declared := withInertMarkedPlaces net initial
  withTerminalInhibitors (if split = [] then declared else splitNet declared split)

/-- What the in-flight split does: nothing, a split of some transitions, or a refusal. -/
theorem applyInFlight_cases (verifier : SmtVerifier I O) (net : PetriNet V N) :
    verifier.applyInFlight net = (net, [], none) ∨
      (∃ split ≠ [], verifier.applyInFlight net = (splitNet net split, split, none)) ∨
        ∃ reason, verifier.applyInFlight net = (net, [], some reason) := by
  unfold SmtVerifier.applyInFlight splitInFlightFor
  by_cases atomic : verifier.assumeAtomicFiring = true
  · rw [if_pos atomic]
    exact .inl rfl
  · rw [if_neg atomic]
    by_cases none_ : inFlightTransitionsFor net verifier.environmentSteps
        (verifier.splitDemand net) = []
    · dsimp only
      rw [if_pos none_]
      exact .inl rfl
    · dsimp only
      rw [if_neg none_]
      cases firstUnsplittable net verifier.carrierPlaces
          (inFlightTransitionsFor net verifier.environmentSteps (verifier.splitDemand net)) with
      | some refused => exact .inr (.inr ⟨_, rfl⟩)
      | none => exact .inr (.inl ⟨_, none_, rfl⟩)

/-- The net of a verification is a function of the caller's net, the split and the marking. -/
theorem prepare_net {verifier : SmtVerifier I O}
    (answered : (verifier.prepare netOf).inFlightRefusal = none) :
    (verifier.prepare netOf).net = builtNet (netOf verifier.callerNet)
      (verifier.prepare netOf).inFlightSplit verifier.initialMarking := by
  have prepared {net : PetriNet V N} {split : List String} {refusal : Option String}
      (same : verifier.applyInFlight (withInertMarkedPlaces (netOf verifier.callerNet)
        verifier.initialMarking) = (net, split, refusal)) :
      verifier.prepare netOf = verifier.applyNetTerminals net split refusal := by
    unfold SmtVerifier.prepare
    dsimp only
    rw [same]
  obtain same | ⟨split, some_, same⟩ | ⟨reason, same⟩ := applyInFlight_cases verifier
    (withInertMarkedPlaces (netOf verifier.callerNet) verifier.initialMarking)
  · rw [prepared same]
    rfl
  · rw [prepared same]
    simp only [builtNet, SmtVerifier.applyNetTerminals, some_, ↓reduceIte]
  · rw [prepared same] at answered
    cases answered

/-- The graph of an entry is the one its key is built to. -/
structure Honest (net : PetriNet V N) (key : CacheKey) (space : StateSpace V N) (budget : Nat) :
    Prop where
  built : ∃ initial : MarkingState,
    initial.tokenCounts.entries = key.marking.map (fun e => (e.1, e.2.2)) ∧
      space.net = builtNet net key.split initial ∧
        buildStateSpace space.net initial budget key.stubborn = .ok space.graph

/-- What an entry says about the graph of its key. -/
inductive HonestEntry (net : PetriNet V N) (key : CacheKey) : Entry V N → Prop
  | closed {space : StateSpace V N} {budget : Nat} : Honest net key space budget →
      space.graph.complete = true → HonestEntry net key (.closed space)
  | truncated {space : StateSpace V N} {budget : Nat} : Honest net key space budget →
      space.graph.complete = false → HonestEntry net key (.truncated budget space)

variable [DecidableEq I] [DecidableEq O]

/-- Every entry is honest about the net its key belongs to. -/
def HonestCache (netOf : I → PetriNet V N) (cache : StateSpaceCache V N I O) : Prop :=
  ∀ i key entry, cache.entries.get? (i, key) = some entry → HonestEntry (netOf i) key entry

omit [DecidableEq I] in
theorem placeId_entries (object : O) (cache : StateSpaceCache V N I O) :
    (cache.placeId object).2.entries = cache.entries := by
  unfold StateSpaceCache.placeId
  split <;> rfl

omit [DecidableEq I] in
/-- A key lists the marking, and giving ids leaves the entries alone. -/
theorem markingKeyOf_spec (objectOf : PlaceName → O) (listed : List (PlaceName × Nat))
    (cache : StateSpaceCache V N I O) :
    (cache.markingKeyOf objectOf listed).1.map (fun e => (e.1, e.2.2)) = listed ∧
      (cache.markingKeyOf objectOf listed).2.entries = cache.entries := by
  induction listed generalizing cache with
  | nil => exact ⟨rfl, rfl⟩
  | cons e rest ih =>
    obtain ⟨p, count⟩ := e
    obtain ⟨lists, keeps⟩ := ih (cache.placeId (objectOf p)).2
    simp only [StateSpaceCache.markingKeyOf, List.map_cons]
    exact ⟨congrArg _ lists, keeps.trans (placeId_entries _ cache)⟩

omit [DecidableEq I] [DecidableEq O] in
theorem marking_ext {m m' : MarkingState}
    (same : m.tokenCounts.entries = m'.tokenCounts.entries) : m = m' := by
  obtain ⟨⟨entries, nodup⟩, positive⟩ := m
  obtain ⟨⟨entries', nodup'⟩, positive'⟩ := m'
  obtain rfl : entries = entries' := same
  rfl

/-- What a query gets: the graph it would build, or where it declines a longer one. -/
inductive AnswersQuery (net : PetriNet V N) (initial : MarkingState) (budget : Nat) (stubborn : Bool) :
    StateSpaceLookup V N → Prop
  | built {g : StateClassGraph net} : buildStateSpace net initial budget stubborn = .ok g →
      AnswersQuery net initial budget stubborn (.built ⟨net, g⟩)
  | reused {g : StateClassGraph net} : buildStateSpace net initial budget stubborn = .ok g →
      AnswersQuery net initial budget stubborn (.reused ⟨net, g⟩)
  | declined {g g' : StateClassGraph net} {larger : Nat} :
      buildStateSpace net initial budget stubborn = .ok g → g.complete = false →
        buildStateSpace net initial larger stubborn = .ok g' → Exploration.Prefix g g' →
          AnswersQuery net initial budget stubborn (.declined ⟨net, g'⟩)

section Budgets

omit [DecidableEq I] [DecidableEq O]

variable {net : PetriNet V N} {initial : MarkingState} {known budget : Nat} {stubborn : Bool}
  {g : StateClassGraph net} (built : buildStateSpace net initial known stubborn = .ok g)

include built

theorem buildStateSpace_room (complete : g.complete = true) (room : g.classes.length < budget) :
    buildStateSpace net initial budget stubborn = .ok g := by
  obtain rfl := Except.ok.inj built
  exact congrArg Except.ok (Exploration.build_eq_of_complete complete room)

theorem buildStateSpace_short (complete : g.complete = true) (short : budget ≤ g.classes.length) :
    ∃ g₀, buildStateSpace net initial budget stubborn = .ok g₀ ∧ g₀.complete = false ∧
      Exploration.Prefix g₀ g := by
  obtain rfl := Except.ok.inj built
  have le := le_trans short (Nat.le_of_lt (Exploration.build_complete_lt complete))
  exact ⟨_, rfl, Exploration.build_gives_up complete short, Exploration.build_prefix le⟩

theorem buildStateSpace_below (gaveUp : g.complete = false) (le : budget ≤ known) :
    ∃ g₀, buildStateSpace net initial budget stubborn = .ok g₀ ∧ g₀.complete = false ∧
      Exploration.Prefix g₀ g := by
  obtain rfl := Except.ok.inj built
  exact ⟨_, rfl, Exploration.build_gives_up_below le gaveUp, Exploration.build_prefix le⟩

end Budgets

omit [DecidableEq I] [DecidableEq O] in
/-- An honest entry answers for its key. -/
theorem HonestEntry.answers {net built : PetriNet V N} {key : CacheKey} {entry : Entry V N}
    (honest : HonestEntry net key entry) {initial : MarkingState} {budget : Nat}
    (listed : key.marking.map (fun e => (e.1, e.2.2)) = initial.tokenCounts.entries)
    (net_ : built = builtNet net key.split initial) {lookup : StateSpaceLookup V N}
    (answered : StateSpaceCache.answerOf (some entry) budget = some lookup) :
    AnswersQuery built initial budget key.stubborn lookup := by
  have of_honest {space : StateSpace V N} {known : Nat} (honest : Honest net key space known) :
      space.net = built ∧
        buildStateSpace space.net initial known key.stubborn = .ok space.graph := by
    obtain ⟨initial', listed', same, graph⟩ := honest.built
    obtain rfl := marking_ext (listed'.trans listed)
    exact ⟨same.trans net_.symm, graph⟩
  unfold StateSpaceCache.answerOf at answered
  cases honest with
  | @closed space known honest complete =>
    obtain ⟨rfl, graph⟩ := of_honest honest
    dsimp only at answered
    by_cases room : space.size < budget
    · rw [if_pos room] at answered
      obtain rfl := Option.some.inj answered
      exact .reused (buildStateSpace_room graph complete room)
    · rw [if_neg room] at answered
      obtain rfl := Option.some.inj answered
      obtain ⟨g₀, cold, gaveUp, shorter⟩ :=
        buildStateSpace_short graph complete (Nat.le_of_not_lt room)
      exact .declined cold gaveUp graph shorter
  | @truncated space known honest gaveUp =>
    obtain ⟨rfl, graph⟩ := of_honest honest
    dsimp only at answered
    by_cases le : budget ≤ known
    · rw [if_pos le] at answered
      obtain rfl := Option.some.inj answered
      obtain ⟨g₀, cold, gaveUp, shorter⟩ := buildStateSpace_below graph gaveUp le
      exact .declined cold gaveUp graph shorter
    · rw [if_neg le] at answered
      cases answered

/-- **Resolving a query.**  The answer is right for the query, and the cache stays honest. -/
theorem resolveStateSpace_spec {cache : StateSpaceCache V N I O} (honest : HonestCache netOf cache)
    (keyNet : I) {split : List String} {buildNet : PetriNet V N} {initial : MarkingState}
    (net_ : buildNet = builtNet (netOf keyNet) split initial) (objectOf : PlaceName → O)
    (budget : Nat) (stubborn : Bool) :
    (∃ lookup, (cache.resolveStateSpace keyNet split buildNet initial objectOf budget stubborn).1 =
        .ok lookup ∧ AnswersQuery buildNet initial budget stubborn lookup) ∧
      HonestCache netOf
        (cache.resolveStateSpace keyNet split buildNet initial objectOf budget stubborn).2 := by
  obtain ⟨listed, keeps⟩ := markingKeyOf_spec objectOf initial.tokenCounts.entries cache
  have honest' : HonestCache netOf (cache.markingKey objectOf initial).2 := fun i key entry found =>
    honest i key entry (by rwa [← keeps])
  unfold StateSpaceCache.resolveStateSpace
  dsimp only
  cases answered : StateSpaceCache.answerOf ((cache.markingKey objectOf initial).2.entries.get?
      (keyNet, ⟨stubborn, split, (cache.markingKey objectOf initial).1⟩)) budget with
  | some lookup =>
    refine ⟨⟨lookup, rfl, ?_⟩, honest'⟩
    cases found : (cache.markingKey objectOf initial).2.entries.get?
        (keyNet, ⟨stubborn, split, (cache.markingKey objectOf initial).1⟩) with
    | none =>
      rw [found] at answered
      cases answered
    | some entry =>
      rw [found] at answered
      exact (honest' _ _ _ found).answers listed net_ answered
  | none =>
    dsimp only
    have built : ∃ g, buildStateSpace buildNet initial budget stubborn = .ok g := ⟨_, rfl⟩
    obtain ⟨g, built⟩ := built
    rw [built]
    refine ⟨⟨_, rfl, .built built⟩, fun i key entry found => ?_⟩
    simp only [StateSpaceCache.remember, OrderedMap.get?_set] at found
    split at found
    next here =>
      obtain ⟨rfl, rfl⟩ := Prod.mk.inj here
      obtain rfl := Option.some.inj found
      have own : Honest (netOf i) ⟨stubborn, split, (cache.markingKey objectOf initial).1⟩
          ⟨buildNet, g⟩ budget := ⟨initial, listed.symm, net_, built⟩
      split
      next complete => exact .closed own complete
      next gaveUp => exact .truncated own (by simpa using gaveUp)
    next => exact honest' i key entry found

/-! ## Queries in any order -/

/-- The caches that queries and clears lead to. -/
inductive Reached (netOf : I → PetriNet V N) : StateSpaceCache V N I O → Prop
  | empty : Reached netOf .empty
  | verify {cache : StateSpaceCache V N I O} (verifier : SmtVerifier I O) :
      Reached netOf cache → Reached netOf (verifier.verify netOf cache)
  | clear {cache : StateSpaceCache V N I O} : Reached netOf cache → Reached netOf cache.clear

section Queries

variable {cache : StateSpaceCache V N I O} {verifier : SmtVerifier I O}
  (route : verifier.enumerationRoute netOf = true)

omit [DecidableEq I] [DecidableEq O] in
include route in
theorem enumerationRoute_spec :
    (verifier.prepare netOf).inFlightRefusal = none ∧
      isUntimed (verifier.prepare netOf).net = true := by
  simp only [SmtVerifier.enumerationRoute, Bool.and_eq_true, Option.isNone_iff_eq_none] at route
  exact ⟨route.1.1.1.1, route.2⟩

include route in
/-- Looking a query up in an honest cache. -/
theorem lookup_spec (honest : HonestCache netOf cache) :
    (∃ lookup, (verifier.lookup netOf cache).1 = .ok lookup ∧
        AnswersQuery (verifier.prepare netOf).net verifier.initialMarking verifier.enumerationMaxClasses
          (verifier.stubbornEnumeration (verifier.prepare netOf).net) lookup) ∧
      HonestCache netOf (verifier.lookup netOf cache).2 :=
  resolveStateSpace_spec honest verifier.callerNet (prepare_net (enumerationRoute_spec route).1)
    verifier.objectOf verifier.enumerationMaxClasses _

theorem enumerate_snd : (verifier.enumerate netOf cache).2 = (verifier.lookup netOf cache).2 := by
  unfold SmtVerifier.enumerate
  cases verifier.lookup netOf cache with
  | mk answer cache' => cases answer <;> rfl

/-- An enumeration is read off what its lookup gave. -/
theorem enumerate_fst {lookup : StateSpaceLookup V N} (answered : (verifier.lookup netOf cache).1 = .ok lookup) :
    (verifier.enumerate netOf cache).1 = verifier.decideLookup netOf lookup := by
  unfold SmtVerifier.enumerate
  cases found : verifier.lookup netOf cache with
  | mk answer cache' =>
    rw [found] at answered
    obtain rfl : answer = .ok lookup := answered
    rfl

theorem reached_honest (reached : Reached netOf cache) : HonestCache netOf cache := by
  induction reached with
  | empty =>
    intro i key entry found
    simp [StateSpaceCache.empty] at found
  | clear =>
    intro i key entry found
    simp [StateSpaceCache.clear, StateSpaceCache.empty] at found
  | verify verifier _ ih =>
    unfold SmtVerifier.verify
    split
    next route =>
      rw [enumerate_snd]
      exact (lookup_spec route ih).2
    next => exact ih

end Queries

/-! ## The outcome of a query -/

section Outcomes

omit [DecidableEq I] [DecidableEq O]

variable {net : PetriNet V N} {g : StateClassGraph net} {property : SmtProperty}
  {sinkPlaces : List PlaceName} {conditionalSinks : List ConditionalSinks} {asPrefix : Bool}

theorem FiringSequence.head {m₀ m : MarkingState} {trace : List MarkingState}
    {transitions : List String} (sequence : FiringSequence net m₀ trace transitions m) :
    ∃ rest, trace = m₀ :: rest := by
  induction sequence with
  | start => exact ⟨[], rfl⟩
  | fire t _ _ ih =>
    obtain ⟨rest, rfl⟩ := ih
    exact ⟨_, List.cons_append⟩

/-- Only a violation has a trace. -/
theorem decided_trace {verdict : Verdict} {trace : List MarkingState} {transitions : List String}
    {n : Nat} {truncated : Bool}
    (decided : decideOverStateSpace g property sinkPlaces conditionalSinks asPrefix [] =
      .ok (.decided verdict trace transitions n truncated)) :
    trace = [] ∨ verdict = .violated := by
  unfold decideOverStateSpace decideOverClasses at decided
  cases declined : property.routeBOnlyReason with
  | some reason =>
    rw [declined] at decided
    exact .inl (ScgOutcome.decided.inj (Except.ok.inj decided)).2.1.symm
  | none =>
    rw [declined] at decided
    dsimp only [bind, Except.bind] at decided
    cases found : (List.range (classView g []).count).find?
        (classViolates (classView g []) property sinkPlaces conditionalSinks) with
    | some v =>
      rw [found] at decided
      exact .inr (ScgOutcome.decided.inj (Except.ok.inj decided)).1.symm
    | none =>
      rw [found] at decided
      dsimp only at decided
      split at decided
      · cases decided
      · exact .inl (ScgOutcome.decided.inj (Except.ok.inj decided)).2.1.symm

variable {verifier : SmtVerifier I O} {budget : Nat} {stubborn : Bool} {outcome : ScgOutcome}

variable (verifier) in
theorem verdictOf_ownOutcome (declined : Bool) :
    verdictOf (verifier.ownOutcome declined outcome) = verdictOf outcome := by
  cases outcome with
  | truncated => rfl
  | decided verdict trace =>
    cases trace with
    | nil => rfl
    | cons => rfl

/-- The caller's marking is the one a trace starts with. -/
theorem ownOutcome_decided (immediate : isUntimed net = true)
    (built : buildStateSpace net verifier.initialMarking budget stubborn = .ok g)
    (decided : decideOverStateSpace g property sinkPlaces conditionalSinks asPrefix [] = .ok outcome)
    (declined : Bool) (counted : declined = true → verdictOf outcome ≠ none) :
    verifier.ownOutcome declined outcome = outcome := by
  cases outcome with
  | truncated =>
    cases declined with
    | true => exact absurd rfl (counted rfl)
    | false => rfl
  | decided verdict trace transitions n truncated =>
    rcases decided_trace decided with rfl | rfl
    · rfl
    · obtain ⟨m, sequence, -⟩ := violated_firingSequence immediate built decided
      obtain ⟨rest, rfl⟩ := sequence.head
      rfl

end Outcomes

/-- What a query through a cache is to the same query without one. -/
structure Consistent (netOf : I → PetriNet V N) (verifier : SmtVerifier I O) (cold : ScgOutcome)
    (lookup : StateSpaceLookup V N) (cached : ScgOutcome) : Prop where
  /-- Where the cache does not decline, nothing differs. -/
  same : lookup.isDeclined = false → cached = cold
  /-- What is proven with the cache is proven without it. -/
  proven : ∀ method, verdictOf cached = some (.proven method) →
    verdictOf cold = some (.proven method)
  /-- A violation comes with a firing sequence to it. -/
  violated : ∀ trace transitions n truncated, cached = .decided .violated trace transitions n truncated →
    ∃ m, FiringSequence (verifier.prepare netOf).net verifier.initialMarking trace transitions m ∧
      Violates (verifier.prepare netOf).net (verifier.prepare netOf).sinkPlaces
        (verifier.prepare netOf).conditionalSinks m.tokens verifier.property
  /-- Verdicts differ only where a longer exploration found a violation. -/
  differs : verdictOf cached ≠ verdictOf cold → verdictOf cached = some .violated ∧
    verdictOf cold = none ∧ ∃ g g' : StateClassGraph (verifier.prepare netOf).net,
      buildStateSpace (verifier.prepare netOf).net verifier.initialMarking
          verifier.enumerationMaxClasses
          (verifier.stubbornEnumeration (verifier.prepare netOf).net) = .ok g ∧
        lookup = .declined ⟨_, g'⟩ ∧ Exploration.Prefix g g'
  /-- What was declined proves nothing. -/
  declined : lookup.isDeclined = true → ∀ method, verdictOf cached ≠ some (.proven method)

section Consistency

variable {cache : StateSpaceCache V N I O} {verifier : SmtVerifier I O}
  {g g' : StateClassGraph (verifier.prepare netOf).net}
  (immediate : isUntimed (verifier.prepare netOf).net = true)
  (built : buildStateSpace (verifier.prepare netOf).net verifier.initialMarking
    verifier.enumerationMaxClasses
      (verifier.stubbornEnumeration (verifier.prepare netOf).net) = .ok g)

include built

omit [DecidableEq I] [DecidableEq O] in
/-- The outcome without a cache. -/
theorem exists_cold : ∃ cold, verifier.enumerateUncached netOf = .ok cold ∧
    decideOverStateSpace g verifier.property (verifier.prepare netOf).sinkPlaces
      (verifier.prepare netOf).conditionalSinks false [] = .ok cold ∧
      verdictOf cold = verdictAt g verifier.property (verifier.prepare netOf).sinkPlaces
        (verifier.prepare netOf).conditionalSinks false := by
  obtain ⟨cold, decided, verdict⟩ := exists_decided g verifier.property
    (verifier.prepare netOf).sinkPlaces (verifier.prepare netOf).conditionalSinks false
  refine ⟨cold, ?_, decided, verdict⟩
  unfold SmtVerifier.enumerateUncached verifyViaStateClassGraph
  dsimp only
  rw [built]
  exact decided

include immediate

omit [DecidableEq I] [DecidableEq O] in
/-- A graph of the query's own budget gives the outcome without a cache. -/
theorem consistent_same {lookup : StateSpaceLookup V N}
    (answer : lookup = .built ⟨_, g⟩ ∨ lookup = .reused ⟨_, g⟩) :
    ∃ cold, verifier.enumerateUncached netOf = .ok cold ∧
      verifier.decideLookup netOf lookup = .ok cold ∧ Consistent netOf verifier cold lookup cold := by
  obtain ⟨cold, uncached, decided, -⟩ := exists_cold built
  have own : verifier.ownOutcome false cold = cold :=
    ownOutcome_decided immediate built decided false (fun same => by cases same)
  have read : verifier.decideLookup netOf (.built ⟨_, g⟩) = .ok cold := by
    unfold SmtVerifier.decideLookup
    dsimp only [StateSpaceLookup.space, StateSpaceLookup.isDeclined]
    rw [decided]
    exact congrArg Except.ok own
  have violated := fun trace transitions n truncated
      (same : cold = .decided .violated trace transitions n truncated) =>
    violated_firingSequence immediate built (same ▸ decided)
  rcases answer with rfl | rfl
  · exact ⟨cold, uncached, read, fun _ => rfl, fun _ => id, violated, fun differ => absurd rfl differ,
      fun declined => by cases declined⟩
  · exact ⟨cold, uncached, read, fun _ => rfl, fun _ => id, violated, fun differ => absurd rfl differ,
      fun declined => by cases declined⟩

omit [DecidableEq I] [DecidableEq O] in
/-- A longer exploration, read as a prefix, gives an outcome that is consistent with it. -/
theorem consistent_declined {larger : Nat} (gaveUp : g.complete = false)
    (longer : buildStateSpace (verifier.prepare netOf).net verifier.initialMarking larger
      (verifier.stubbornEnumeration (verifier.prepare netOf).net) = .ok g')
    (shorter : Exploration.Prefix g g') :
    ∃ cold cached, verifier.enumerateUncached netOf = .ok cold ∧
      verifier.decideLookup netOf (.declined ⟨_, g'⟩) = .ok cached ∧
        Consistent netOf verifier cold (.declined ⟨_, g'⟩) cached := by
  obtain ⟨cold, uncached, -, coldVerdict⟩ := exists_cold built
  obtain ⟨outcome, decided, verdict⟩ := exists_decided g' verifier.property
    (verifier.prepare netOf).sinkPlaces (verifier.prepare netOf).conditionalSinks true
  have cachedVerdict : verdictOf (verifier.ownOutcome true outcome) = verdictAt g' verifier.property
      (verifier.prepare netOf).sinkPlaces (verifier.prepare netOf).conditionalSinks true :=
    (verdictOf_ownOutcome verifier true).trans verdict
  have noProof (method : String) :
      verdictOf (verifier.ownOutcome true outcome) ≠ some (.proven method) := by
    rw [cachedVerdict]
    exact verdictAt_true_ne_proven method
  refine ⟨cold, verifier.ownOutcome true outcome, uncached, ?_, ?_⟩
  · unfold SmtVerifier.decideLookup
    dsimp only [StateSpaceLookup.space, StateSpaceLookup.isDeclined]
    rw [decided]
    rfl
  · refine ⟨(fun kind => by cases kind), fun method proven => absurd proven (noProof method),
      fun trace transitions n truncated same => ?_, fun differ => ?_, fun _ => noProof⟩
    · have found : verdictOf outcome = some .violated := by
        rw [← verdictOf_ownOutcome verifier true, same]
        rfl
      have own := ownOutcome_decided immediate longer decided true
        fun _ none_ => by simp [found] at none_
      exact violated_firingSequence immediate longer (own.symm.trans same ▸ decided)
    · rw [cachedVerdict, coldVerdict] at differ ⊢
      rcases verdictAt_prefix shorter gaveUp with same | ⟨found, none_⟩
      · exact absurd same differ
      · exact ⟨found, none_, g, g', built, rfl, shorter⟩

end Consistency

omit [DecidableEq I] [DecidableEq O] in
/-- What answers a query gives an outcome that is consistent with the one without a cache. -/
theorem consistent_of_answers {verifier : SmtVerifier I O}
    (immediate : isUntimed (verifier.prepare netOf).net = true) {lookup : StateSpaceLookup V N}
    (answers : AnswersQuery (verifier.prepare netOf).net verifier.initialMarking verifier.enumerationMaxClasses
      (verifier.stubbornEnumeration (verifier.prepare netOf).net) lookup) :
    ∃ cold cached, verifier.enumerateUncached netOf = .ok cold ∧
      verifier.decideLookup netOf lookup = .ok cached ∧ Consistent netOf verifier cold lookup cached := by
  cases answers with
  | built built =>
    obtain ⟨cold, uncached, read, consistent⟩ := consistent_same immediate built (.inl rfl)
    exact ⟨cold, cold, uncached, read, consistent⟩
  | reused built =>
    obtain ⟨cold, uncached, read, consistent⟩ := consistent_same immediate built (.inr rfl)
    exact ⟨cold, cold, uncached, read, consistent⟩
  | declined built gaveUp longer shorter => exact consistent_declined immediate built gaveUp longer shorter

/-- **Verdicts from a cache.**  After any queries and clears, each query gets an outcome that is
consistent with the one it gets without the cache. -/
theorem cache_consistent {cache : StateSpaceCache V N I O} (reached : Reached netOf cache)
    {verifier : SmtVerifier I O} (route : verifier.enumerationRoute netOf = true) :
    ∃ cold lookup cached, verifier.enumerateUncached netOf = .ok cold ∧
      (verifier.lookup netOf cache).1 = .ok lookup ∧
        (verifier.enumerate netOf cache).1 = .ok cached ∧
          Consistent netOf verifier cold lookup cached := by
  obtain ⟨-, immediate⟩ := enumerationRoute_spec route
  obtain ⟨⟨lookup, answered, answers⟩, -⟩ := lookup_spec route (reached_honest reached)
  obtain ⟨cold, cached, uncached, read, consistent⟩ := consistent_of_answers immediate answers
  exact ⟨cold, lookup, cached, uncached, answered, (enumerate_fst answered).trans read, consistent⟩

end Caches

/-- A bound on `b` in the net of one moved token, with a budget of `maxClasses`. -/
def boundVerifier (maxClasses : Nat) : SmtVerifier Unit PlaceName where
  callerNet := ()
  initialMarking := movingMarking
  objectOf := id
  property := .placeBound "b" 0
  sinkPlaces := []
  conditionalSinks := []
  environmentPlaces := []
  environmentSteps := []
  carrierPlaces := []
  assumeAtomicFiring := false
  conflictPruning := false
  partialOrderReduction := true
  enumerationMaxClasses := maxClasses

/-- After a query with room for ten classes, a query with room for one. -/
theorem cache_consistent_moving :
    ∃ cold lookup cached, (boundVerifier 1).enumerateUncached (fun _ => movingNet) = .ok cold ∧
      ((boundVerifier 1).lookup (fun _ => movingNet)
          ((boundVerifier 10).verify (fun _ => movingNet) .empty)).1 = .ok lookup ∧
        ((boundVerifier 1).enumerate (fun _ => movingNet)
            ((boundVerifier 10).verify (fun _ => movingNet) .empty)).1 = .ok cached ∧
          Consistent (fun _ => movingNet) (boundVerifier 1) cold lookup cached :=
  cache_consistent (Reached.verify (boundVerifier 10) .empty) (by decide +kernel)

end LibPetri.Verified

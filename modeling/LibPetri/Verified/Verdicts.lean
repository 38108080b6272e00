import LibPetri.Runtime.CompiledNet
import LibPetri.Verified.CounterexamplePaths
import LibPetri.Verified.TimedClasses

/-! # The verdicts of the enumeration

What a property says of a marking, and that the verdict read off the state-class graph of an untimed net
is right: a violation comes with a shortest firing sequence to it, and nothing reachable violates what is
proven.
-/

namespace LibPetri.Verified

open LibPetri.Basis LibPetri.Core LibPetri.Runtime LibPetri.Verification
open LibPetri.Verification.StateClassGraph LibPetri.Verification.ScgVerifier TokenGame

variable {V N : Type} {net : PetriNet V N}

/-! ## What a property forbids -/

/-- A token of the place may rest in the marking. -/
def Rests (sinkPlaces : List PlaceName) (conditionalSinks : List ConditionalSinks) (m : Counts)
    (p : PlaceName) : Prop :=
  p ∈ sinkPlaces ∨ ∃ c ∈ conditionalSinks, p = c.marker ∨ (0 < m c.marker ∧ p ∈ c.places)

variable (net) in
/-- The markings a property forbids.  A name-alignment property reads names, and forbids none. -/
def Violates (sinkPlaces : List PlaceName) (conditionalSinks : List ConditionalSinks) (m : Counts) :
    SmtProperty → Prop
  | .deadlockFree => Dead net m ∧ ∃ p, 0 < m p ∧ ¬Rests sinkPlaces conditionalSinks m p
  | .terminatesAtSink => Dead net m ∧ ∀ p ∈ sinkPlaces, m p = 0
  | .mutualExclusion p1 p2 => 0 < m p1 ∧ 0 < m p2
  | .placeBound place bound => bound < ((m place : ℚ) : Bound)
  | .unreachable places => ∀ p ∈ places, 0 < m p
  | .branchPlaceBound place bound => bound < ((m place : ℚ) : Bound)
  | .joinedOrDeadLettered pending => Dead net m ∧ 0 < m pending
  | .quiescentCount places min max waivedBy => Dead net m ∧
      (max < ((∑ p ∈ places.toFinset, m p : ℕ) : WithTop ℕ) ∨
        (∑ p ∈ places.toFinset, m p < min ∧ ∀ p ∈ waivedBy, m p = 0))
  | .nameAligned _ => False
  | .quiescentNameAligned _ => False

/-- The property reads quiescent markings only. -/
def OfQuiescence (property : SmtProperty) : Prop := safetyViolation property = none

section Markings

variable {m : MarkingState} {sinkPlaces : List PlaceName} {conditionalSinks : List ConditionalSinks}

theorem safetyViolation_iff {property : SmtProperty} {violates : MarkingState → Bool}
    (safety : safetyViolation property = some violates) :
    violates m = true ↔ Violates net sinkPlaces conditionalSinks m.tokens property := by
  cases property with
  | placeBound =>
    obtain rfl := Option.some.inj safety
    exact decide_eq_true_iff
  | branchPlaceBound =>
    obtain rfl := Option.some.inj safety
    exact decide_eq_true_iff
  | unreachable =>
    obtain rfl := Option.some.inj safety
    simp [Violates, MarkingState.hasTokens_iff]
  | mutualExclusion =>
    obtain rfl := Option.some.inj safety
    simp [Violates, MarkingState.hasTokens_iff]
  | deadlockFree => cases safety
  | terminatesAtSink => cases safety
  | joinedOrDeadLettered => cases safety
  | quiescentCount => cases safety
  | nameAligned => cases safety
  | quiescentNameAligned => cases safety

theorem mem_restingNames {p : PlaceName} :
    p ∈ restingNames m sinkPlaces conditionalSinks ↔
      Rests sinkPlaces conditionalSinks m.tokens p := by
  simp only [restingNames, Rests, List.mem_append, List.mem_flatMap, List.mem_cons]
  refine or_congr_right (exists_congr fun c => and_congr_right fun _ => or_congr_right ?_)
  by_cases marked : 0 < m.tokens c.marker
  · simp [MarkingState.hasTokens_iff.mpr marked, marked]
  · have : m.hasTokens c.marker = false := by
      rw [← Bool.not_eq_true, MarkingState.hasTokens_iff]
      exact marked
    simp [this, marked]

theorem strandsToken_iff :
    strandsToken m sinkPlaces conditionalSinks = true ↔
      ∃ p, 0 < m.tokens p ∧ ¬Rests sinkPlaces conditionalSinks m.tokens p := by
  simp only [strandsToken, List.any_eq_true, MarkingState.mem_placesWithTokens, decide_eq_true_eq,
    mem_restingNames]

theorem anySinkMarked_eq_false :
    anySinkMarked m sinkPlaces = false ↔ ∀ p ∈ sinkPlaces, m.tokens p = 0 := by
  rw [← Bool.not_eq_true]
  simp only [anySinkMarked, List.any_eq_true, MarkingState.mem_placesWithTokens, decide_eq_true_eq,
    not_exists, not_and]
  exact ⟨fun none p sink => Nat.eq_zero_of_not_pos fun pos => none p pos sink,
    fun none p pos sink => absurd (none p sink) (Nat.ne_of_gt pos)⟩

theorem tokensAcross_eq (places : List PlaceName) :
    tokensAcross m places = ∑ p ∈ places.toFinset, m.tokens p := by
  have same : places.toFinset = places.eraseDups.toFinset := by
    ext p
    simp [List.mem_eraseDups]
  rw [tokensAcross, same, List.sum_toFinset _ (CompiledNet.nodup_eraseDups places)]

theorem hasTokensInAny_eq_false {places : List PlaceName} :
    m.hasTokensInAny places = false ↔ ∀ p ∈ places, m.tokens p = 0 := by
  rw [← Bool.not_eq_true]
  simp [MarkingState.hasTokensInAny, MarkingState.hasTokens_iff]

theorem countViolation_isSome {places waivedBy : List PlaceName} {min : Nat} {max : WithTop ℕ} :
    (countViolation m places min max waivedBy).isSome = true ↔
      max < ((∑ p ∈ places.toFinset, m.tokens p : ℕ) : WithTop ℕ) ∨
        (∑ p ∈ places.toFinset, m.tokens p < min ∧ ∀ p ∈ waivedBy, m.tokens p = 0) := by
  rw [← tokensAcross_eq, ← hasTokensInAny_eq_false]
  unfold countViolation
  dsimp only
  split
  next above => simp [above]
  next within =>
    split
    next below => simp [below]
    next enough => simp [within, enough]

theorem restViolation_iff {property : SmtProperty} (rest : OfQuiescence property) :
    Dead net m.tokens ∧ restViolation property sinkPlaces conditionalSinks m = true ↔
      Violates net sinkPlaces conditionalSinks m.tokens property := by
  cases property with
  | deadlockFree => exact and_congr_right fun _ => strandsToken_iff
  | terminatesAtSink =>
    refine and_congr_right fun _ => ?_
    rw [restViolation, Bool.not_eq_true', anySinkMarked_eq_false]
  | joinedOrDeadLettered => exact and_congr_right fun _ => MarkingState.hasTokens_iff
  | quiescentCount => exact and_congr_right fun _ => countViolation_isSome
  | nameAligned => simp [restViolation, Violates]
  | quiescentNameAligned => simp [restViolation, Violates]
  | mutualExclusion => cases rest
  | placeBound => cases rest
  | unreachable => cases rest
  | branchPlaceBound => cases rest

end Markings

/-! ## The graph -/

variable (net) in
/-- A firing sequence from `m₀`, with the markings it goes through. -/
inductive FiringSequence (m₀ : MarkingState) :
    List MarkingState → List String → MarkingState → Prop
  | start : FiringSequence m₀ [m₀] [] m₀
  | fire {trace : List MarkingState} {transitions : List String} {m m' : MarkingState}
      (t : NetTransition net) : FiringSequence m₀ trace transitions m →
      Fires net m.tokens t m'.tokens →
      FiringSequence m₀ (trace ++ [m']) (transitions ++ [(transitionAt t).name]) m'

section Graph

variable {initial : MarkingState} {maxClasses : Nat} {untimed stubborn : Bool} {g : StateClassGraph net}
  (atOnce : AtOnce net untimed)
  (safe : ∀ p, Named net initial p → MarkingState.KeySafe p)
  (built : build net initial maxClasses ⟨[], .ignore⟩ ⟨untimed, stubborn⟩ = .ok g)

include built

theorem build_complete (complete : g.complete = true) : g.expanded = g.classes.length := by
  obtain rfl := Except.ok.inj built
  exact Exploration.build_complete complete

include atOnce

include safe in
/-- An edge of the graph is a firing. -/
theorem edge_fires {i j : Nat} {l : EdgeLabel net} {c d : StateClass net} (edge : g.Edge i l j)
    (from_ : g.classes[i]? = some c) (to_ : g.classes[j]? = some d) :
    Fires net c.marking.tokens l.1 d.marking.tokens := by
  have untimed := classes_untimed rfl atOnce built
  obtain ⟨row, at_, mem⟩ := edge
  obtain ⟨c', there, leads⟩ := (explored_of_build built).leads i row at_
  obtain rfl := Option.some.inj (from_.symm.trans there)
  obtain ⟨⟨l', x⟩, succ, label, d', there', same⟩ :=
    Exploration.exists_of_mem_right leads mem
  obtain rfl : l = l' := label
  obtain rfl := Option.some.inj (to_.symm.trans there')
  have here := untimed c (List.mem_iff_getElem?.mpr ⟨i, from_⟩)
  have reached := successors_untimed rfl atOnce here succ
  obtain ⟨-, fires⟩ := successors_fires rfl atOnce here.playable succ
  have target := untimed d (List.mem_iff_getElem?.mpr ⟨j, to_⟩)
  rwa [tokens_eq_of_classKey safe target.named reached.named same]

theorem isQuiescent_iff {i : Nat} {c : StateClass net} (at_ : g.classes[i]? = some c) :
    (classView g []).isQuiescent i = true ↔ i < g.expanded ∧ Dead net c.marking.tokens := by
  have untimed := classes_untimed rfl atOnce built c (List.mem_iff_getElem?.mpr ⟨i, at_⟩)
  simp only [classView, Bool.and_eq_true, decide_eq_true_eq, ne_eq, not_true_eq_false, decide_false,
    Bool.false_and, Bool.or_false]
  exact and_congr_right fun expanded => outgoing_nil_iff_dead rfl built (fun _ => atOnce) at_ expanded
    ⟨_, untimed.playable.now.contains⟩

variable (property : SmtProperty) (sinkPlaces : List PlaceName)
  (conditionalSinks : List ConditionalSinks)

/-- A class witnesses a violation when its marking does, and it is expanded where that matters. -/
theorem classViolates_iff {i : Nat} {c : StateClass net} (at_ : g.classes[i]? = some c) :
    classViolates (classView g []) property sinkPlaces conditionalSinks i = true ↔
      Violates net sinkPlaces conditionalSinks c.marking.tokens property ∧
        (OfQuiescence property → i < g.expanded) := by
  have marking : (classView g []).markingOf i = c.marking := by simp [classView, at_]
  unfold classViolates
  rw [marking]
  cases kind : safetyViolation property with
  | some violates =>
    have forbids : violates c.marking = true ↔
        Violates net sinkPlaces conditionalSinks c.marking.tokens property :=
      safetyViolation_iff kind
    simp [OfQuiescence, kind, forbids]
  | none =>
    have rest : OfQuiescence property := kind
    dsimp only
    rw [Bool.and_eq_true, isQuiescent_iff atOnce built at_, ← restViolation_iff rest]
    simp only [rest, forall_const]
    tauto

/-! ## The path to a violation -/

/-- The first edge to a class is the firing its marking was made by. -/
theorem firstEdge_fires {i j : Nat} {l : EdgeLabel net} {c d : StateClass net}
    (first : FirstEdge g i l j) (pos : 0 < j) (from_ : g.classes[i]? = some c)
    (to_ : g.classes[j]? = some d) : Fires net c.marking.tokens l.1 d.marking.tokens := by
  have here := classes_untimed rfl atOnce built c (List.mem_iff_getElem?.mpr ⟨i, from_⟩)
  have found : Exploration.FoundExactly (successors ⟨[], .ignore⟩ untimed stubborn) g := by
    obtain rfl := Except.ok.inj built
    exact Exploration.build_first
  obtain ⟨row, at_, entry⟩ := first.entry
  obtain ⟨c', d', from_', to_', succ⟩ := found i row l j at_ entry pos first.least
  obtain rfl := Option.some.inj (from_.symm.trans from_')
  obtain rfl := Option.some.inj (to_.symm.trans to_')
  exact (successors_fires rfl atOnce here.playable succ).2

/-- The chain of a class is a firing sequence to its marking. -/
theorem chain_firingSequence {parent : List (Nat × (Nat × EdgeLabel net))} {j : Nat}
    {path : List Nat} (chain : Chain g parent j path) {c : StateClass net}
    (at_ : g.classes[j]? = some c) :
    FiringSequence net initial (path.filterMap fun i => (g.classes[i]?).map StateClass.marking)
        ((path.drop 1).filterMap fun i =>
          (parent.lookup i).map fun step => (transitionAt step.2.1).name) c.marking ∧
      ((path.drop 1).filterMap fun i =>
        (parent.lookup i).map fun step => (transitionAt step.2.1).name).length + 1 =
        path.length := by
  induction chain generalizing c with
  | root none =>
    have head := (explored_of_build built).head
    obtain rfl := Option.some.inj (at_.symm.trans head)
    simp only [List.filterMap_cons, at_, Option.map_some, List.filterMap_nil, List.drop_one,
      List.tail_cons, List.length_nil, List.length_singleton, and_true]
    exact .start
  | step pos found first chain ih =>
    rename_i i j l path
    obtain ⟨b, there⟩ : ∃ b, g.classes[i]? = some b := by
      obtain ⟨row, here, -⟩ := first.edge
      obtain ⟨b, there, -⟩ := (explored_of_build built).leads i row here
      exact ⟨b, there⟩
    obtain ⟨sequence, length⟩ := ih there
    have long : 1 ≤ path.length := by omega
    have fires := firstEdge_fires atOnce built first pos there at_
    rw [List.drop_append_of_le_length long]
    simp only [List.filterMap_append, List.filterMap_cons, at_, found, Option.map_some,
      List.filterMap_nil, List.length_append, List.length_singleton]
    exact ⟨.fire l.1 sequence fires, by omega⟩

/-- Along a tree of first edges the path to a class is a firing sequence to its marking, and as short as
the graph has one. -/
theorem tree_right {parent : List (Nat × (Nat × EdgeLabel net))} {target : Nat}
    (tree : ShortestTree g parent target) {c : StateClass net} (at_ : g.classes[target]? = some c) :
    FiringSequence net initial
        ((chain parent g.classes.length target).reverse.filterMap fun i =>
          (g.classes[i]?).map StateClass.marking)
        (((chain parent g.classes.length target).reverse.drop 1).filterMap fun i =>
          (parent.lookup i).map fun step => (transitionAt step.2.1).name) c.marking ∧
      ∀ n, g.Within n target →
        (((chain parent g.classes.length target).reverse.drop 1).filterMap fun i =>
          (parent.lookup i).map fun step => (transitionAt step.2.1).name).length ≤ n := by
  have explored := explored_of_build built
  have bound := (List.getElem?_eq_some_iff.mp at_).1
  have chain := tree.chain explored bound (le_refl _) (Nat.le_of_lt bound)
  obtain ⟨sequence, length⟩ := chain_firingSequence atOnce built chain at_
  refine ⟨sequence, fun n near => ?_⟩
  have := chain.shortest explored near
  rw [← length] at this
  exact Nat.le_of_succ_le_succ this

/-- The path to a class is a firing sequence to its marking, and as short as the graph has one. -/
theorem counterexamplePath_right {target : Nat} {c : StateClass net}
    (at_ : g.classes[target]? = some c) :
    FiringSequence net initial (counterexamplePath g target).1 (counterexamplePath g target).2
        c.marking ∧
      ∀ n, g.Within n target → (counterexamplePath g target).2.length ≤ n :=
  tree_right atOnce built
    (search_shortestTree (explored_of_build built) (List.getElem?_eq_some_iff.mp at_).1) at_

end Graph

/-! ## The verdict -/

section Verdict

variable (initial : MarkingState) (stubborn : Bool) (g : StateClassGraph net)
  (property : SmtProperty) (sinkPlaces : List PlaceName)
  (conditionalSinks : List ConditionalSinks) (asPrefix : Bool)

/-- What an outcome of the enumeration promises. -/
structure Right (outcome : ScgOutcome) : Prop where
  /-- A violation comes with a firing sequence to it, without reduction a shortest one. -/
  violated : ∀ trace transitions classCount truncated,
    outcome = .decided .violated trace transitions classCount truncated →
      (∃ m, FiringSequence net initial trace transitions m ∧
        Violates net sinkPlaces conditionalSinks m.tokens property) ∧
      (stubborn = false → ∀ n m, Exploration.After (Step net) initial.tokens n m →
        Violates net sinkPlaces conditionalSinks m property → transitions.length ≤ n)
  /-- What is proven holds of every reachable marking, and of a whole graph. -/
  proven : ∀ method trace transitions classCount truncated,
    outcome = .decided (.proven method) trace transitions classCount truncated →
      g.complete = true ∧ asPrefix = false ∧ ∀ m, ReachableMarking net initial.tokens m →
        ¬Violates net sinkPlaces conditionalSinks m property
  /-- A class that has not been expanded does not rest. -/
  resting : ∀ i, (classView g []).isQuiescent i = true → i < g.expanded

variable {initial stubborn g property sinkPlaces conditionalSinks asPrefix} {maxClasses : Nat}
  (immediate : isUntimed net = true)
  (safe : ∀ p, Named net initial p → MarkingState.KeySafe p)
  (built : buildStateSpace net initial maxClasses stubborn = .ok g)

include immediate safe built

/-- No run comes to a violation sooner than the first class that witnesses one can be reached. -/
theorem first_violation_within (full : stubborn = false) {v : Nat}
    (first : ∀ i < v, classViolates (classView g []) property sinkPlaces conditionalSinks i = false)
    (witness : classViolates (classView g []) property sinkPlaces conditionalSinks v = true)
    (bound : v < g.classes.length) {n : Nat} {m : Counts}
    (run : Exploration.After (Step net) initial.tokens n m)
    (violates : Violates net sinkPlaces conditionalSinks m property) : g.Within n v := by
  subst full
  have explored := explored_of_build built
  have untimed := classes_untimed rfl (.inr immediate) built
  have there := List.getElem?_eq_getElem bound
  have expanded := ((classViolates_iff (.inr immediate) built property sinkPlaces conditionalSinks there).mp
    witness).2
  have start : Untimed initial (initialStateClass net ⟨[], .ignore⟩ false initial) :=
    initialStateClass_untimed rfl (.inr immediate)
  have ignoring : (⟨[], .ignore⟩ : Environment).mode = .ignore := rfl
  -- a class simulates its marking, as long as that names places of the net only
  let simulates (m : Counts) (c : StateClass net) : Prop :=
    c.marking.tokens = m ∧ ∀ p, 0 < m p → Named net initial p
  rcases explored.after (R := simulates) ⟨rfl, start.named⟩
      (fun a c d ⟨at_, names⟩ mem same =>
        ⟨(tokens_eq_of_classKey safe (untimed d mem).named (at_ ▸ names) same).trans at_, names⟩)
      (fun a a' c mem ⟨at_, names⟩ ⟨t, fires⟩ => by
        subst at_
        obtain ⟨l, x, succ, -, rfl⟩ := successors_follow ignoring
          (.inr immediate) (untimed c mem).playable fires
        exact ⟨l, x, succ, rfl,
          (successors_untimed rfl (.inr immediate) (untimed c mem) succ).named⟩) run with
    ⟨j, d, at_, ⟨same, -⟩, near⟩ | ⟨k, lt, j, waiting, near⟩
  · -- the class of the marking is not before the first witness
    refine explored.within_below near (Nat.le_of_not_lt fun lt => ?_)
    have clear := first j lt
    rw [← Bool.not_eq_true, classViolates_iff (.inr immediate) built property sinkPlaces conditionalSinks at_]
      at clear
    exact clear ⟨same ▸ violates, fun rest => lt.trans (expanded rest)⟩
  · exact Exploration.Within.mono (explored.within_succ near waiting bound) lt

omit immediate safe built in
/-- A quiescence property forbids dead markings only. -/
theorem dead_of_violates (rest : OfQuiescence property) {m : Counts}
    (bad : Violates net sinkPlaces conditionalSinks m property) : Dead net m := by
  cases property with
  | deadlockFree => exact bad.1
  | terminatesAtSink => exact bad.1
  | joinedOrDeadLettered => exact bad.1
  | quiescentCount => exact bad.1
  | nameAligned => cases bad
  | quiescentNameAligned => cases bad
  | mutualExclusion => cases rest
  | placeBound => cases rest
  | unreachable => cases rest
  | branchPlaceBound => cases rest

omit safe in
/-- A complete graph holds the reachable markings the property can forbid. -/
theorem violation_found (tells : KeysTell net initial) (reduced : stubborn = true → OfQuiescence property)
    (complete : g.complete = true) {m : Counts} (reach : ReachableMarking net initial.tokens m)
    (bad : Violates net sinkPlaces conditionalSinks m property) :
    ∃ c ∈ g.classes, c.marking.tokens = m := by
  cases stubborn with
  | false => exact (markings_of_complete rfl (.inr immediate) tells built complete m).mpr reach
  | true =>
    have dead := dead_of_violates (reduced rfl) bad
    exact (dead_markings_of_complete rfl (.inr immediate) tells built complete m dead).mpr reach

/-! ### What an outcome was read off -/

omit immediate safe built in
/-- A violation is that of the first class that witnesses one. -/
theorem decided_violated {trace : List MarkingState} {transitions : List String} {n : Nat}
    {truncated : Bool}
    (decided : decideOverStateSpace g property sinkPlaces conditionalSinks asPrefix [] =
      .ok (.decided .violated trace transitions n truncated)) :
    ∃ v < g.classes.length, (trace, transitions) = counterexamplePath g v ∧
      classViolates (classView g []) property sinkPlaces conditionalSinks v = true ∧
      ∀ i < v, classViolates (classView g []) property sinkPlaces conditionalSinks i = false := by
  unfold decideOverStateSpace decideOverClasses at decided
  cases declined : property.routeBOnlyReason with
  | some reason =>
    rw [declined] at decided
    cases decided
  | none =>
    rw [declined] at decided
    dsimp only [bind, Except.bind] at decided
    cases found : (List.range (classView g []).count).find?
        (classViolates (classView g []) property sinkPlaces conditionalSinks) with
    | some v =>
      rw [found] at decided
      obtain ⟨witness, bound, clear⟩ := List.find?_range_eq_some.mp found
      obtain ⟨-, rfl, rfl, -, -⟩ := ScgOutcome.decided.inj (Except.ok.inj decided)
      exact ⟨v, List.mem_range.mp bound, rfl, witness, fun i lt => by simpa using clear i lt⟩
    | none =>
      rw [found] at decided
      dsimp only at decided
      split at decided <;> cases decided

omit immediate safe built in
/-- A proof is read off a whole graph without a class that witnesses a violation. -/
theorem decided_proven {method : String} {trace : List MarkingState} {transitions : List String}
    {n : Nat} {truncated : Bool}
    (decided : decideOverStateSpace g property sinkPlaces conditionalSinks asPrefix [] =
      .ok (.decided (.proven method) trace transitions n truncated)) :
    g.complete = true ∧ asPrefix = false ∧ ∀ i < g.classes.length,
      classViolates (classView g []) property sinkPlaces conditionalSinks i = false := by
  unfold decideOverStateSpace decideOverClasses at decided
  cases declined : property.routeBOnlyReason with
  | some reason =>
    rw [declined] at decided
    cases decided
  | none =>
    rw [declined] at decided
    dsimp only [bind, Except.bind] at decided
    cases found : (List.range (classView g []).count).find?
        (classViolates (classView g []) property sinkPlaces conditionalSinks) with
    | some v =>
      rw [found] at decided
      cases decided
    | none =>
      rw [found] at decided
      have clear := List.find?_range_eq_none.mp found
      dsimp only at decided
      split at decided
      · cases decided
      next closed =>
        obtain ⟨complete, whole⟩ : g.complete = true ∧ asPrefix = false := by simpa using closed
        exact ⟨complete, whole, fun i lt => by simpa using clear i lt⟩

omit safe in
/-- A violation comes with a firing sequence to it, whatever the names. -/
theorem violated_firingSequence {trace : List MarkingState} {transitions : List String} {n : Nat}
    {truncated : Bool}
    (decided : decideOverStateSpace g property sinkPlaces conditionalSinks asPrefix [] =
      .ok (.decided .violated trace transitions n truncated)) :
    ∃ m, FiringSequence net initial trace transitions m ∧
      Violates net sinkPlaces conditionalSinks m.tokens property := by
  obtain ⟨v, bound, path, witness, -⟩ := decided_violated decided
  have there := List.getElem?_eq_getElem bound
  obtain ⟨sequence, -⟩ := counterexamplePath_right (.inr immediate) built there
  obtain ⟨rfl, rfl⟩ := Prod.mk.inj path
  exact ⟨_, sequence, ((classViolates_iff (.inr immediate) built property sinkPlaces conditionalSinks
    there).mp witness).1⟩

omit safe in
/-- A complete graph with no class that witnesses a violation has no reachable marking that is one. -/
theorem not_violates_of_clear (tells : KeysTell net initial) (reduced : stubborn = true → OfQuiescence property) (complete : g.complete = true)
    (clear : ∀ i < g.classes.length, classViolates (classView g []) property sinkPlaces conditionalSinks i = false)
    {m : Counts} (reach : ReachableMarking net initial.tokens m) :
    ¬Violates net sinkPlaces conditionalSinks m property := by
  intro bad
  obtain ⟨c, mem, rfl⟩ := violation_found immediate built tells reduced complete reach bad
  obtain ⟨i, at_⟩ := List.mem_iff_getElem?.mp mem
  have bound := (List.getElem?_eq_some_iff.mp at_).1
  have none := clear i bound
  rw [← Bool.not_eq_true,
    classViolates_iff (.inr immediate) built property sinkPlaces conditionalSinks at_] at none
  exact none ⟨bad, fun _ => build_complete built complete ▸ bound⟩

end Verdict

/-! ## Two verdicts -/

/-- The graph of a net from a marking, as the enumeration builds it with room for ten classes. -/
def smallSpace (net : PetriNet Unit Unit) (initial : MarkingState) : StateClassGraph net :=
  Exploration.build classKey (successors ⟨[], .ignore⟩ false false) 10
    (initialStateClass net ⟨[], .ignore⟩ false initial)

end LibPetri.Verified

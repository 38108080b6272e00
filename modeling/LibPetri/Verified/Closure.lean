import LibPetri.Basis.Delimited
import LibPetri.Basis.Runs
import LibPetri.Verification.OpenNet
import LibPetri.Verified.OutcomePlaces
import LibPetri.Verified.TokenGame

/-! # Closures of open nets

An open net plays its own transitions and those of its contract, interleaved with arrivals.  The closed net
plays the same game on the places of the net and the contract: a source holds what a group may still
deliver, and at rest every group has delivered what it must.
-/

namespace LibPetri.Verified

open LibPetri.Basis LibPetri.Core LibPetri.Runtime LibPetri.Verification
open LibPetri.Verification.Closure LibPetri.Verified.TokenGame

variable {V N : Type}

/-! ## What a transition touches -/

section Frame

variable {t : Transition V N} {m x : Counts}

theorem consumption_of_unused {p : PlaceName} (unused : p ∉ t.inputSpecs.map In.place) :
    consumption t m p = 0 := by
  have none : t.inputSpecs.find? (fun s => decide (s.place = p)) = none := by
    refine List.find?_eq_none.mpr fun s mem same => unused ?_
    exact of_decide_eq_true same ▸ List.mem_map_of_mem mem
  rw [consumption, none]

theorem enabled_same (same : ∀ p ∈ transitionPlaces t, m p = x p) : Enabled t m ↔ Enabled t x := by
  have input {s : In} (mem : s ∈ t.inputSpecs) : m s.place = x s.place :=
    same _ (by simp only [transitionPlaces, List.mem_append]; simp [List.mem_map_of_mem mem])
  have read {p : PlaceName} (mem : p ∈ t.reads) : m p = x p :=
    same _ (by simp [transitionPlaces, mem])
  have inhibitor {p : PlaceName} (mem : p ∈ t.inhibitors) : m p = x p :=
    same _ (by simp [transitionPlaces, mem])
  constructor
  · exact fun h => ⟨fun s mem => input mem ▸ h.inputs s mem, fun p mem => read mem ▸ h.reads p mem,
      fun p mem => inhibitor mem ▸ h.inhibitors p mem⟩
  · exact fun h => ⟨fun s mem => input mem ▸ h.inputs s mem, fun p mem => read mem ▸ h.reads p mem,
      fun p mem => inhibitor mem ▸ h.inhibitors p mem⟩

theorem consumption_same (same : ∀ p ∈ transitionPlaces t, m p = x p) (p : PlaceName) :
    consumption t m p = consumption t x p := by
  by_cases used : p ∈ t.inputSpecs.map In.place
  · have here : m p = x p := same p (by simp only [transitionPlaces, List.mem_append]; simp [used])
    unfold consumption
    rw [here]
  · rw [consumption_of_unused used, consumption_of_unused used]

theorem fire_same (same : ∀ p ∈ transitionPlaces t, m p = x p) {p : PlaceName} (here : m p = x p)
    (o : Outcome) : fire t m o p = fire t x o p := by
  have drained : consumption t m = consumption t x := funext (consumption_same same)
  unfold fire intermediate deposited
  rw [drained, here]

theorem fire_untouched {o : Outcome} (outcome : o ∈ outcomes t) {p : PlaceName}
    (untouched : p ∉ transitionPlaces t) : fire t m o p = m p := by
  simp only [transitionPlaces, List.mem_append, not_or] at untouched
  obtain ⟨⟨⟨⟨unused, -⟩, -⟩, kept⟩, unfed⟩ := untouched
  have undeposited : o.deposits.lookup p = none := by
    rw [OrderedMap.lookup_eq_none_iff]
    exact fun mem => unfed (outcomes_places outcome p mem)
  unfold fire intermediate deposited
  rw [if_neg kept, consumption_of_unused unused, undeposited]
  rfl

end Frame

/-- The steps of a net, by its list of transitions. -/
theorem step_iff {net : PetriNet V N} {m m' : Counts} :
    Step net m m' ↔ ∃ t ∈ net.transitions, Enabled t m ∧ ∃ o ∈ outcomes t, m' = fire t m o := by
  constructor
  · rintro ⟨t, enabled, o, outcome, rfl⟩
    exact ⟨_, transitionAt_mem t, enabled, o, outcome, rfl⟩
  · rintro ⟨t, mem, enabled, o, outcome, rfl⟩
    obtain ⟨i, lt, rfl⟩ := List.getElem_of_mem mem
    exact ⟨⟨i, lt⟩, enabled, o, outcome, rfl⟩

theorem dead_iff_disabled {net : PetriNet V N} {m : Counts} :
    Dead net m ↔ ∀ t ∈ net.transitions, ¬Enabled t m := by
  constructor
  · intro dead t mem
    obtain ⟨i, lt, rfl⟩ := List.getElem_of_mem mem
    exact dead ⟨i, lt⟩
  · exact fun h t => h _ (transitionAt_mem t)

/-! ## Source transitions -/

section Sources

variable {name source target : String} {m : Counts}

theorem enabled_sourceTransition {out : Option Out} :
    Enabled (sourceTransition name source out : Transition V N) m ↔ 1 ≤ m source := by
  constructor
  · exact fun h => h.inputs _ (List.mem_singleton_self _)
  · refine fun h => ⟨fun spec mem => ?_, (fun _ mem => by cases mem), fun _ mem => by cases mem⟩
    rw [List.mem_singleton.mp mem]
    exact h

theorem consumption_sourceTransition {out : Option Out} (p : PlaceName) :
    consumption (sourceTransition name source out : Transition V N) m p =
      if p = source then 1 else 0 := by
  unfold consumption sourceTransition
  by_cases here : p = source
  · subst here
    simp [In.place, StateClassGraph.inputConsumeCount]
  · have : ¬source = p := fun h => here h.symm
    simp [In.place, this, here]

theorem fire_decline {o : Outcome}
    (outcome : o ∈ outcomes (sourceTransition name source none : Transition V N)) :
    fire (sourceTransition name source none : Transition V N) m o =
      Function.update m source (m source - 1) := by
  obtain rfl : o = emptyOutcome := by simpa [outcomes, sourceTransition] using outcome
  funext p
  unfold fire intermediate deposited
  rw [consumption_sourceTransition, emptyOutcome_deposits, Function.update_apply]
  by_cases here : p = source
  · simp [sourceTransition, here]
  · simp [sourceTransition, here]

theorem outcomes_move : outcomes (sourceTransition name source (some (.place target)) :
    Transition V N) = [branchOutcome [target]] := rfl

theorem fire_move (other : source ≠ target) :
    fire (sourceTransition name source (some (.place target)) : Transition V N) m
        (branchOutcome [target]) =
      Function.update (Function.update m source (m source - 1)) target (m target + 1) := by
  funext p
  have deposits : (branchOutcome [target]).deposits = [(target, .tokens 1)] := rfl
  unfold fire intermediate deposited
  rw [consumption_sourceTransition, deposits, Function.update_apply, Function.update_apply]
  by_cases there : p = target
  · have away : ¬target = source := fun h => other h.symm
    simp [there, sourceTransition, List.lookup, depositCount, away]
  · have missing : (p == target) = false := by simpa using there
    by_cases here : p = source
    · subst here
      simp [sourceTransition, List.lookup, missing, there]
    · simp [sourceTransition, List.lookup, missing, there, here]

end Sources

/-! ## What the closure adds -/

section Names

theorem arrivalsName_inj {i j : Nat} (same : arrivalsName i = arrivalsName j) : i = j := by
  refine toDigits_inj ?_
  have texts := congrArg String.toList same
  simpa [arrivalsName] using texts

theorem optionalName_inj {i j : Nat} (same : optionalName i = optionalName j) : i = j := by
  refine toDigits_inj ?_
  have texts := congrArg String.toList same
  simpa [optionalName] using texts

theorem arrivalsName_ne (i j : Nat) : arrivalsName i ≠ optionalName j := by
  intro same
  have arrivals : (arrivalsName i).toList[4]? = some 'a' := by
    simp [arrivalsName, toString]
  have optional : (optionalName j).toList[4]? = some 'o' := by
    simp [optionalName, toString]
  rw [same, optional] at arrivals
  cases arrivals

end Names

/-- The transitions that move tokens of one source. -/
def movesOf (i : Nat) (source : PlaceName) (optional : Bool) (places : List PlaceName) :
    List (Transition V N) :=
  places.map fun target =>
    sourceTransition (arriveName i optional target) source (some (.place target))

/-- The transitions of a group. -/
def groupTransitions (group : ArrivalGroup × Nat) : List (Transition V N) :=
  (if 0 < group.1.min then movesOf group.2 (arrivalsName group.2) false group.1.places else []) ++
    if group.1.min < group.1.max then
      movesOf group.2 (optionalName group.2) true group.1.places ++
        [sourceTransition (declineName group.2) (optionalName group.2) none]
    else []

/-- The sources of a group, with the tokens they hold initially. -/
def groupSources (group : ArrivalGroup × Nat) : List (PlaceName × Nat) :=
  (if 0 < group.1.min then [(arrivalsName group.2, group.1.min)] else []) ++
    if group.1.min < group.1.max then [(optionalName group.2, group.1.max - group.1.min)] else []

/-- What some turns of the closure add: transitions, and sources whose names were not taken. -/
structure Adds (added added' : Added V N) (transitions : List (Transition V N))
    (sources : List (PlaceName × Nat)) : Prop where
  taken : added.taken ⊆ added'.taken
  transitions_eq : added'.transitions = added.transitions ++ transitions
  marking_eq : added'.marking = sources.foldl (fun m s => m.setTokens s.1 s.2) added.marking
  untaken : ∀ s ∈ sources, s.1 ∉ added.taken

section Adds

variable {added added' added'' : Added V N} {ts ts' : List (Transition V N)}
  {ss ss' : List (PlaceName × Nat)}

theorem Adds.refl (added : Added V N) : Adds added added [] [] :=
  ⟨List.Subset.refl _, (List.append_nil _).symm, rfl, (fun _ mem => by cases mem)⟩

theorem Adds.trans (h : Adds added added' ts ss) (h' : Adds added' added'' ts' ss') :
    Adds added added'' (ts ++ ts') (ss ++ ss') where
  taken := fun _ mem => h'.taken (h.taken mem)
  transitions_eq := by rw [h'.transitions_eq, h.transitions_eq, List.append_assoc]
  marking_eq := by rw [h'.marking_eq, h.marking_eq, List.foldl_append]
  untaken := by
    intro s mem
    rcases List.mem_append.mp mem with first | second
    · exact h.untaken s first
    · exact fun taken => h'.untaken s second (h.taken taken)

theorem fresh_eq_ok {taken taken' : List String} {name : String} (h : fresh taken name = .ok taken') :
    name ∉ taken ∧ taken' = taken ++ [name] := by
  unfold fresh at h
  split at h
  next => cases h
  next free => exact ⟨free, (Except.ok.inj h).symm⟩

theorem adds_addSource {source : PlaceName} {count : Nat}
    (h : addSource source count added = .ok added') : Adds added added' [] [(source, count)] := by
  obtain ⟨taken, named, h⟩ := exists_of_bind_eq_ok h
  obtain ⟨free, rfl⟩ := fresh_eq_ok named
  obtain rfl := Except.ok.inj h
  refine ⟨List.subset_append_left _ _, (List.append_nil _).symm, rfl, fun s mem => ?_⟩
  rw [List.mem_singleton.mp mem]
  exact free

theorem adds_addTransition {name : String} {source : PlaceName} {out : Option Out}
    {step : EnvironmentStep} (h : addTransition name source out step added = .ok added') :
    Adds added added' [sourceTransition name source out] [] := by
  obtain ⟨taken, named, h⟩ := exists_of_bind_eq_ok h
  obtain ⟨free, rfl⟩ := fresh_eq_ok named
  obtain rfl := Except.ok.inj h
  exact ⟨List.subset_append_left _ _, rfl, rfl, (fun _ mem => by cases mem)⟩

theorem adds_injects {i : Nat} {source : PlaceName} {optional : Bool} {places : List PlaceName}
    (h : places.foldlM (inject i source optional) added = .ok added') :
    Adds added added' (movesOf i source optional places) [] := by
  induction places generalizing added with
  | nil =>
    obtain rfl := Except.ok.inj h
    exact .refl added
  | cons target places ih =>
    rw [List.foldlM_cons] at h
    obtain ⟨between, first, rest⟩ := exists_of_bind_eq_ok h
    exact (adds_addTransition first).trans (ih rest)

theorem adds_addGroup {group : ArrivalGroup × Nat} (h : addGroup added group = .ok added') :
    Adds added added' (groupTransitions group) (groupSources group) := by
  obtain ⟨between, mandatory, optional⟩ := exists_of_bind_eq_ok h
  unfold groupTransitions groupSources
  refine (show Adds added between _ _ from ?_).trans ?_
  · unfold addArrivals at mandatory
    split at mandatory
    next some =>
      obtain ⟨sourced, source, moves⟩ := exists_of_bind_eq_ok mandatory
      rw [if_pos some, if_pos some]
      exact (adds_addSource source).trans (adds_injects moves)
    next none =>
      obtain rfl := Except.ok.inj mandatory
      rw [if_neg none, if_neg none]
      exact .refl added
  · unfold addOptional at optional
    split at optional
    next some =>
      obtain ⟨sourced, source, rest⟩ := exists_of_bind_eq_ok optional
      obtain ⟨moved, moves, decline⟩ := exists_of_bind_eq_ok rest
      rw [if_pos some, if_pos some]
      exact ((adds_addSource source).trans (adds_injects moves)).trans (adds_addTransition decline)
    next none =>
      obtain rfl := Except.ok.inj optional
      rw [if_neg none, if_neg none]
      exact .refl between

theorem adds_addGroups {groups : List (ArrivalGroup × Nat)}
    (h : groups.foldlM addGroup added = .ok added') :
    Adds added added' (groups.flatMap groupTransitions) (groups.flatMap groupSources) := by
  induction groups generalizing added with
  | nil =>
    obtain rfl := Except.ok.inj h
    exact .refl added
  | cons group groups ih =>
    rw [List.foldlM_cons] at h
    obtain ⟨between, first, rest⟩ := exists_of_bind_eq_ok h
    exact (adds_addGroup first).trans (ih rest)

end Adds

/-! ## Open nets -/

/-- The tokens of an open net, and how many each group has delivered. -/
structure OpenState where
  marking : Counts
  delivered : Nat → Nat

section Open

variable (net : PetriNet V N) (contract : OpenNetContract V N)

/-- The transitions of a net and of its contract. -/
def openTransitions : List (Transition V N) := net.transitions ++ contract.environment

inductive OpenStep (s : OpenState) : OpenState → Prop
  | fire {t : Transition V N} {o : Outcome} (mem : t ∈ openTransitions net contract)
      (enabled : Enabled t s.marking) (outcome : o ∈ outcomes t) :
      OpenStep s { s with marking := fire t s.marking o }
  | arrive {i : Nat} {group : ArrivalGroup} {p : PlaceName}
      (declared : contract.arrivals[i]? = some group) (target : p ∈ group.places)
      (more : s.delivered i < group.max) :
      OpenStep s ⟨Function.update s.marking p (s.marking p + 1),
        Function.update s.delivered i (s.delivered i + 1)⟩

def OpenReachable : OpenState → Prop :=
  Relation.ReflTransGen (OpenStep net contract) ⟨contract.initialMarking.tokens, fun _ => 0⟩

/-- Nothing is enabled, and every group has delivered what it must. -/
structure OpenResting (s : OpenState) : Prop where
  disabled : ∀ t ∈ openTransitions net contract, ¬Enabled t s.marking
  delivered : ∀ i group, contract.arrivals[i]? = some group → group.min ≤ s.delivered i

/-- The net's and the contract's places. -/
def observedPlaces : Set PlaceName := {p | p ∈ net.places ∨ p ∈ contract.places}

def project (m : Counts) : observedPlaces net contract → Nat :=
  (observedPlaces net contract).domRestrict m

/-- A closed net reaches, and rests at, what the open net does. -/
structure ExactClosure (closed : ClosedNet V N) : Prop where
  reachable :
    project net contract '' {x | ReachableMarking closed.net closed.initialMarking.tokens x} =
      project net contract '' {m | ∃ s, OpenReachable net contract s ∧ s.marking = m}
  resting :
    project net contract ''
        {x | ReachableMarking closed.net closed.initialMarking.tokens x ∧ Dead closed.net x} =
      project net contract ''
        {m | ∃ s, OpenReachable net contract s ∧ OpenResting net contract s ∧ s.marking = m}

/-- `p` is a source that the closure adds. -/
def IsSource (p : PlaceName) : Prop :=
  ∃ i group, contract.arrivals[i]? = some group ∧
    (0 < group.min ∧ p = arrivalsName i ∨ group.min < group.max ∧ p = optionalName i)

end Open

/-! ## What the closure is -/

section Shape

variable {net : PetriNet V N} {contract : OpenNetContract V N} {closed : ClosedNet V N}

theorem isSource_iff {p : PlaceName} :
    IsSource contract p ↔ ∃ s ∈ contract.arrivals.zipIdx.flatMap groupSources, s.1 = p := by
  constructor
  · rintro ⟨i, group, declared, source⟩
    have member : (group, i) ∈ contract.arrivals.zipIdx := List.mem_zipIdx_iff_getElem?.mpr declared
    rcases source with ⟨some, rfl⟩ | ⟨some, rfl⟩
    · refine ⟨(arrivalsName i, group.min), List.mem_flatMap.mpr ⟨_, member, ?_⟩, rfl⟩
      simp [groupSources, some]
    · refine ⟨(optionalName i, group.max - group.min), List.mem_flatMap.mpr ⟨_, member, ?_⟩, rfl⟩
      simp [groupSources, some]
  · rintro ⟨s, mem, rfl⟩
    obtain ⟨⟨group, i⟩, member, mem⟩ := List.mem_flatMap.mp mem
    refine ⟨i, group, List.mem_zipIdx_iff_getElem?.mp member, ?_⟩
    unfold groupSources at mem
    rcases List.mem_append.mp mem with mem | mem
    · split at mem
      next some => exact .inl ⟨some, by rw [List.mem_singleton.mp mem]⟩
      next => cases mem
    · split at mem
      next some => exact .inr ⟨some, by rw [List.mem_singleton.mp mem]⟩
      next => cases mem

theorem subset_of_foldlM_fresh {names taken taken' : List String}
    (h : names.foldlM fresh taken = .ok taken') : taken ⊆ taken' := by
  induction names generalizing taken with
  | nil =>
    obtain rfl := Except.ok.inj h
    exact List.Subset.refl _
  | cons name names ih =>
    rw [List.foldlM_cons] at h
    obtain ⟨between, first, rest⟩ := exists_of_bind_eq_ok h
    obtain ⟨-, rfl⟩ := fresh_eq_ok first
    exact List.Subset.trans (List.subset_append_left _ _) (ih rest)

/-- The transitions and the marking of a closed net; its sources are no places of the net or of the
environment. -/
structure ClosedBy (net : PetriNet V N) (contract : OpenNetContract V N) (closed : ClosedNet V N) :
    Prop where
  transitions : closed.net.transitions =
    openTransitions net contract ++ contract.arrivals.zipIdx.flatMap groupTransitions
  marking : closed.initialMarking = (contract.arrivals.zipIdx.flatMap groupSources).foldl
    (fun m s => m.setTokens s.1 s.2) contract.initialMarking
  untaken : ∀ p, IsSource contract p → p ∉ net.places ∧ p ∉ environmentPlacesOf net contract

theorem closedBy_of_closeOpenNet (h : closeOpenNet net contract = .ok closed) :
    ClosedBy net contract closed := by
  obtain ⟨taken, named, h⟩ := exists_of_bind_eq_ok h
  obtain ⟨added, groups, h⟩ := exists_of_bind_eq_ok h
  obtain ⟨-, -, h⟩ := exists_of_bind_eq_ok h
  obtain rfl := Except.ok.inj h
  have adds := adds_addGroups groups
  refine ⟨?_, adds.marking_eq, fun p source => ?_⟩
  · exact congrArg (openTransitions net contract ++ ·) adds.transitions_eq
  · obtain ⟨s, mem, rfl⟩ := isSource_iff.mp source
    have free := adds.untaken s mem
    obtain ⟨before, fresh, named⟩ := exists_of_bind_eq_ok named
    obtain rfl := Except.ok.inj named
    constructor
    · exact fun mem => free (List.mem_append_left _
        (subset_of_foldlM_fresh fresh (List.mem_append_left _ mem)))
    · exact fun mem => free (List.mem_append_right _ mem)

/-- The transitions of a net stay on its places: the net's builder collects them from the arcs. -/
def Declared (net : PetriNet V N) : Prop := ∀ t ∈ net.transitions, transitionPlaces t ⊆ net.places

theorem ClosedBy.not_isSource (by' : ClosedBy net contract closed) (declared : Declared net)
    {t : Transition V N} (mem : t ∈ openTransitions net contract) {p : PlaceName}
    (touched : p ∈ transitionPlaces t) : ¬IsSource contract p := by
  intro source
  obtain ⟨outNet, outEnvironment⟩ := by'.untaken p source
  rcases List.mem_append.mp mem with own | environment
  · exact outNet (declared t own touched)
  · refine outEnvironment (List.mem_eraseDups.mpr (List.mem_filter.mpr ⟨?_, ?_⟩))
    · exact List.mem_flatMap.mpr ⟨t, environment, touched⟩
    · exact decide_eq_true outNet

end Shape

/-! ## What the sources hold -/

/-- What group `i` must still deliver. -/
def leftToDeliver (i : Nat) (group : ArrivalGroup) (x : Counts) : Nat :=
  if 0 < group.min then x (arrivalsName i) else 0

/-- What group `i` may still deliver or decline. -/
def leftToOffer (i : Nat) (group : ArrivalGroup) (x : Counts) : Nat :=
  if group.min < group.max then x (optionalName i) else 0

section Left

variable {contract : OpenNetContract V N} {i j : Nat} {group : ArrivalGroup} {p : PlaceName}
  {x : Counts} {n : Nat}

theorem leftToDeliver_congr (declared : contract.arrivals[i]? = some group) {y : Counts}
    (same : ∀ p, IsSource contract p → y p = x p) : leftToDeliver i group y = leftToDeliver i group x := by
  unfold leftToDeliver
  split
  next some => exact same _ ⟨i, group, declared, .inl ⟨some, rfl⟩⟩
  next => rfl

theorem leftToOffer_congr (declared : contract.arrivals[i]? = some group) {y : Counts}
    (same : ∀ p, IsSource contract p → y p = x p) : leftToOffer i group y = leftToOffer i group x := by
  unfold leftToOffer
  split
  next some => exact same _ ⟨i, group, declared, .inr ⟨some, rfl⟩⟩
  next => rfl

/-- Tokens at places that are no sources leave the sources as they are. -/
theorem update_source (notSource : ¬IsSource contract p) (q : PlaceName) (source : IsSource contract q) :
    Function.update x p n q = x q :=
  Function.update_of_ne (fun same : q = p => notSource (same ▸ source)) _ _

theorem leftToDeliver_arrivals :
    leftToDeliver j group (Function.update x (arrivalsName i) (x (arrivalsName i) - 1)) =
      leftToDeliver j group x - if j = i then 1 else 0 := by
  unfold leftToDeliver
  by_cases same : j = i
  · subst same
    split <;> simp
  · have names : arrivalsName j ≠ arrivalsName i := fun h => same (arrivalsName_inj h)
    simp [names, same]

theorem leftToOffer_arrivals :
    leftToOffer j group (Function.update x (arrivalsName i) n) = leftToOffer j group x := by
  unfold leftToOffer
  rw [Function.update_of_ne (arrivalsName_ne i j).symm]

theorem leftToOffer_optional :
    leftToOffer j group (Function.update x (optionalName i) (x (optionalName i) - 1)) =
      leftToOffer j group x - if j = i then 1 else 0 := by
  unfold leftToOffer
  by_cases same : j = i
  · subst same
    split <;> simp
  · have names : optionalName j ≠ optionalName i := fun h => same (optionalName_inj h)
    simp [names, same]

theorem leftToDeliver_optional :
    leftToDeliver j group (Function.update x (optionalName i) n) = leftToDeliver j group x := by
  unfold leftToDeliver
  rw [Function.update_of_ne (arrivalsName_ne j i)]

end Left

theorem tokens_foldl_sources {sources : List (PlaceName × Nat)} {m : MarkingState} {p : PlaceName}
    {n : Nat} (given : ∀ s ∈ sources, s.1 = p → s.2 = n)
    (held : (∃ s ∈ sources, s.1 = p) ∨ m.tokens p = n) :
    (sources.foldl (fun m s => m.setTokens s.1 s.2) m).tokens p = n := by
  induction sources generalizing m with
  | nil =>
    rcases held with ⟨s, mem, -⟩ | held
    · cases mem
    · exact held
  | cons s sources ih =>
    rw [List.foldl_cons]
    refine ih (fun s' mem => given s' (List.mem_cons_of_mem _ mem)) ?_
    by_cases here : p = s.1
    · exact .inr (by rw [MarkingState.tokens_setTokens, if_pos here]; exact given s List.mem_cons_self here.symm)
    · rw [MarkingState.tokens_setTokens, if_neg here]
      refine held.imp (fun ⟨s', mem, same⟩ => ⟨s', ?_, same⟩) id
      rcases List.mem_cons.mp mem with rfl | later
      · exact absurd same.symm here
      · exact later

/-! ## Open runs and closed runs -/

/-- A marking of the closed net that stands for a state of the open net.  Of what a group may deliver
or decline, some may have been declined. -/
structure Mirrors (contract : OpenNetContract V N) (s : OpenState) (x : Counts) : Prop where
  tokens : ∀ p, ¬IsSource contract p → x p = s.marking p
  owed : ∀ i group, contract.arrivals[i]? = some group →
    leftToDeliver i group x ≤ group.min ∧ group.min ≤ s.delivered i + leftToDeliver i group x ∧
      s.delivered i + leftToDeliver i group x + leftToOffer i group x ≤ group.max

/-- A marking that stands for a state of the open net, nothing declined. -/
structure Undeclined (contract : OpenNetContract V N) (s : OpenState) (x : Counts) : Prop where
  tokens : ∀ p, ¬IsSource contract p → x p = s.marking p
  owed : ∀ i group, contract.arrivals[i]? = some group →
    leftToDeliver i group x = group.min - s.delivered i ∧
      leftToOffer i group x = group.max - group.min - (s.delivered i - group.min) ∧
        s.delivered i ≤ group.max

section Simulation

variable {net : PetriNet V N} {contract : OpenNetContract V N} {closed : ClosedNet V N}
  {s : OpenState} {x : Counts}

theorem Undeclined.mirrors (h : Undeclined contract s x) : Mirrors contract s x := by
  refine ⟨h.tokens, fun i group declared => ?_⟩
  have := h.owed i group declared
  have := group.min_le
  omega

/-- The counts of sources are what the closure gives them: their names tell them apart. -/
theorem eq_of_mem_groupSources {i : Nat} {group : ArrivalGroup}
    (declared : contract.arrivals[i]? = some group) {s : PlaceName × Nat}
    (mem : s ∈ contract.arrivals.zipIdx.flatMap groupSources) :
    (s.1 = arrivalsName i → s.2 = group.min) ∧ (s.1 = optionalName i → s.2 = group.max - group.min) := by
  obtain ⟨⟨group', j⟩, member, mem⟩ := List.mem_flatMap.mp mem
  have declared' : contract.arrivals[j]? = some group' := List.mem_zipIdx_iff_getElem?.mp member
  have functional (same : j = i) : group' = group := by
    subst same
    exact Option.some.inj (declared'.symm.trans declared)
  unfold groupSources at mem
  rcases List.mem_append.mp mem with mem | mem
  · split at mem
    next =>
      obtain rfl := List.mem_singleton.mp mem
      exact ⟨fun same => by rw [functional (arrivalsName_inj same)],
        fun same => absurd same (arrivalsName_ne j i)⟩
    next => cases mem
  · split at mem
    next =>
      obtain rfl := List.mem_singleton.mp mem
      exact ⟨fun same => absurd same.symm (arrivalsName_ne i j),
        fun same => by rw [functional (optionalName_inj same)]⟩
    next => cases mem

theorem undeclined_initial (by' : ClosedBy net contract closed) :
    Undeclined contract ⟨contract.initialMarking.tokens, fun _ => 0⟩ closed.initialMarking.tokens := by
  rw [by'.marking]
  refine ⟨fun p notSource => ?_, fun i group declared => ⟨?_, ?_, Nat.zero_le _⟩⟩
  · exact tokens_foldl_sources (fun s mem same => absurd (isSource_iff.mpr ⟨s, mem, same⟩) notSource)
      (.inr rfl)
  · unfold leftToDeliver
    split
    next some =>
      exact tokens_foldl_sources (fun s mem => (eq_of_mem_groupSources declared mem).1)
        (.inl (isSource_iff.mp ⟨i, group, declared, .inl ⟨some, rfl⟩⟩))
    next none => omega
  · unfold leftToOffer
    split
    next some =>
      rw [Nat.zero_sub, Nat.sub_zero]
      exact tokens_foldl_sources (fun s mem => (eq_of_mem_groupSources declared mem).2)
        (.inl (isSource_iff.mp ⟨i, group, declared, .inr ⟨some, rfl⟩⟩))
    next none => omega

/-! ### Firings of the open net -/

section Firings

variable {t : Transition V N} {o : Outcome}

theorem enabled_mirrors (by' : ClosedBy net contract closed) (declared : Declared net)
    (mem : t ∈ openTransitions net contract)
    (tokens : ∀ p, ¬IsSource contract p → x p = s.marking p) :
    Enabled t x ↔ Enabled t s.marking :=
  enabled_same fun p touched => tokens p (by'.not_isSource declared mem touched)

/-- A transition of the open net fires alike on both sides, and leaves the sources as they are. -/
theorem fire_mirrors (by' : ClosedBy net contract closed) (declared : Declared net)
    (mem : t ∈ openTransitions net contract) (outcome : o ∈ outcomes t)
    (tokens : ∀ p, ¬IsSource contract p → x p = s.marking p) :
    (∀ p, ¬IsSource contract p → fire t x o p = fire t s.marking o p) ∧
      ∀ p, IsSource contract p → fire t x o p = x p := by
  have same (p : PlaceName) (touched : p ∈ transitionPlaces t) : x p = s.marking p :=
    tokens p (by'.not_isSource declared mem touched)
  refine ⟨fun p notSource => ?_, fun p source => ?_⟩
  · exact fire_same same (tokens p notSource) o
  · exact fire_untouched outcome fun touched => by'.not_isSource declared mem touched source

end Firings

/-! ### Arrivals -/

section Arrivals

variable {i : Nat} {group : ArrivalGroup} {source target : PlaceName}

/-- One token of a source arrives. -/
def moved (source target : PlaceName) (x : Counts) : Counts :=
  Function.update (Function.update x source (x source - 1)) target (x target + 1)

/-- The state after one arrival. -/
def OpenState.arrived (s : OpenState) (i : Nat) (p : PlaceName) : OpenState :=
  ⟨Function.update s.marking p (s.marking p + 1), Function.update s.delivered i (s.delivered i + 1)⟩

theorem tokens_moved (isSource : IsSource contract source) (notSource : ¬IsSource contract target)
    (tokens : ∀ p, ¬IsSource contract p → x p = s.marking p) :
    ∀ p, ¬IsSource contract p → moved source target x p = (s.arrived i target).marking p := by
  intro p off
  have away : p ≠ source := fun same => off (same ▸ isSource)
  unfold moved OpenState.arrived
  dsimp only
  rw [Function.update_apply, Function.update_of_ne away, Function.update_apply, tokens p off,
    tokens target notSource]

variable (source x) in
/-- What is left after a move, of group `j`. -/
theorem left_moved {j : Nat} {other : ArrivalGroup} (declared : contract.arrivals[j]? = some other)
    (notSource : ¬IsSource contract target) :
    leftToDeliver j other (moved source target x) =
        leftToDeliver j other (Function.update x source (x source - 1)) ∧
      leftToOffer j other (moved source target x) =
        leftToOffer j other (Function.update x source (x source - 1)) :=
  ⟨leftToDeliver_congr declared (update_source notSource),
    leftToOffer_congr declared (update_source notSource)⟩

theorem mem_contract_places (declared : contract.arrivals[i]? = some group)
    (mem : target ∈ group.places) : target ∈ contract.places := by
  unfold OpenNetContract.places
  have : target ∈ contract.arrivals.flatMap ArrivalGroup.places :=
    List.mem_flatMap.mpr ⟨group, List.mem_of_getElem? declared, mem⟩
  simp [this]

/-- `source` is a source of group `i`. -/
def SourceOf (i : Nat) (group : ArrivalGroup) (source : PlaceName) : Prop :=
  0 < group.min ∧ source = arrivalsName i ∨ group.min < group.max ∧ source = optionalName i

theorem SourceOf.isSource (h : SourceOf i group source)
    (declared : contract.arrivals[i]? = some group) : IsSource contract source :=
  ⟨i, group, declared, h⟩

/-- A transition of a group moves a token of one of its sources, or declines one. -/
theorem groupTransitions_cases {t : Transition V N} (mem : t ∈ groupTransitions (group, i)) :
    (∃ name source target, SourceOf i group source ∧ target ∈ group.places ∧
        t = sourceTransition name source (some (.place target))) ∨
      ∃ name, group.min < group.max ∧ t = sourceTransition name (optionalName i) none := by
  unfold groupTransitions movesOf at mem
  rcases List.mem_append.mp mem with mem | mem
  · split at mem
    next held =>
      obtain ⟨target, member, rfl⟩ := List.mem_map.mp mem
      exact .inl ⟨_, _, target, .inl ⟨held, rfl⟩, member, rfl⟩
    next => cases mem
  · split at mem
    next held =>
      rcases List.mem_append.mp mem with mem | mem
      · obtain ⟨target, member, rfl⟩ := List.mem_map.mp mem
        exact .inl ⟨_, _, target, .inr ⟨held, rfl⟩, member, rfl⟩
      · exact .inr ⟨_, held, List.mem_singleton.mp mem⟩
    next => cases mem

theorem move_mem_groupTransitions (held : SourceOf i group source) (member : target ∈ group.places) :
    ∃ name, (sourceTransition name source (some (.place target)) : Transition V N) ∈
      groupTransitions (group, i) := by
  unfold groupTransitions movesOf
  rcases held with ⟨held, rfl⟩ | ⟨held, rfl⟩
  · refine ⟨arriveName i false target, List.mem_append_left _ ?_⟩
    rw [if_pos held]
    exact List.mem_map.mpr ⟨target, member, rfl⟩
  · refine ⟨arriveName i true target, List.mem_append_right _ ?_⟩
    rw [if_pos held]
    exact List.mem_append_left _ (List.mem_map.mpr ⟨target, member, rfl⟩)

theorem decline_mem_groupTransitions (held : group.min < group.max) :
    (sourceTransition (declineName i) (optionalName i) none : Transition V N) ∈
      groupTransitions (group, i) := by
  refine List.mem_append_right _ ?_
  rw [if_pos held]
  exact List.mem_append_right _ (List.mem_singleton_self _)

end Arrivals

/-! ### Steps of the closed net -/

section Steps

variable {i : Nat} {group : ArrivalGroup} {source target : PlaceName}

theorem ClosedBy.mem_of_mem_groupTransitions (by' : ClosedBy net contract closed)
    (declared : contract.arrivals[i]? = some group) {t : Transition V N}
    (mem : t ∈ groupTransitions (group, i)) : t ∈ closed.net.transitions := by
  rw [by'.transitions]
  exact List.mem_append_right _
    (List.mem_flatMap.mpr ⟨(group, i), List.mem_zipIdx_iff_getElem?.mpr declared, mem⟩)

theorem ClosedBy.step_fire (by' : ClosedBy net contract closed) {t : Transition V N} {o : Outcome}
    (mem : t ∈ openTransitions net contract) (enabled : Enabled t x) (outcome : o ∈ outcomes t) :
    Step closed.net x (fire t x o) := by
  refine step_iff.mpr ⟨t, ?_, enabled, o, outcome, rfl⟩
  rw [by'.transitions]
  exact List.mem_append_left _ mem

theorem ClosedBy.step_moved (by' : ClosedBy net contract closed)
    (declared : contract.arrivals[i]? = some group) (held : SourceOf i group source)
    (member : target ∈ group.places) (notSource : ¬IsSource contract target)
    (some : 1 ≤ x source) : Step closed.net x (moved source target x) := by
  obtain ⟨name, mem⟩ := move_mem_groupTransitions (V := V) (N := N) held member
  have other : source ≠ target := fun same => notSource (same ▸ held.isSource declared)
  refine step_iff.mpr ⟨_, by'.mem_of_mem_groupTransitions declared mem,
    enabled_sourceTransition.mpr some, branchOutcome [target], ?_, (fire_move other).symm⟩
  exact List.mem_singleton_self _

theorem ClosedBy.step_decline (by' : ClosedBy net contract closed)
    (declared : contract.arrivals[i]? = some group) (held : group.min < group.max)
    (some : 1 ≤ x (optionalName i)) :
    Step closed.net x (Function.update x (optionalName i) (x (optionalName i) - 1)) := by
  have mem := decline_mem_groupTransitions (V := V) (N := N) (i := i) held
  have outcome : emptyOutcome ∈ outcomes
      (sourceTransition (declineName i) (optionalName i) none : Transition V N) :=
    List.mem_singleton_self _
  exact step_iff.mpr ⟨_, by'.mem_of_mem_groupTransitions declared mem,
    enabled_sourceTransition.mpr some, emptyOutcome, outcome, (fire_decline outcome).symm⟩

/-- A step of the closed net is a firing of the open net, an arrival, or a token declined. -/
theorem ClosedBy.step_cases (by' : ClosedBy net contract closed)
    (free : ∀ p ∈ contract.places, ¬IsSource contract p) {x' : Counts} (h : Step closed.net x x') :
    (∃ t ∈ openTransitions net contract, Enabled t x ∧ ∃ o ∈ outcomes t, x' = fire t x o) ∨
      ∃ i group, contract.arrivals[i]? = some group ∧
        ((∃ source target, SourceOf i group source ∧ target ∈ group.places ∧ 1 ≤ x source ∧
            x' = moved source target x) ∨
          1 ≤ x (optionalName i) ∧ group.min < group.max ∧
            x' = Function.update x (optionalName i) (x (optionalName i) - 1)) := by
  obtain ⟨t, mem, enabled, o, outcome, rfl⟩ := step_iff.mp h
  rw [by'.transitions] at mem
  rcases List.mem_append.mp mem with own | added
  · exact .inl ⟨t, own, enabled, o, outcome, rfl⟩
  · obtain ⟨⟨group, i⟩, member, mem⟩ := List.mem_flatMap.mp added
    have declared : contract.arrivals[i]? = some group := List.mem_zipIdx_iff_getElem?.mp member
    refine .inr ⟨i, group, declared, ?_⟩
    rcases groupTransitions_cases mem with ⟨name, source, target, held, placed, rfl⟩ | ⟨name, held, rfl⟩
    · have other : source ≠ target := fun same =>
        free target (mem_contract_places declared placed) (same ▸ held.isSource declared)
      obtain rfl : o = branchOutcome [target] := List.mem_singleton.mp outcome
      exact .inl ⟨source, target, held, placed, enabled_sourceTransition.mp enabled, fire_move other⟩
    · exact .inr ⟨enabled_sourceTransition.mp enabled, held, fire_decline outcome⟩

end Steps

/-! ### The simulations -/

/-- An arrival takes one token of what its group has left. -/
theorem owed_moved {i j : Nat} {group other : ArrivalGroup} {source target : PlaceName}
    (given : contract.arrivals[i]? = some group) (held : SourceOf i group source)
    (some : 1 ≤ x source) (given' : contract.arrivals[j]? = Option.some other)
    (notSource : ¬IsSource contract target) :
    j ≠ i ∧ leftToDeliver j other (moved source target x) = leftToDeliver j other x ∧
        leftToOffer j other (moved source target x) = leftToOffer j other x ∨
      j = i ∧ other = group ∧
        (source = arrivalsName i ∧
            leftToDeliver j other (moved source target x) + 1 = leftToDeliver j other x ∧
              leftToOffer j other (moved source target x) = leftToOffer j other x ∨
          source = optionalName i ∧
            leftToDeliver j other (moved source target x) = leftToDeliver j other x ∧
              leftToOffer j other (moved source target x) + 1 = leftToOffer j other x) := by
  obtain ⟨deliver, offer⟩ := left_moved x source given' notSource
  rw [deliver, offer]
  by_cases same : j = i
  · subst same
    obtain rfl : other = group := Option.some.inj (given'.symm.trans given)
    refine .inr ⟨rfl, rfl, ?_⟩
    rcases held with ⟨held, rfl⟩ | ⟨held, rfl⟩
    · rw [leftToDeliver_arrivals, leftToOffer_arrivals]
      have : leftToDeliver j other x = x (arrivalsName j) := if_pos held
      exact .inl ⟨rfl, by simp only [↓reduceIte]; omega, rfl⟩
    · rw [leftToDeliver_optional, leftToOffer_optional]
      have : leftToOffer j other x = x (optionalName j) := if_pos held
      exact .inr ⟨rfl, rfl, by simp only [↓reduceIte]; omega⟩
  · refine .inl ⟨same, ?_⟩
    rcases held with ⟨-, rfl⟩ | ⟨-, rfl⟩
    · rw [leftToDeliver_arrivals, leftToOffer_arrivals, if_neg same]
      exact ⟨rfl, rfl⟩
    · rw [leftToDeliver_optional, leftToOffer_optional, if_neg same]
      exact ⟨rfl, rfl⟩

theorem delivered_arrived (i j : Nat) (p : PlaceName) :
    (s.arrived i p).delivered j = if j = i then s.delivered i + 1 else s.delivered j :=
  Function.update_apply _ _ _ _

/-- A declined token is one that the group may not offer again. -/
theorem mirrors_decline {i : Nat} (h : Mirrors contract s x)
    (isSource : IsSource contract (optionalName i)) :
    Mirrors contract s (Function.update x (optionalName i) (x (optionalName i) - 1)) := by
  refine ⟨fun p off => ?_, fun j other given => ?_⟩
  · rw [Function.update_of_ne fun same : p = optionalName i => off (same ▸ isSource), h.tokens p off]
  · have before := h.owed j other given
    rw [leftToDeliver_optional, leftToOffer_optional]
    omega

/-- What the closed net does, the open net does. -/
theorem mirrors_step (by' : ClosedBy net contract closed) (declared : Declared net)
    (free : ∀ p ∈ contract.places, ¬IsSource contract p) (h : Mirrors contract s x) {x' : Counts}
    (step : Step closed.net x x') :
    ∃ s', Relation.ReflTransGen (OpenStep net contract) s s' ∧ Mirrors contract s' x' := by
  rcases by'.step_cases free step with
    ⟨t, mem, enabled, o, outcome, rfl⟩ | ⟨i, group, given, ⟨source, target, held, mem, some, rfl⟩ |
      ⟨some, held, rfl⟩⟩
  · have enabled := (enabled_mirrors by' declared mem h.tokens).mp enabled
    obtain ⟨tokens, sources⟩ := fire_mirrors by' declared mem outcome h.tokens
    refine ⟨_, .single (.fire mem enabled outcome), tokens, fun j other given => ?_⟩
    rw [leftToDeliver_congr given sources, leftToOffer_congr given sources]
    exact h.owed j other given
  · have notSource := free target (mem_contract_places given mem)
    have more : s.delivered i < group.max := by
      have owed := h.owed i group given
      have left := owed_moved given held some given notSource
      omega
    refine ⟨s.arrived i target, .single (.arrive given mem more),
      tokens_moved (held.isSource given) notSource h.tokens, fun j other given' => ?_⟩
    have before := h.owed j other given'
    rw [delivered_arrived]
    rcases owed_moved given held some given' notSource with ⟨other, left⟩ | ⟨rfl, rfl, left⟩
    · rw [if_neg other]
      omega
    · rw [if_pos rfl]
      omega
  · exact ⟨s, .refl, mirrors_decline h ⟨i, group, given, .inr ⟨held, rfl⟩⟩⟩

/-- What the open net does, the closed net does without declining anything. -/
theorem undeclined_step (by' : ClosedBy net contract closed) (declared : Declared net)
    (free : ∀ p ∈ contract.places, ¬IsSource contract p) (h : Undeclined contract s x) {s' : OpenState}
    (step : OpenStep net contract s s') :
    ∃ x', Relation.ReflTransGen (Step closed.net) x x' ∧ Undeclined contract s' x' := by
  cases step with
  | fire mem enabled outcome =>
    have enabled := (enabled_mirrors by' declared mem h.tokens).mpr enabled
    obtain ⟨tokens, sources⟩ := fire_mirrors by' declared mem outcome h.tokens
    refine ⟨_, .single (by'.step_fire mem enabled outcome), tokens, fun j other given => ?_⟩
    rw [leftToDeliver_congr given sources, leftToOffer_congr given sources]
    exact h.owed j other given
  | arrive given mem more =>
    rename_i i group target
    have notSource := free target (mem_contract_places given mem)
    have owed := h.owed i group given
    have least := group.min_le
    -- what must be delivered goes first
    obtain ⟨source, held, some, first⟩ : ∃ source, SourceOf i group source ∧ 1 ≤ x source ∧
        (source = arrivalsName i ↔ s.delivered i < group.min) := by
      by_cases first : s.delivered i < group.min
      · have held : 0 < group.min := by omega
        have left : leftToDeliver i group x = x (arrivalsName i) := if_pos held
        exact ⟨_, .inl ⟨held, rfl⟩, by omega, by simp [first]⟩
      · have held : group.min < group.max := by omega
        have left : leftToOffer i group x = x (optionalName i) := if_pos held
        exact ⟨_, .inr ⟨held, rfl⟩, by omega, by simp [first, (arrivalsName_ne i i).symm]⟩
    refine ⟨moved source target x, .single (by'.step_moved given held mem notSource some),
      (?_ : Undeclined contract (s.arrived i target) (moved source target x))⟩
    refine ⟨tokens_moved (held.isSource given) notSource h.tokens, fun j other given' => ?_⟩
    have before := h.owed j other given'
    rw [delivered_arrived]
    rcases owed_moved given held some given' notSource with
      ⟨other, deliver, offer⟩ | ⟨rfl, rfl, ⟨same, deliver, offer⟩ | ⟨same, deliver, offer⟩⟩
    · rw [if_neg other, deliver, offer]
      exact before
    · have := first.mp same
      rw [if_pos rfl]
      omega
    · have : ¬s.delivered j < other.min := fun early =>
        arrivalsName_ne j j ((first.mpr early).symm.trans same)
      rw [if_pos rfl]
      omega

/-! ### Rest -/

theorem dead_mirrors (by' : ClosedBy net contract closed) (declared : Declared net)
    (h : Mirrors contract s x) (dead : Dead closed.net x) : OpenResting net contract s := by
  have disabled := dead_iff_disabled.mp dead
  refine ⟨fun t mem enabled => ?_, fun i group given => ?_⟩
  · refine disabled t ?_ ((enabled_mirrors by' declared mem h.tokens).mpr enabled)
    rw [by'.transitions]
    exact List.mem_append_left _ mem
  · have delivered : leftToDeliver i group x = 0 := by
      unfold leftToDeliver
      split
      next held =>
        obtain ⟨target, member⟩ := List.exists_mem_of_ne_nil _ group.some_place
        obtain ⟨name, mem⟩ := move_mem_groupTransitions (V := V) (N := N) (i := i)
          (.inl ⟨held, rfl⟩) member
        have := disabled _ (by'.mem_of_mem_groupTransitions given mem)
        rw [enabled_sourceTransition] at this
        omega
      next => rfl
    have owed := h.owed i group given
    omega

/-- All optional tokens of a group may be declined. -/
theorem mirrors_declines (by' : ClosedBy net contract closed) {i : Nat} {group : ArrivalGroup}
    (given : contract.arrivals[i]? = some group) (h : Mirrors contract s x) :
    ∃ x', Relation.ReflTransGen (Step closed.net) x x' ∧ Mirrors contract s x' ∧
      leftToOffer i group x' = 0 ∧ ∀ j other, leftToDeliver j other x' = leftToDeliver j other x ∧
        (j ≠ i → leftToOffer j other x' = leftToOffer j other x) := by
  induction left : leftToOffer i group x generalizing x with
  | zero => exact ⟨x, .refl, h, left, fun _ _ => ⟨rfl, fun _ => rfl⟩⟩
  | succ n ih =>
    have held : group.min < group.max := by
      by_contra none
      rw [leftToOffer, if_neg none] at left
      cases left
    have here : leftToOffer i group x = x (optionalName i) := if_pos held
    have step := by'.step_decline given held (by omega : 1 ≤ x (optionalName i))
    have declined := mirrors_decline h ⟨i, group, given, .inr ⟨held, rfl⟩⟩
    obtain ⟨x', run, mirrors, empty, frame⟩ := ih declined (by
      rw [leftToOffer_optional, if_pos rfl, left]
      rfl)
    refine ⟨x', .head step run, mirrors, empty, fun j other => ⟨?_, fun away => ?_⟩⟩
    · rw [(frame j other).1, leftToDeliver_optional]
    · rw [(frame j other).2 away, leftToOffer_optional, if_neg away]
      rfl

/-- Every group may decline what is optional. -/
theorem mirrors_declines_all (by' : ClosedBy net contract closed) (h : Mirrors contract s x)
    (n : Nat) :
    ∃ x', Relation.ReflTransGen (Step closed.net) x x' ∧ Mirrors contract s x' ∧
      (∀ j other, leftToDeliver j other x' = leftToDeliver j other x) ∧
        ∀ j < n, ∀ other, contract.arrivals[j]? = some other → leftToOffer j other x' = 0 := by
  induction n with
  | zero => exact ⟨x, .refl, h, fun _ _ => rfl, fun j lt => by omega⟩
  | succ n ih =>
    obtain ⟨between, run, mirrors, deliver, offer⟩ := ih
    cases given : contract.arrivals[n]? with
    | none =>
      refine ⟨between, run, mirrors, deliver, fun j lt other given' => ?_⟩
      by_cases last : j = n
      · rw [last, given] at given'
        cases given'
      · exact offer j (by omega) other given'
    | some group =>
      obtain ⟨x', declines, mirrors', empty, frame⟩ := mirrors_declines by' given mirrors
      refine ⟨x', run.trans declines, mirrors', fun j other => ?_, fun j lt other given' => ?_⟩
      · rw [(frame j other).1, deliver]
      · by_cases last : j = n
        · subst last
          rw [given] at given'
          exact Option.some.inj given' ▸ empty
        · rw [(frame j other).2 last]
          exact offer j (by omega) other given'

theorem dead_of_resting (by' : ClosedBy net contract closed) (declared : Declared net)
    (h : Mirrors contract s x) (resting : OpenResting net contract s)
    (delivered : ∀ i group, contract.arrivals[i]? = some group → leftToDeliver i group x = 0)
    (offered : ∀ i group, contract.arrivals[i]? = some group → leftToOffer i group x = 0) :
    Dead closed.net x := by
  refine dead_iff_disabled.mpr fun t mem enabled => ?_
  rw [by'.transitions] at mem
  rcases List.mem_append.mp mem with own | added
  · exact resting.disabled t own ((enabled_mirrors by' declared own h.tokens).mp enabled)
  · obtain ⟨⟨group, i⟩, member, mem⟩ := List.mem_flatMap.mp added
    have given : contract.arrivals[i]? = some group := List.mem_zipIdx_iff_getElem?.mp member
    have deliver := delivered i group given
    have offer := offered i group given
    rcases groupTransitions_cases mem with ⟨name, source, target, held, -, rfl⟩ | ⟨name, held, rfl⟩
    · have some := enabled_sourceTransition.mp enabled
      rcases held with ⟨held, rfl⟩ | ⟨held, rfl⟩
      · rw [leftToDeliver, if_pos held] at deliver
        omega
      · rw [leftToOffer, if_pos held] at offer
        omega
    · have some := enabled_sourceTransition.mp enabled
      rw [leftToOffer, if_pos held] at offer
      omega

end Simulation

/-! ## Exactness -/

section Exactness

variable {net : PetriNet V N} {contract : OpenNetContract V N} {closed : ClosedNet V N}

theorem project_eq_of_mirrors (by' : ClosedBy net contract closed)
    (free : ∀ p ∈ contract.places, ¬IsSource contract p) {s : OpenState} {x : Counts}
    (h : Mirrors contract s x) : project net contract x = project net contract s.marking := by
  funext ⟨p, observed⟩
  refine h.tokens p fun source => ?_
  rcases observed with own | named
  · exact (by'.untaken p source).1 own
  · exact free p named source

/-- Unless the contract names a place that the closure adds as a source, the closed net is exact. -/
theorem closeOpenNet_exact (closes : closeOpenNet net contract = .ok closed)
    (declared : Declared net) (free : ∀ p ∈ contract.places, ¬IsSource contract p) :
    ExactClosure net contract closed := by
  have by' := closedBy_of_closeOpenNet closes
  have start := undeclined_initial by'
  have shown {s : OpenState} {x : Counts} (h : Mirrors contract s x) :
      project net contract x = project net contract s.marking := project_eq_of_mirrors by' free h
  have toOpen {x : Counts} (run : ReachableMarking closed.net closed.initialMarking.tokens x) :
      ∃ s, OpenReachable net contract s ∧ Mirrors contract s x := by
    unfold ReachableMarking at run
    exact exists_of_simulation (R := fun s x => Mirrors contract s x)
      (fun _ _ _ h step => mirrors_step by' declared free h step) start.mirrors run
  have toClosed {s : OpenState} (run : OpenReachable net contract s) :
      ∃ x, ReachableMarking closed.net closed.initialMarking.tokens x ∧ Undeclined contract s x := by
    unfold OpenReachable at run
    exact exists_of_simulation (R := fun x s => Undeclined contract s x)
      (fun _ _ _ h step => undeclined_step by' declared free h step) start run
  constructor
  · apply Set.Subset.antisymm
    · rintro _ ⟨x, run, rfl⟩
      obtain ⟨s, open', mirrors⟩ := toOpen run
      exact ⟨s.marking, ⟨s, open', rfl⟩, (shown mirrors).symm⟩
    · rintro _ ⟨_, ⟨s, run, rfl⟩, rfl⟩
      obtain ⟨x, closed', undeclined⟩ := toClosed run
      exact ⟨x, closed', shown undeclined.mirrors⟩
  · apply Set.Subset.antisymm
    · rintro _ ⟨x, ⟨run, dead⟩, rfl⟩
      obtain ⟨s, open', mirrors⟩ := toOpen run
      exact ⟨s.marking, ⟨s, open', dead_mirrors by' declared mirrors dead, rfl⟩, (shown mirrors).symm⟩
    · rintro _ ⟨_, ⟨s, run, resting, rfl⟩, rfl⟩
      obtain ⟨x, closed', undeclined⟩ := toClosed run
      obtain ⟨x', declines, mirrors, deliver, offer⟩ :=
        mirrors_declines_all by' undeclined.mirrors contract.arrivals.length
      refine ⟨x', ⟨closed'.trans declines, dead_of_resting by' declared mirrors resting ?_ ?_⟩,
        shown mirrors⟩
      · intro i group given
        have := resting.delivered i group given
        rw [deliver, (undeclined.owed i group given).1]
        omega
      · intro i group given
        exact offer i (List.getElem?_eq_some_iff.mp given).1 group given

end Exactness

/-! ## A contract that names a source -/

theorem in_nodup : ["in"].Nodup := List.nodup_singleton _

/-- One or two tokens arrive onto `in`. -/
def oneOrTwo : ArrivalGroup where
  places := ["in"]
  min := 1
  max := 2
  some_place := List.cons_ne_nil _ _
  places_nodup := in_nodup
  min_le := one_le_two
  some_token := one_le_two

theorem no_names_nodup : ([] : List String).Nodup := List.nodup_nil

theorem rest_nodup (place : PlaceName) : [place].Nodup := List.nodup_singleton _

/-- Tokens arrive onto `in`, and may rest on `place`. -/
def arrivalContract (place : PlaceName) : OpenNetContract Unit Unit where
  initialMarking := .empty
  arrivals := [oneOrTwo]
  clauses := []
  rest := [place]
  terminals := []
  environment := []
  requiresTermination := true
  clauses_nodup := no_names_nodup
  rest_nodup := rest_nodup place
  markers_nodup := no_names_nodup
  environment_nodup := no_names_nodup

theorem relayTerminals : ∀ p ∈ ([] : List PlaceName), p ∈ ["in", "out"] := fun _ mem => by cases mem

/-- A net that passes tokens on. -/
def relayNet : PetriNet Unit Unit where
  name := "relay"
  places := ["in", "out"]
  transitions := [sourceTransition "pass" "in" (some (.place "out"))]
  terminals := []
  terminals_declared := relayTerminals

theorem relayNet_declared : Declared relayNet := by
  intro t mem
  obtain rfl := List.mem_singleton.mp mem
  decide

theorem closeOpenNet_relayNet (place : PlaceName) (free : place ∈ ["out", "env:arrivals[0]"]) :
    ∃ closed, closeOpenNet relayNet (arrivalContract place) = .ok closed := by
  simp only [List.mem_cons, List.not_mem_nil, or_false] at free
  rcases free with rfl | rfl
  · exact ⟨_, rfl⟩
  · exact ⟨_, rfl⟩

theorem arrivalContract_given {place : PlaceName} {i : Nat} {group : ArrivalGroup}
    (given : (arrivalContract place).arrivals[i]? = some group) : i = 0 ∧ group = oneOrTwo := by
  cases i with
  | zero => exact ⟨rfl, (Option.some.inj given).symm⟩
  | succ i => cases given

theorem out_free : ∀ p ∈ (arrivalContract "out").places, ¬IsSource (arrivalContract "out") p := by
  rintro p mem ⟨i, group, given, source⟩
  obtain ⟨rfl, rfl⟩ := arrivalContract_given given
  have named : p ∈ ["in", "out"] := mem
  revert p
  decide

theorem closeOpenNet_exact_relayNet : ∃ closed,
    closeOpenNet relayNet (arrivalContract "out") = .ok closed ∧
      ExactClosure relayNet (arrivalContract "out") closed := by
  obtain ⟨closed, closes⟩ := closeOpenNet_relayNet "out" (by decide)
  exact ⟨closed, closes, closeOpenNet_exact closes relayNet_declared out_free⟩

/-- Nothing in the open net marks a place that is not there. -/
theorem arrivals_unmarked {s : OpenState}
    (run : OpenReachable relayNet (arrivalContract "env:arrivals[0]") s) :
    s.marking "env:arrivals[0]" = 0 := by
  induction run with
  | refl => rfl
  | tail _ step ih =>
    cases step with
    | fire mem enabled outcome =>
      obtain rfl := List.mem_singleton.mp mem
      exact (fire_untouched outcome (by decide)).trans ih
    | arrive given target more =>
      obtain ⟨-, rfl⟩ := arrivalContract_given given
      obtain rfl := List.mem_singleton.mp target
      have other : "env:arrivals[0]" ≠ "in" := by decide
      dsimp only
      rw [Function.update_of_ne other, ih]

/-- The source of the arrivals and the place of the contract become one place. -/
theorem not_closeOpenNet_exact : ¬∀ (net : PetriNet Unit Unit) (contract : OpenNetContract Unit Unit)
    (closed : ClosedNet Unit Unit), Declared net → closeOpenNet net contract = .ok closed →
      ExactClosure net contract closed := by
  intro claim
  obtain ⟨closed, closes⟩ := closeOpenNet_relayNet "env:arrivals[0]" (by decide)
  have exact' := claim _ _ closed relayNet_declared closes
  have marked : closed.initialMarking.tokens "env:arrivals[0]" = 1 :=
    ((undeclined_initial (closedBy_of_closeOpenNet closes)).owed 0 oneOrTwo rfl).1
  have reached : project relayNet (arrivalContract "env:arrivals[0]") closed.initialMarking.tokens ∈
      project relayNet (arrivalContract "env:arrivals[0]") ''
        {x | ReachableMarking closed.net closed.initialMarking.tokens x} := ⟨_, .refl, rfl⟩
  rw [exact'.reachable] at reached
  obtain ⟨_, ⟨s, run, rfl⟩, same⟩ := reached
  have here := congrFun same ⟨"env:arrivals[0]", .inr (by decide)⟩
  have : s.marking "env:arrivals[0]" = closed.initialMarking.tokens "env:arrivals[0]" := here
  rw [arrivals_unmarked run, marked] at this
  cases this

end LibPetri.Verified

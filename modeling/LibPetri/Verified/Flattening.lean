import LibPetri.Verified.FlatRuns
import LibPetri.Verified.OutcomePlaces
import LibPetri.Verified.UntimedGraph

/-! # Flat nets play the token game

The vectors of a flat transition say what the arcs and the outcome say: it is enabled, and fires, on
the counts of a marking as its source does on the marking.
-/

namespace LibPetri.Verified

open LibPetri.Basis LibPetri.Core LibPetri.Runtime LibPetri.Verification
open LibPetri.Verification.AbstractReplayer TokenGame

variable {V N : Type} {net : PetriNet V N}

/-! ## Vectors -/

/-- A vector filled by distinct names holds, at each index, what the place there put. -/
theorem foldl_setAt {α β : Type} {places : List PlaceName} (nodup : places.Nodup)
    (name : α → PlaceName) (put : α → β → β) {items : List α} (distinct : (items.map name).Nodup)
    (v : Fin places.length → β) (p : Fin places.length) :
    (items.foldl (fun v a => setAt places v (name a) (put a)) v) p =
      (items.find? fun a => name a = places[p]).elim (v p) fun a => put a (v p) := by
  induction items generalizing v with
  | nil => rfl
  | cons a items ih =>
    simp only [List.map_cons, List.nodup_cons] at distinct
    rw [List.foldl_cons, ih distinct.2]
    by_cases ours : name a = places[p]
    · -- no later item has the name
      have found : places.finIdxOf? (name a) = some p := by
        refine List.finIdxOf?_eq_some_iff.mpr ⟨ours.symm, fun j before same => ?_⟩
        exact before.ne (Fin.ext (nodup.getElem_inj_iff.mp (same.trans ours)))
      have other : items.find? (fun b => decide (name b = places[p])) = none := by
        refine List.find?_eq_none.mpr fun b mem same => distinct.1 ?_
        exact ours ▸ of_decide_eq_true same ▸ List.mem_map_of_mem mem
      rw [other, List.find?_cons_of_pos (by simpa using ours), setAt, found]
      exact Function.update_self ..
    · have elsewhere : setAt places v (name a) (put a) p = v p := by
        unfold setAt
        cases found : places.finIdxOf? (name a) with
        | none => rfl
        | some idx =>
          refine Function.update_of_ne (fun same => ours ?_) _ _
          exact same ▸ (List.finIdxOf?_eq_some_iff.mp found).1.symm
      rw [elsewhere, List.find?_cons_of_neg (by simpa using ours)]

theorem mem_filterMap_finIdxOf? {places names : List PlaceName} (nodup : places.Nodup)
    {p : Fin places.length} : p ∈ names.filterMap places.finIdxOf? ↔ places[p] ∈ names := by
  rw [List.mem_filterMap]
  constructor
  · rintro ⟨name, mem, found⟩
    exact (List.finIdxOf?_eq_some_iff.mp found).1 ▸ mem
  · refine fun mem => ⟨_, mem, List.finIdxOf?_eq_some_iff.mpr ⟨rfl, fun j before same => ?_⟩⟩
    exact before.ne (Fin.ext (nodup.getElem_inj_iff.mp same))

section Vectors

variable {reapable : Transition V N → Bool} {t : NetTransition net} {branches branchIdx : Nat}
  {o : Outcome} (p : Fin (flatPlaces net).length)

theorem preVector_eq :
    (flatTransition (flatPlaces net) reapable t branches branchIdx o).preVector p =
      ((transitionAt t).inputSpecs.find? fun s => s.place = (flatPlaces net)[p]).elim 0
        In.requiredCount :=
  foldl_setAt (flatPlaces_nodup net) In.place (fun spec _ => spec.requiredCount)
    (transitionAt t).inputs_nodup _ p

theorem consumeAll_eq :
    (flatTransition (flatPlaces net) reapable t branches branchIdx o).consumeAll p =
      ((transitionAt t).inputSpecs.find? fun s => s.place = (flatPlaces net)[p]).elim false
        fun spec => false || consumesAll spec :=
  foldl_setAt (flatPlaces_nodup net) In.place (fun spec all => all || consumesAll spec)
    (transitionAt t).inputs_nodup _ p

theorem postVector_eq :
    (flatTransition (flatPlaces net) reapable t branches branchIdx o).postVector p =
      (o.deposits.find? fun d => d.1 = (flatPlaces net)[p]).elim 0
        fun d => 0 + depositCount (minimumOf (transitionAt t)) d.2 :=
  foldl_setAt (flatPlaces_nodup net) Prod.fst
    (fun d count => count + depositCount (minimumOf (transitionAt t)) d.2) o.nodup _ p

end Vectors

/-! ## Firings -/

/-- The places of a transition have an index. -/
theorem exists_index {t : NetTransition net} {p : PlaceName}
    (mem : p ∈ (transitionAt t).inputSpecs.map In.place ++ (transitionAt t).outputPlaces ++
      (transitionAt t).inhibitors ++ (transitionAt t).reads ++ (transitionAt t).resets) :
    ∃ i : Fin (flatPlaces net).length, (flatPlaces net)[i] = p := by
  have here : p ∈ flatPlaces net := by
    rw [mem_flatPlaces, allPlaces, List.mem_append, List.mem_flatMap]
    exact .inr ⟨_, transitionAt_mem t, mem⟩
  obtain ⟨i, lt, rfl⟩ := List.getElem_of_mem here
  exact ⟨⟨i, lt⟩, rfl⟩

section Firings

variable {reapable : Transition V N → Bool} {t : NetTransition net} {branches branchIdx : Nat}
  {o : Outcome} {m : Counts}

/-- The input on a place is the one that is found there. -/
theorem find?_input {t : Transition V N} {spec : In} (mem : spec ∈ t.inputSpecs) :
    (t.inputSpecs.find? fun s => s.place = spec.place) = some spec := by
  cases found : t.inputSpecs.find? fun s => decide (s.place = spec.place) with
  | none =>
    have := List.find?_eq_none.mp found spec mem
    simp at this
  | some other =>
    have same : other.place = spec.place := by simpa using List.find?_some found
    rw [List.inj_on_of_nodup_map t.inputs_nodup (List.mem_of_find?_eq_some found) mem same]

/-- A flat transition is enabled on the counts of a marking that enables its source. -/
theorem enabledA_iff :
    enabledA (fun p => m (flatPlaces net)[p])
        (flatTransition (flatPlaces net) reapable t branches branchIdx o) = true ↔
      Enabled (transitionAt t) m := by
  have indexed (names : List PlaceName) (p : Fin (flatPlaces net).length) :
      p ∈ names.filterMap (flatPlaces net).finIdxOf? ↔ (flatPlaces net)[p] ∈ names :=
    mem_filterMap_finIdxOf? (flatPlaces_nodup net)
  unfold enabledA
  simp only [Bool.and_eq_true, List.all_eq_true, List.mem_finRange, true_implies, Bool.not_eq_true',
    Bool.and_eq_false_iff, decide_eq_false_iff_not, not_lt, decide_eq_true_eq]
  constructor
  · rintro ⟨⟨inputs, reads⟩, inhibitors⟩
    refine ⟨fun spec mem => ?_, fun p mem => ?_, fun p mem => ?_⟩
    · obtain ⟨i, at_⟩ := exists_index (t := t) (p := spec.place) (by simp [List.mem_map_of_mem mem])
      have enough := inputs i
      rw [preVector_eq, at_, find?_input mem] at enough
      simp only [Option.elim_some] at enough
      omega
    · obtain ⟨i, rfl⟩ := exists_index (t := t) (p := p) (by simp [mem])
      exact reads i ((indexed _ i).mpr mem)
    · obtain ⟨i, rfl⟩ := exists_index (t := t) (p := p) (by simp [mem])
      exact inhibitors i ((indexed _ i).mpr mem)
  · intro h
    refine ⟨⟨fun i => ?_, fun i mem => h.reads _ ((indexed _ i).mp mem)⟩,
      fun i mem => h.inhibitors _ ((indexed _ i).mp mem)⟩
    rw [preVector_eq]
    cases found : (transitionAt t).inputSpecs.find? fun s => s.place = (flatPlaces net)[i] with
    | none => exact .inl (le_refl 0)
    | some spec =>
      have place : spec.place = (flatPlaces net)[i] := by simpa using List.find?_some found
      exact .inr (place ▸ h.inputs spec (List.mem_of_find?_eq_some found))

/-- The tokens an outcome without drained forwards deposits. -/
theorem deposited_eq {t : Transition V N} {o : Outcome}
    (undrained : ∀ d ∈ o.deposits, ∃ count, d.2 = .tokens count) (p : PlaceName) :
    deposited t m o p =
      (o.deposits.find? fun d => d.1 = p).elim 0 fun d => 0 + depositCount (minimumOf t) d.2 := by
  unfold deposited
  cases found : o.deposits.find? fun d => decide (d.1 = p) with
  | none =>
    have absent : o.deposits.lookup p = none := by
      rw [OrderedMap.lookup_eq_none_iff]
      intro mem
      obtain ⟨d, mem, same⟩ := List.mem_map.mp mem
      exact List.find?_eq_none.mp found d mem (decide_eq_true same)
    rw [absent]
    rfl
  | some d =>
    have mem := List.mem_of_find?_eq_some found
    have place : d.1 = p := by simpa using List.find?_some found
    have entry : o.deposits.lookup p = some d.2 :=
      (OrderedMap.lookup_eq_some_iff o.nodup).mpr (place ▸ mem)
    obtain ⟨count, tokens⟩ := undrained d mem
    simp only [entry, tokens, Option.elim_some, depositCount, Nat.zero_add]

/-- It fires as its source does. -/
theorem fireA_eq (undrained : ∀ d ∈ o.deposits, ∃ count, d.2 = .tokens count) :
    fireA (fun p => m (flatPlaces net)[p])
        (flatTransition (flatPlaces net) reapable t branches branchIdx o) =
      fun p => fire (transitionAt t) m o (flatPlaces net)[p] := by
  funext p
  have reset : p ∈ (flatTransition (flatPlaces net) reapable t branches branchIdx o).resetPlaces ↔
      (flatPlaces net)[p] ∈ (transitionAt t).resets :=
    mem_filterMap_finIdxOf? (flatPlaces_nodup net)
  unfold fireA fire intermediate consumption
  rw [postVector_eq, ← deposited_eq (m := m) undrained, preVector_eq, consumeAll_eq]
  beta_reduce
  generalize (flatPlaces net)[p] = name at reset ⊢
  by_cases cleared : name ∈ (transitionAt t).resets
  · simp [reset, cleared]
  · cases (transitionAt t).inputSpecs.find? fun s => decide (s.place = name) with
    | none => simp [reset, cleared]
    | some spec =>
      cases spec <;>
        simp [reset, cleared, consumesAll, StateClassGraph.inputConsumeCount, In.requiredCount]

end Firings

/-! ## Nets without environment places -/

section Closed

variable (net) in
/-- The successors of a marking, as a graph that ignores the timing computes them. -/
def untimedSuccessors (env : Environment) (marking : MarkingState) :
    List (NetTransition net × MarkingState) :=
  (StateClassGraph.findEnabledTransitions net env marking).flatMap fun t =>
    (outcomes (transitionAt t)).map fun o =>
      (t, StateClassGraph.produceOutputs env marking
        (StateClassGraph.consumeInputs env marking (transitionAt t)) (transitionAt t) o)

variable (net) in
/-- The flat net of a net whose environment places are none. -/
def closedFlatNet (reapable : Transition V N → Bool) : FlatNet (NetTransition net) where
  places := flatPlaces net
  transitions := flatTransitions net reapable
  environmentBounds := OrderedMap.empty
  environmentInjection := OrderedMap.empty
  places_nodup := flatPlaces_nodup net
  bounds_injected := nothing_injected

variable {mode : EnvironmentAnalysisMode} {reapable : Transition V N → Bool}

theorem flatten_closed : flatten net ⟨[], mode⟩ reapable = .ok (closedFlatNet net reapable) := by
  cases mode <;> rfl

/-- Without environment places the mode does not matter. -/
theorem untimedSuccessors_mode (marking : MarkingState) :
    untimedSuccessors net ⟨[], mode⟩ marking = untimedSuccessors net ⟨[], .ignore⟩ marking := by
  have check (p : PlaceName) (n : Nat) (m : MarkingState) :
      StateClassGraph.checkPlaceEnabled ⟨[], mode⟩ p n m =
        StateClassGraph.checkPlaceEnabled ⟨[], .ignore⟩ p n m := by
    simp [StateClassGraph.checkPlaceEnabled]
  have unsupplied (mode : EnvironmentAnalysisMode) (p : PlaceName) :
      StateClassGraph.supplied ⟨[], mode⟩ p = false := by
    simp [StateClassGraph.supplied]
  have consume : StateClassGraph.consumeInput ⟨[], mode⟩ marking =
      StateClassGraph.consumeInput ⟨[], .ignore⟩ marking := by
    funext builder spec
    simp only [StateClassGraph.consumeInput, unsupplied]
  have drained (t : Transition V N) : StateClassGraph.drainedFrom ⟨[], mode⟩ marking t =
      StateClassGraph.drainedFrom ⟨[], .ignore⟩ marking t := by
    funext p
    simp only [StateClassGraph.drainedFrom, unsupplied]
  simp only [untimedSuccessors, StateClassGraph.findEnabledTransitions, StateClassGraph.isEnabled,
    StateClassGraph.produceOutputs, StateClassGraph.consumeInputs, check, consume, drained]

/-- The successors of a marking are its firings in the token game. -/
theorem mem_untimedSuccessors {marking m : MarkingState} {t : NetTransition net}
    (mem : (t, m) ∈ untimedSuccessors net ⟨[], mode⟩ marking) :
    Enabled (transitionAt t) marking.tokens ∧ ∃ o ∈ outcomes (transitionAt t),
      m.tokens = fire (transitionAt t) marking.tokens o := by
  have ignore : (⟨[], .ignore⟩ : Environment).mode = .ignore := rfl
  rw [untimedSuccessors_mode] at mem
  obtain ⟨u, found, mem⟩ := List.mem_flatMap.mp mem
  obtain ⟨o, outcome, same⟩ := List.mem_map.mp mem
  obtain ⟨rfl, rfl⟩ := Prod.mk.inj same
  have can := (mem_findEnabledTransitions ignore).mp found
  exact ⟨can, o, outcome, tokens_produceOutputs ignore can o⟩

theorem exists_untimedSuccessor {marking : MarkingState} {t : NetTransition net} {o : Outcome}
    (can : Enabled (transitionAt t) marking.tokens) (outcome : o ∈ outcomes (transitionAt t)) :
    ∃ m, (t, m) ∈ untimedSuccessors net ⟨[], mode⟩ marking ∧
      m.tokens = fire (transitionAt t) marking.tokens o := by
  have ignore : (⟨[], .ignore⟩ : Environment).mode = .ignore := rfl
  refine ⟨_, ?_, tokens_produceOutputs ignore can o⟩
  rw [untimedSuccessors_mode]
  exact List.mem_flatMap.mpr ⟨t, (mem_findEnabledTransitions ignore).mpr can,
    List.mem_map.mpr ⟨o, outcome, rfl⟩⟩

theorem undrained_deposits (undrained : drainedForward net = false) {t : NetTransition net}
    {o : Outcome} (outcome : o ∈ outcomes (transitionAt t)) :
    ∀ d ∈ o.deposits, ∃ count, d.2 = .tokens count := by
  intro d mem
  unfold drainedForward at undrained
  rw [List.any_eq_false] at undrained
  cases deposit : d.2 with
  | tokens count => exact ⟨count, rfl⟩
  | drained source =>
    refine absurd ?_ (undrained _ (transitionAt_mem t))
    exact List.any_eq_true.mpr ⟨o, outcome, List.any_eq_true.mpr ⟨d, mem, by rw [deposit]⟩⟩

/-- The firings of the counts of a marking. -/
theorem mem_firings_vectorize {m : MarkingState} {ft : FlatTransition (NetTransition net) _}
    {s : (closedFlatNet net reapable).State} :
    (ft, s) ∈ firings (closedFlatNet net reapable) ((closedFlatNet net reapable).vectorize m) ↔
      ∃ t i o, (outcomes (transitionAt t))[i]? = some o ∧
        ft = flatTransition (flatPlaces net) reapable t (outcomes (transitionAt t)).length i o ∧
        Enabled (transitionAt t) m.tokens ∧
        s = fireA ((closedFlatNet net reapable).vectorize m) ft := by
  have capless (s : (closedFlatNet net reapable).State) :
      withinEnvBounds (closedFlatNet net reapable) s = true := rfl
  simp only [firings, List.mem_filterMap, capless, Bool.and_true]
  constructor
  · rintro ⟨ft', listed, found⟩
    obtain ⟨t, -, listed⟩ := List.mem_flatMap.mp listed
    obtain ⟨i, lt, rfl⟩ := List.mem_mapIdx.mp listed
    split at found
    next can =>
      obtain ⟨rfl, rfl⟩ := Prod.mk.inj (Option.some.inj found)
      exact ⟨t, i, _, List.getElem?_eq_getElem lt, rfl, enabledA_iff.mp can, rfl⟩
    next => cases found
  · rintro ⟨t, i, o, at_, rfl, can, rfl⟩
    obtain ⟨lt, rfl⟩ := List.getElem?_eq_some_iff.mp at_
    refine ⟨_, List.mem_flatMap.mpr ⟨t, List.mem_finRange t, List.mem_mapIdx.mpr ⟨i, lt, rfl⟩⟩, ?_⟩
    exact if_pos (enabledA_iff.mpr can)

/-- What a firing does to the places that have no index. -/
theorem fire_outside {t : NetTransition net} {m : Counts} {o : Outcome} {p : PlaceName}
    (outcome : o ∈ outcomes (transitionAt t)) (outside : p ∉ flatPlaces net) :
    fire (transitionAt t) m o p = m p := by
  have untouched (mem : p ∈ (transitionAt t).inputSpecs.map In.place ++
      (transitionAt t).outputPlaces ++ (transitionAt t).inhibitors ++ (transitionAt t).reads ++
        (transitionAt t).resets) : False := by
    obtain ⟨i, rfl⟩ := exists_index mem
    exact outside (List.getElem_mem _)
  have kept : p ∉ (transitionAt t).resets := fun mem => untouched (List.mem_append_right _ mem)
  have unused : (transitionAt t).inputSpecs.find? (fun s => decide (s.place = p)) = none := by
    refine List.find?_eq_none.mpr fun s mem same => untouched ?_
    have := List.mem_map_of_mem (f := In.place) mem
    rw [of_decide_eq_true same] at this
    simp [this]
  have unfed : o.deposits.lookup p = none := by
    rw [OrderedMap.lookup_eq_none_iff]
    intro mem
    have := outcomes_places outcome p mem
    exact untouched (by simp [this])
  unfold fire intermediate consumption deposited
  rw [if_neg kept, unused, unfed]
  rfl

variable (mode reapable) in
/-- The graph, where it ignores the timing, and the replayer make the same steps. -/
theorem flat_steps (undrained : drainedForward net = false) (m : MarkingState) :
    (fun s => (s.1, (closedFlatNet net reapable).vectorize s.2)) ''
        {s | s ∈ untimedSuccessors net ⟨[], mode⟩ m} =
      (fun f => (f.1.source, f.2)) ''
        {f | f ∈ firings (closedFlatNet net reapable)
          ((closedFlatNet net reapable).vectorize m)} := by
  have fired {t : NetTransition net} {i : Nat} {o : Outcome}
      (outcome : o ∈ outcomes (transitionAt t)) :
      fireA ((closedFlatNet net reapable).vectorize m) (flatTransition (flatPlaces net) reapable t
        (outcomes (transitionAt t)).length i o) =
        fun p => fire (transitionAt t) m.tokens o (flatPlaces net)[p] :=
    fireA_eq (undrained_deposits undrained outcome)
  ext ⟨t, s⟩
  constructor
  · rintro ⟨⟨u, m'⟩, mem, same⟩
    obtain ⟨rfl, rfl⟩ := Prod.mk.inj same
    obtain ⟨can, o, outcome, tokens⟩ := mem_untimedSuccessors mem
    obtain ⟨i, at_⟩ := List.mem_iff_getElem?.mp outcome
    refine ⟨(_, _), mem_firings_vectorize.mpr ⟨u, i, o, at_, rfl, can, rfl⟩, ?_⟩
    refine Prod.ext rfl ((fired outcome).trans ?_)
    rw [← tokens]
    rfl
  · rintro ⟨⟨ft, s'⟩, mem, same⟩
    obtain ⟨rfl, rfl⟩ := Prod.mk.inj same
    obtain ⟨t, i, o, at_, rfl, can, rfl⟩ := mem_firings_vectorize.mp mem
    have outcome := List.mem_iff_getElem?.mpr ⟨i, at_⟩
    obtain ⟨m', mem, tokens⟩ : ∃ m', (t, m') ∈ untimedSuccessors net ⟨[], mode⟩ m ∧
        m'.tokens = fire (transitionAt t) m.tokens o := exists_untimedSuccessor can outcome
    refine ⟨(t, m'), mem, Prod.ext rfl ((fired outcome).trans ?_).symm⟩
    rw [← tokens]
    rfl

variable (net mode) in
/-- Some firing takes one marking to the other, as a graph that ignores the timing computes it. -/
def UntimedStep (m m' : MarkingState) : Prop := ∃ t, (t, m') ∈ untimedSuccessors net ⟨[], mode⟩ m

theorem flatStep_iff {m : MarkingState} {s : (closedFlatNet net reapable).State} :
    FlatStep (closedFlatNet net reapable) ((closedFlatNet net reapable).vectorize m) s ↔
      ∃ ft, (ft, s) ∈ firings (closedFlatNet net reapable)
        ((closedFlatNet net reapable).vectorize m) := by
  have uninjected (s : (closedFlatNet net reapable).State) :
      injections (closedFlatNet net reapable) s = [] := rfl
  simp only [FlatStep, successors, uninjected, List.append_nil, List.mem_map]
  constructor
  · rintro ⟨x, ⟨⟨ft, s'⟩, mem, rfl⟩, rfl⟩
    exact ⟨ft, mem⟩
  · rintro ⟨ft, mem⟩
    exact ⟨_, ⟨(ft, s), mem, rfl⟩, rfl⟩

/-- A step of one is a step of the other. -/
theorem flatStep_vectorize (undrained : drainedForward net = false) {m : MarkingState}
    {s : (closedFlatNet net reapable).State} :
    FlatStep (closedFlatNet net reapable) ((closedFlatNet net reapable).vectorize m) s ↔
      ∃ m', UntimedStep net mode m m' ∧ (closedFlatNet net reapable).vectorize m' = s := by
  have steps (t : NetTransition net) := Set.ext_iff.mp
    (flat_steps mode reapable undrained m) (t, s)
  rw [flatStep_iff]
  constructor
  · rintro ⟨ft, mem⟩
    obtain ⟨⟨t, m'⟩, succ, same⟩ := (steps ft.source).mpr ⟨_, mem, rfl⟩
    exact ⟨m', ⟨t, succ⟩, (Prod.mk.inj same).2⟩
  · rintro ⟨m', ⟨t, succ⟩, rfl⟩
    obtain ⟨⟨ft, s'⟩, mem, same⟩ := (steps t).mp ⟨_, succ, rfl⟩
    obtain ⟨-, rfl⟩ := Prod.mk.inj same
    exact ⟨ft, mem⟩

/-- The markings of one route are the states of the other. -/
theorem flat_reachable (undrained : drainedForward net = false) (m : MarkingState)
    (s : (closedFlatNet net reapable).State) :
    (∃ m', Relation.ReflTransGen (UntimedStep net mode) m m' ∧
        (closedFlatNet net reapable).vectorize m' = s) ↔
      Relation.ReflTransGen (FlatStep (closedFlatNet net reapable))
        ((closedFlatNet net reapable).vectorize m) s := by
  constructor
  · rintro ⟨m', reach, rfl⟩
    induction reach with
    | refl => exact .refl
    | tail _ step ih => exact ih.tail ((flatStep_vectorize undrained).mpr ⟨_, step, rfl⟩)
  · intro reach
    induction reach with
    | refl => exact ⟨m, .refl, rfl⟩
    | tail _ step ih =>
      obtain ⟨m', reach, rfl⟩ := ih
      obtain ⟨m'', next, rfl⟩ := (flatStep_vectorize undrained).mp step
      exact ⟨m'', reach.tail next, rfl⟩

/-- **Both analyses play one game.**  Without drained forwards and environment places, the firings of
a marking in the graph that ignores the timing are those of its counts in the replayer, where a step
is a firing.  The places without an index keep their tokens.  So both reach the same markings. -/
theorem flatten_exact (undrained : drainedForward net = false)
    {flatNet : FlatNet (NetTransition net)}
    (flattened : flatten net ⟨[], mode⟩ reapable = .ok flatNet) (m : MarkingState) :
    ((fun s => (s.1, flatNet.vectorize s.2)) '' {s | s ∈ untimedSuccessors net ⟨[], mode⟩ m} =
        (fun f => (f.1.source, f.2)) '' {f | f ∈ firings flatNet (flatNet.vectorize m)}) ∧
      (successors flatNet (flatNet.vectorize m) =
        (firings flatNet (flatNet.vectorize m)).map fun f => ⟨f.2, .fire f.1.name⟩) ∧
      (∀ s ∈ untimedSuccessors net ⟨[], mode⟩ m, ∀ p ∉ flatNet.places,
        s.2.tokens p = m.tokens p) ∧
      ∀ s, (∃ m', Relation.ReflTransGen (UntimedStep net mode) m m' ∧ flatNet.vectorize m' = s) ↔
        Relation.ReflTransGen (FlatStep flatNet) (flatNet.vectorize m) s := by
  obtain rfl := Except.ok.inj (flatten_closed.symm.trans flattened)
  refine ⟨flat_steps mode reapable undrained m, List.append_nil _, ?_, flat_reachable undrained m⟩
  rintro ⟨t, m'⟩ mem p outside
  obtain ⟨-, o, outcome, tokens⟩ := mem_untimedSuccessors mem
  exact (congrFun tokens p).trans (fire_outside outcome outside)

end Closed

/-- The net of one moving token, flattened: where the token has moved. -/
theorem flatten_exact_moving :
    (∃ m', Relation.ReflTransGen (UntimedStep movingNet .ignore) movingMarking m' ∧
        (closedFlatNet movingNet fun _ => false).vectorize m' =
          (closedFlatNet movingNet fun _ => false).vectorize (MarkingState.empty.addTokens "b" 1)) ↔
      Relation.ReflTransGen (FlatStep (closedFlatNet movingNet fun _ => false))
        ((closedFlatNet movingNet fun _ => false).vectorize movingMarking)
        ((closedFlatNet movingNet fun _ => false).vectorize (MarkingState.empty.addTokens "b" 1)) :=
  (@flatten_exact _ _ movingNet .ignore (fun _ => false) (by decide +kernel) _ flatten_closed
    movingMarking).2.2.2 _

end LibPetri.Verified

import LibPetri.Verification.ReplaySearch
import LibPetri.Verified.Encodings

/-! # What the searches for a violating run answer

A chain that either search returns is a run of the flat net to a violating state.  Where a search reports
that there is none, there is none: no reachable state violates the property, or none that firings within
the counts lead to.
-/

namespace LibPetri.Verified

open LibPetri.Basis LibPetri.Core LibPetri.Runtime LibPetri.Verification
open LibPetri.Verification.AbstractReplayer LibPetri.Verification.ParikhSearch
open WitnessSearch (Trace Recalls)

variable {S : Type} {flatNet : FlatNet S}

/-! ## Keys -/

theorem countsOf_injective {P : Nat} : Function.Injective (countsOf : AbstractState P → List Int) := by
  intro s s' same
  funext p
  have := List.map_inj_left.mp same p (List.mem_finRange p)
  exact_mod_cast this

theorem stateKey_inj {P : Nat} {s s' : AbstractState P}
    (same : stateKey (countsOf s) = stateKey (countsOf s')) : s = s' :=
  countsOf_injective (joined_inj (by simp [countsOf]) same)

theorem bar_not_mem_stateKey (counts : List Int) : '|' ∉ (stateKey counts).toList := by
  intro mem
  rcases mem_joined mem with comma | sign | digit
  · exact absurd comma (by decide)
  · exact absurd sign (by decide)
  · exact absurd digit (by decide)

/-- A key of the counted search tells the state and the counts left. -/
theorem key_inj {node node' : Unspent flatNet} (same : key node = key node') : node = node' := by
  have same := congrArg String.toList same
  unfold key at same
  simp only [String.toList_append, List.append_assoc] at same
  obtain ⟨states, -, counts⟩ := append_cons_inj (P := fun c => c ≠ '|')
    (fun c mem eq => bar_not_mem_stateKey _ (eq ▸ mem)) (fun h => h rfl)
    (fun c mem eq => bar_not_mem_stateKey _ (eq ▸ mem)) (fun h => h rfl) same
  obtain ⟨state, remaining⟩ := node
  obtain ⟨state', remaining'⟩ := node'
  obtain rfl : state = state' := stateKey_inj (String.toList_inj.mp states)
  have left := joined_inj (by simp) (String.toList_inj.mp counts)
  have : remaining = remaining' := by
    funext t
    exact List.map_inj_left.mp left t (List.mem_finRange t)
  rw [this]

/-! ## What the searches remember -/

theorem recalls_undominated {P : Nat} :
    Recalls (undominated (P := P)) (fun d d' => d.state = d'.state) fun bestSegment ds =>
      ∀ k g, bestSegment.get? k = some g → ∃ d ∈ ds, stateKey (countsOf d.state) = k where
  admits := by
    intro best best' ds d shown admitted k g found
    -- either way the key of `d` is set, and no other
    have set : best' = best.set (stateKey (countsOf d.state)) d.segment := by
      unfold undominated at admitted
      dsimp only at admitted
      split at admitted
      · exact (Option.some.inj admitted).symm
      · split at admitted
        · cases admitted
        · exact (Option.some.inj admitted).symm
    rw [set, OrderedMap.get?_set] at found
    split at found
    next same => exact ⟨d, by simp, same.symm⟩
    next =>
      obtain ⟨d', mem, key⟩ := shown k g found
      exact ⟨d', List.mem_append_left _ mem, key⟩
  refuses := by
    intro best ds d shown refused
    unfold undominated at refused
    dsimp only at refused
    split at refused
    · cases refused
    next prior found =>
      obtain ⟨d', mem, key⟩ := shown _ prior found
      exact ⟨d', mem, stateKey_inj key⟩
  refl := fun _ => rfl

theorem recalls_unseen : Recalls (@unseen S flatNet) (fun d d' => d = d') fun seen ds =>
    ∀ k ∈ seen, ∃ d ∈ ds, key d = k where
  admits := by
    intro seen seen' ds d shown admitted k mem
    unfold unseen at admitted
    split at admitted
    · cases admitted
    · obtain rfl := Option.some.inj admitted
      rcases List.mem_cons.mp mem with rfl | old
      · exact ⟨d, by simp, rfl⟩
      · obtain ⟨d', mem, same⟩ := shown k old
        exact ⟨d', List.mem_append_left _ mem, same⟩
  refuses := by
    intro seen ds d shown refused
    unfold unseen at refused
    split at refused
    next known =>
      obtain ⟨d', mem, same⟩ := shown _ known
      exact ⟨d', mem, key_inj same⟩
    · cases refused
  refl := fun _ => rfl

/-! ## Replaying a counterexample -/

section Replay

variable {property : SmtProperty} {sinkPlaces : List PlaceName}
  {conditionalSinks : List ConditionalSinks}

/-- Whether a property can be judged does not depend on the state. -/
theorem satisfiesBad_judges {s : flatNet.State} {b : Bool}
    (judged : satisfiesBad flatNet property sinkPlaces conditionalSinks s = .ok b)
    (s' : flatNet.State) : ∃ b', satisfiesBad flatNet property sinkPlaces conditionalSinks s' = .ok b' := by
  cases property with
  | nameAligned => cases judged
  | quiescentNameAligned => cases judged
  | _ => exact ⟨_, rfl⟩

theorem isBad_of_judged {s : flatNet.State} {b : Bool}
    (judged : satisfiesBad flatNet property sinkPlaces conditionalSinks s = .ok b) :
    isBad flatNet property sinkPlaces conditionalSinks s = b := by
  unfold isBad
  rw [judged]

/-- A step of the chain that a replay returns. -/
abbrev ReplayedStep (flatNet : FlatNet S) (s : flatNet.State) (step : ReplayStep)
    (s' : flatNet.State) : Prop :=
  (⟨s', step⟩ : Successor flatNet.places.length) ∈ successors flatNet s

variable {anchors : List String} {segmentBudget : Nat}

theorem mem_segmentSuccessors {node node' : Segment flatNet.places.length} {step : ReplayStep}
    (mem : (step, node') ∈ segmentSuccessors flatNet anchors segmentBudget node) :
    ReplayedStep flatNet node.state step node'.state := by
  unfold segmentSuccessors at mem
  split at mem
  · cases mem
  · obtain ⟨succ, listed, same⟩ := List.mem_map.mp mem
    obtain ⟨rfl, rfl⟩ := Prod.mk.inj same
    exact listed

variable (anchors) in
/-- A node short of its segment budget has every successor of its state. -/
theorem exists_segmentSuccessor {node : Segment flatNet.places.length} {s' : flatNet.State}
    (short : ¬segmentBudget ≤ node.segment) (step : FlatStep flatNet node.state s') :
    ∃ l node', (l, node') ∈ segmentSuccessors flatNet anchors segmentBudget node ∧
      node'.state = s' := by
  obtain ⟨succ, listed, rfl⟩ := step
  unfold segmentSuccessors
  rw [if_neg short]
  exact ⟨_, _, List.mem_map_of_mem listed, rfl⟩

/-- A replay that is not cut short is the search, its property judged. -/
theorem replay_cases {initial : flatNet.State} {decodedStates : List (List Int)} {nodeBudget : Nat}
    {outcome : ReplayOutcome flatNet.places.length}
    (result : replayCounterexample flatNet initial decodedStates property sinkPlaces segmentBudget
      nodeBudget conditionalSinks = .ok outcome) :
    (∃ reason explored, outcome = .exhausted reason explored) ∨
      (∃ b, satisfiesBad flatNet property sinkPlaces conditionalSinks initial = .ok b) ∧
        let search := WitnessSearch.run
          (segmentSuccessors flatNet (decodedStates.map stateKey) segmentBudget) undominated
          (fun node => isBad flatNet property sinkPlaces conditionalSinks node.state) nodeBudget
          ⟨initial, 0⟩ (OrderedMap.empty.set (stateKey (countsOf initial)) 0)
        (∃ nodes, search = .found nodes ∧ outcome = .confirmed
          ((WitnessSearch.reconstruct nodes).1.map Segment.state) (WitnessSearch.reconstruct nodes).2
          nodes.length) ∨
        ∃ nodes best, search = .finished nodes best ∧ outcome = .noChain nodes.length ∧
          ∀ node ∈ nodes, ¬segmentBudget ≤ node.data.segment := by
  unfold replayCounterexample at result
  dsimp only at result ⊢
  split at result
  · exact .inl ⟨_, _, (Except.ok.inj result).symm⟩
  split at result
  · exact .inl ⟨_, _, (Except.ok.inj result).symm⟩
  cases judged : satisfiesBad flatNet property sinkPlaces conditionalSinks initial with
  | error thrown =>
    rw [judged] at result
    cases result
  | ok b =>
    simp only [judged, Except.bind, bind] at result
    cases search : WitnessSearch.run (segmentSuccessors flatNet (decodedStates.map stateKey) segmentBudget)
        undominated (fun node => isBad flatNet property sinkPlaces conditionalSinks node.state) nodeBudget
        ⟨initial, 0⟩ (OrderedMap.empty.set (stateKey (countsOf initial)) 0) with
    | found nodes =>
      rw [search] at result
      exact .inr ⟨⟨b, rfl⟩, .inl ⟨nodes, rfl, (Except.ok.inj result).symm⟩⟩
    | exhausted nodes =>
      rw [search] at result
      exact .inl ⟨_, _, (Except.ok.inj result).symm⟩
    | finished nodes best =>
      rw [search] at result
      dsimp only at result
      split at result
      · exact .inl ⟨_, _, (Except.ok.inj result).symm⟩
      next all =>
        refine .inr ⟨⟨b, rfl⟩, .inr ⟨nodes, best, rfl, (Except.ok.inj result).symm, ?_⟩⟩
        simpa using all

theorem shown_start (initial : flatNet.State) (k : String) (g : Nat)
    (found : (OrderedMap.empty.set (stateKey (countsOf initial)) 0).get? k = some g) :
    ∃ d ∈ [(⟨initial, 0⟩ : Segment flatNet.places.length)], stateKey (countsOf d.state) = k := by
  rw [OrderedMap.get?_set] at found
  split at found
  next same => exact ⟨_, List.mem_cons_self, same.symm⟩
  next => cases found

/-- A confirmed replay returns a chain of steps from the initial state to a violating one, and where a
replay finds that there is no chain, no reachable state violates the property. -/
theorem replay_right (flatNet : FlatNet S) (initial : flatNet.State) (decodedStates : List (List Int))
    (property : SmtProperty) (sinkPlaces : List PlaceName) (segmentBudget nodeBudget : Nat)
    (conditionalSinks : List ConditionalSinks) :
    (∀ states steps nodesExplored,
      replayCounterexample flatNet initial decodedStates property sinkPlaces segmentBudget nodeBudget
          conditionalSinks = .ok (.confirmed states steps nodesExplored) →
        ∃ s, Trace (ReplayedStep flatNet) initial states steps s ∧
          satisfiesBad flatNet property sinkPlaces conditionalSinks s = .ok true) ∧
    ∀ nodesExplored,
      replayCounterexample flatNet initial decodedStates property sinkPlaces segmentBudget nodeBudget
          conditionalSinks = .ok (.noChain nodesExplored) →
        ∀ s, FlatReachable flatNet initial s →
          satisfiesBad flatNet property sinkPlaces conditionalSinks s = .ok false := by
  constructor
  · intro states steps explored result
    obtain ⟨reason, n, cut⟩ | ⟨⟨b, judged⟩, search⟩ := replay_cases result
    · cases cut
    obtain ⟨nodes, found, same⟩ | ⟨nodes, best, -, cut, -⟩ := search
    · obtain ⟨rfl, rfl, rfl⟩ := ReplayOutcome.confirmed.inj same
      obtain ⟨node, trace, bad⟩ :=
        WitnessSearch.run_found recalls_undominated (shown_start initial) found
      have chain : Trace (ReplayedStep flatNet) initial
          ((WitnessSearch.reconstruct nodes).1.map Segment.state)
          ((WitnessSearch.reconstruct nodes).2.map id) node.state :=
        trace.map Segment.state id fun _ _ _ => mem_segmentSuccessors
      rw [List.map_id] at chain
      obtain ⟨b', judged⟩ := satisfiesBad_judges judged node.state
      rw [isBad_of_judged judged] at bad
      exact ⟨node.state, chain, bad ▸ judged⟩
    · cases cut
  · intro explored result s reachable
    obtain ⟨reason, n, cut⟩ | ⟨⟨b, judged⟩, search⟩ := replay_cases result
    · cases cut
    obtain ⟨nodes, -, cut⟩ | ⟨nodes, best, finished, -, short⟩ := search
    · cases cut
    obtain ⟨⟨root, mem, start⟩, good, closed⟩ :=
      WitnessSearch.run_finished recalls_undominated (shown_start initial) finished
    -- the states of the nodes are closed under steps
    have visited : ∃ node ∈ nodes, node.data.state = s := by
      induction reachable with
      | refl => exact ⟨root, mem, by rw [start]⟩
      | tail _ step ih =>
        obtain ⟨node, mem, rfl⟩ := ih
        obtain ⟨l, next, edge, rfl⟩ :=
          exists_segmentSuccessor (decodedStates.map stateKey) (short node mem) step
        exact closed node mem l next edge
    obtain ⟨node, mem, rfl⟩ := visited
    obtain ⟨b', judged⟩ := satisfiesBad_judges judged node.data.state
    have fine := good node mem
    rw [isBad_of_judged judged] at fine
    exact fine ▸ judged

/-- The states of a confirmed chain. -/
def confirmedStates {P : Nat} : Except Thrown (ReplayOutcome P) → List (AbstractState P)
  | .ok (.confirmed states _ _) => states
  | _ => []

theorem confirmed_of_states {P : Nat} {result : Except Thrown (ReplayOutcome P)}
    (some_ : (confirmedStates result).length ≠ 0) :
    ∃ states steps explored, result = .ok (.confirmed states steps explored) := by
  cases result with
  | error => exact absurd rfl some_
  | ok outcome =>
    cases outcome with
    | confirmed states steps explored => exact ⟨states, steps, explored, rfl⟩
    | noChain => exact absurd rfl some_
    | exhausted => exact absurd rfl some_

def refuted {P : Nat} : Except Thrown (ReplayOutcome P) → Bool
  | .ok (.noChain _) => true
  | _ => false

theorem noChain_of_refuted {P : Nat} {result : Except Thrown (ReplayOutcome P)}
    (none_ : refuted result = true) : ∃ explored, result = .ok (.noChain explored) := by
  cases result with
  | error => cases none_
  | ok outcome =>
    cases outcome with
    | noChain explored => exact ⟨explored, rfl⟩
    | confirmed => cases none_
    | exhausted => cases none_

/-- The token moves to `b`, and a second one never comes. -/
theorem replay_right_moveOnce :
    (∃ states steps s, Trace (ReplayedStep moveOnceNet) (moveOnceNet.vectorize moveOnceMarking) states
        steps s ∧ satisfiesBad moveOnceNet (.placeBound "b" (0 : ℚ)) [] [] s = .ok true) ∧
      satisfiesBad moveOnceNet (.placeBound "b" (1 : ℚ)) [] [] (moveOnceNet.vectorize moveOnceMarking) =
        .ok false := by
  obtain ⟨states, steps, explored, confirmed⟩ := confirmed_of_states
    (show (confirmedStates (replayCounterexample moveOnceNet (moveOnceNet.vectorize moveOnceMarking)
      [[1, 0]] (.placeBound "b" (0 : ℚ)) [] 3 10 [])).length ≠ 0 by decide +kernel)
  obtain ⟨explored', none_⟩ := noChain_of_refuted
    (show refuted (replayCounterexample moveOnceNet (moveOnceNet.vectorize moveOnceMarking) [[1, 0]]
      (.placeBound "b" (1 : ℚ)) [] 3 10 []) = true by decide +kernel)
  exact ⟨⟨states, steps, (replay_right moveOnceNet _ _ _ _ _ _ _).1 states steps explored confirmed⟩,
    (replay_right moveOnceNet _ _ _ _ _ _ _).2 explored' none_ _ .refl⟩

end Replay

/-! ## Searching within counts -/

section Counted

variable {counts : flatNet.Position → Int} {isBad : flatNet.State → Bool} {initial : flatNet.State}

/-- The firings with counts left. -/
theorem mem_countedSuccessors {node node' : Unspent flatNet} {t : flatNet.Position} :
    (t, node') ∈ countedSuccessors flatNet node ↔
      0 < node.remaining t ∧ enabledA node.state (flatNet.transition t) = true ∧
        withinEnvBounds flatNet (fireA node.state (flatNet.transition t)) = true ∧
        node' = ⟨fireA node.state (flatNet.transition t),
          Function.update node.remaining t (node.remaining t - 1)⟩ := by
  have caps : ((environmentCaps flatNet).any fun e =>
      e.2 < fireA node.state (flatNet.transition t) e.1) =
      !withinEnvBounds flatNet (fireA node.state (flatNet.transition t)) := by
    rw [withinEnvBounds, List.all_eq_not_any_not, Bool.not_not]
    simp
  unfold countedSuccessors
  rw [List.mem_filterMap]
  constructor
  · rintro ⟨t', -, found⟩
    dsimp only at found
    split at found
    · cases found
    next ready =>
      split at found
      · cases found
      next room =>
        obtain ⟨rfl, rfl⟩ := Prod.mk.inj (Option.some.inj found)
        rw [Bool.or_eq_true, not_or, decide_eq_true_eq, Bool.not_eq_true', Bool.not_eq_false,
          not_le] at ready
        rw [caps, Bool.not_eq_true', Bool.not_eq_false] at room
        exact ⟨ready.1, ready.2, room, rfl⟩
  · rintro ⟨left, enabled, within, rfl⟩
    refine ⟨t, List.mem_finRange t, ?_⟩
    dsimp only
    rw [if_neg (by simp [enabled, left]), if_neg (by rw [caps, within]; decide)]

/-- A trace of the search is a run of firings, and spends the counts it uses. -/
theorem trace_fires {nodes : List (Unspent flatNet)} {ts : List flatNet.Position}
    {node : Unspent flatNet}
    (trace : Trace (fun d l d' => (l, d') ∈ countedSuccessors flatNet d) ⟨initial, counts⟩ nodes ts node) :
    Trace (fun s t s' => FlatMove flatNet s (some t) s') initial (nodes.map Unspent.state) ts node.state ∧
      ∀ t, node.remaining t = counts t - ts.count t ∧ (ts.count t : ℤ) ≤ max 0 (counts t) := by
  induction trace with
  | start => exact ⟨.start, fun t => by simp⟩
  | @move _ ts d d' t _ step ih =>
    obtain ⟨fires, spent⟩ := ih
    obtain ⟨left, enabled, within, rfl⟩ := mem_countedSuccessors.mp step
    rw [List.map_append]
    refine ⟨.move t fires (.fire t enabled within), fun t' => ?_⟩
    obtain ⟨remains, below⟩ := spent t'
    rw [List.count_append, List.count_singleton]
    by_cases same : t = t'
    · subst same
      rw [beq_self_eq_true, if_pos rfl]
      dsimp only
      rw [Function.update_self]
      omega
    · rw [beq_false_of_ne same, if_neg Bool.false_ne_true]
      dsimp only
      rw [Function.update_of_ne (Ne.symm same)]
      omega

/-- The runs within the counts all lead to nodes of a finished search. -/
theorem node_of_run {nodes : List (WitnessSearch.SearchNode (Unspent flatNet) flatNet.Position)}
    (closed_ : flatNet.environmentInjection.entries = [])
    (start : ∃ node ∈ nodes, node.data = ⟨initial, counts⟩)
    (closed : ∀ node ∈ nodes, ∀ t d, (t, d) ∈ countedSuccessors flatNet node.data →
      ∃ node' ∈ nodes, node'.data = d)
    {labels : List (Option flatNet.Position)} {s : flatNet.State}
    (run : FlatRun flatNet initial labels s)
    (within : ∀ t, (firingCounts labels t : ℤ) ≤ max 0 (counts t)) :
    ∃ node ∈ nodes, node.data.state = s ∧
      ∀ t, node.data.remaining t = counts t - firingCounts labels t := by
  induction run with
  | start =>
    obtain ⟨node, mem, same⟩ := start
    exact ⟨node, mem, by rw [same], fun t => by rw [same]; simp [firingCounts]⟩
  | move l _ step ih =>
    obtain ⟨node, mem, rfl, spent⟩ := ih fun t => by
      have := within t
      rw [firingCounts_append] at this
      unfold counted at this
      split at this <;> omega
    cases step with
    | fire t enabled room =>
      have left := within t
      rw [firingCounts_append, counted, if_pos rfl] at left
      have spent_t := spent t
      obtain ⟨node', mem', same⟩ := closed node mem t _
        (mem_countedSuccessors.mpr ⟨by omega, enabled, room, rfl⟩)
      refine ⟨node', mem', by rw [same], fun t' => ?_⟩
      have spent_t' := spent t'
      rw [same, firingCounts_append, counted]
      dsimp only
      by_cases same : t = t'
      · subst same
        rw [Function.update_self, if_pos rfl]
        omega
      · rw [Function.update_of_ne (Ne.symm same), if_neg fun eq => same (Option.some.inj eq)]
        omega
    | inject pid bound mem room =>
      rw [mem_resolveEnvInjection, closed_] at mem
      cases mem

/-- A run that the search reports is a run of firings from the initial state to a bad one, no transition
fired more often than its count.  Where it reports that there is none, no run within the counts leads
to a bad state. -/
theorem searchWithinCounts_right (flatNet : FlatNet S) (initial : flatNet.State)
    (counts : flatNet.Position → Int) (isBad : flatNet.State → Bool) (nodeBudget : Nat) :
    (∀ states steps explored,
      searchWithinCounts flatNet initial counts isBad nodeBudget = .found states steps explored →
        ∃ ts s, Trace (fun s t s' => FlatMove flatNet s (some t) s') initial states ts s ∧
          steps = ts.map (fun t => (flatNet.transition t).name) ∧
          (∀ t, (ts.count t : ℤ) ≤ max 0 (counts t)) ∧ isBad s = true) ∧
    ∀ explored, searchWithinCounts flatNet initial counts isBad nodeBudget = .none explored →
      ∀ labels s, FlatRun flatNet initial labels s →
        (∀ t, (firingCounts labels t : ℤ) ≤ max 0 (counts t)) → isBad s = false := by
  have shown : ∀ k ∈ [key (⟨initial, counts⟩ : Unspent flatNet)],
      ∃ d ∈ [(⟨initial, counts⟩ : Unspent flatNet)], key d = k := by simp
  unfold searchWithinCounts
  dsimp only
  cases search : WitnessSearch.run (countedSuccessors flatNet) unseen (fun node => isBad node.state)
      nodeBudget ⟨initial, counts⟩ [key ⟨initial, counts⟩] with
  | found nodes =>
    refine ⟨fun states steps explored result => ?_, fun explored result => (by cases result)⟩
    obtain ⟨rfl, rfl, rfl⟩ := WitnessOutcome.found.inj result
    obtain ⟨node, trace, bad⟩ := WitnessSearch.run_found recalls_unseen shown search
    obtain ⟨fires, spent⟩ := trace_fires trace
    exact ⟨_, node.state, fires, rfl, fun t => (spent t).2, bad⟩
  | exhausted nodes =>
    exact ⟨fun _ _ _ result => (by cases result), fun _ result => (by cases result)⟩
  | finished nodes seen =>
    refine ⟨fun _ _ _ result => ?_, fun explored result labels s run within => ?_⟩
    · dsimp only at result
      split at result <;> cases result
    · obtain ⟨start, good, closed⟩ := WitnessSearch.run_finished recalls_unseen shown search
      dsimp only at result
      split at result
      · cases result
      next none_ =>
        have empty : flatNet.environmentInjection.entries = [] :=
          List.length_eq_zero_iff.mp (Nat.eq_zero_of_not_pos none_)
        obtain ⟨node, mem, rfl, -⟩ := node_of_run empty start closed run within
        exact good node mem

/-- How a search ended: with a run, and if not, with none left. -/
def ending {P : Nat} : WitnessOutcome P → Option Bool
  | .found _ _ _ => some true
  | .none _ => some false
  | .exhausted _ _ => none

theorem found_of_ending {P : Nat} {outcome : WitnessOutcome P} (found : ending outcome = some true) :
    ∃ states steps explored, outcome = .found states steps explored := by
  cases outcome with
  | found states steps explored => exact ⟨states, steps, explored, rfl⟩
  | none => cases found
  | exhausted => cases found

theorem none_of_ending {P : Nat} {outcome : WitnessOutcome P} (none_ : ending outcome = some false) :
    ∃ explored, outcome = .none explored := by
  cases outcome with
  | none explored => exact ⟨explored, rfl⟩
  | found => cases none_
  | exhausted => cases none_

/-- One firing puts a token on `b`; no run of one firing puts two there. -/
theorem searchWithinCounts_right_moveOnce :
    (∃ ts s, (∀ t, (ts.count t : ℤ) ≤ max 0 1) ∧ (∃ states, Trace
        (fun s t s' => FlatMove moveOnceNet s (some t) s') (moveOnceNet.vectorize moveOnceMarking) states
          ts s) ∧ decide (1 ≤ s 1) = true) ∧
      decide (2 ≤ moveOnceNet.vectorize moveOnceMarking 1) = false := by
  obtain ⟨states, steps, explored, found⟩ := found_of_ending
    (show ending (searchWithinCounts moveOnceNet (moveOnceNet.vectorize moveOnceMarking) (fun _ => 1)
      (fun s => 1 ≤ s 1) 10) = some true by decide +kernel)
  obtain ⟨explored', none_⟩ := none_of_ending
    (show ending (searchWithinCounts moveOnceNet (moveOnceNet.vectorize moveOnceMarking) (fun _ => 1)
      (fun s => 2 ≤ s 1) 10) = some false by decide +kernel)
  obtain ⟨ts, s, run, -, counted, bad⟩ :=
    (searchWithinCounts_right moveOnceNet _ _ _ _).1 states steps explored found
  refine ⟨⟨ts, s, counted, ⟨states, run⟩, bad⟩, ?_⟩
  exact (searchWithinCounts_right moveOnceNet _ _ _ _).2 explored' none_ [] _ .start (by simp [firingCounts])

end Counted

end LibPetri.Verified

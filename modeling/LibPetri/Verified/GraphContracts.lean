import LibPetri.Verification.GraphRoute
import LibPetri.Verified.ContractRoutes
import LibPetri.Verified.Verdicts

/-! # The contract on the graph is decided right

What the graph route reports comes with a firing sequence, a cycle with the place where it closes; a whole
graph without findings holds every marking that rests, and where it has no cycle every run ends.
-/

namespace LibPetri.Verified

open LibPetri.Basis LibPetri.Core LibPetri.Verification
open LibPetri.Verification.StateClassGraph LibPetri.Verification.ScgVerifier
open LibPetri.Verification.GraphRoute TokenGame

variable {V N : Type}

/-! ## What a contract asks for -/

variable (net : PetriNet V N) in
/-- Only what may be reaped is enabled. -/
def Resting (reapable : List String) (m : Counts) : Prop :=
  ∀ t : NetTransition net, Enabled (transitionAt t) m → (transitionAt t).name ∈ reapable

/-- The tokens across the places of a clause, its lower bound waived where a marker is marked. -/
def ClauseKept (contract : OpenNetContract V N) (m : Counts) (clause : CountClause) : Prop :=
  ((∑ p ∈ clause.places.toFinset, m p : ℕ) : WithTop ℕ) ≤ clause.max ∧
    (clause.min ≤ ∑ p ∈ clause.places.toFinset, m p ∨ ∃ t ∈ contract.terminals, 0 < m t.marker)

/-- A token of the place may rest under the contract. -/
def MayRest (closed : ClosedNet V N) (contract : OpenNetContract V N) (m : Counts) (p : PlaceName) :
    Prop :=
  (∃ clause ∈ contract.clauses, p ∈ clause.places) ∨ p ∈ contract.rest ∨
    p ∈ closed.environmentPlaces ∨
      ∃ t ∈ contract.terminals, p = t.marker ∨ (0 < m t.marker ∧ p ∈ t.excused)

/-- What the contract asks of a marking that rests. -/
structure Kept (closed : ClosedNet V N) (contract : OpenNetContract V N) (m : Counts) : Prop where
  clauses : ∀ clause ∈ contract.clauses, ClauseKept contract m clause
  rest : ∀ p, 0 < m p → MayRest closed contract m p

/-- What a violation names is broken at the marking. -/
def Broken (closed : ClosedNet V N) (contract : OpenNetContract V N) (m : Counts) :
    ContractViolationKind → String → Prop
  | .clause, subject => ∃ clause ∈ contract.clauses, clause.name = subject ∧ ¬ClauseKept contract m clause
  | .stranded, subject => 0 < m subject ∧ ¬MayRest closed contract m subject
  | .termination, _ => False

section Findings

variable {closed : ClosedNet V N} {contract : OpenNetContract V N} {m : MarkingState}

theorem rests_iff_mayRest {p : PlaceName} :
    Rests (restDeclarationOf contract closed).sinks (restDeclarationOf contract closed).conditional
        m.tokens p ↔ MayRest closed contract m.tokens p := by
  simp only [Rests, restDeclarationOf, MayRest, List.mem_eraseDups, List.mem_append, List.mem_flatMap,
    List.mem_map, exists_exists_and_eq_and, or_assoc]

theorem clauseKept_iff {clause : CountClause} :
    ClauseKept contract m.tokens clause ↔
      countViolation m clause.places clause.min clause.max (waiverMarkers contract) = none := by
  rw [← Option.not_isSome_iff_eq_none, countViolation_isSome]
  unfold ClauseKept waiverMarkers
  rw [not_or, not_lt, not_and_or, not_lt]
  simp only [List.forall_mem_map, not_forall, Nat.pos_iff_ne_zero, exists_prop]

/-- A marking that breaks nothing keeps the contract. -/
theorem kept_of_findings
    (none_ : quiescenceFindings m contract (restDeclarationOf contract closed) = []) :
    Kept closed contract m.tokens := by
  obtain ⟨stranded, clauses⟩ := not_or.mp fun broken => quiescenceFindings_ne_nil.mpr broken none_
  refine ⟨fun clause mem => ?_, fun p marked => ?_⟩
  · rw [clauseKept_iff, ← Option.not_isSome_iff_eq_none]
    exact fun broken => clauses ⟨clause, mem, broken⟩
  · rw [← rests_iff_mayRest]
    by_contra outside
    exact stranded (strandsToken_iff.mpr ⟨p, marked, outside⟩)

/-- The kind a finding is reported as. -/
def kindOf : Finding → ContractViolationKind
  | .clause _ _ _ => .clause
  | .stranded _ _ => .stranded

/-- A finding names what is broken. -/
theorem broken_of_finding {finding : Finding}
    (mem : finding ∈ quiescenceFindings m contract (restDeclarationOf contract closed)) :
    Broken closed contract m.tokens (kindOf finding) finding.subjectOf := by
  rcases List.mem_append.mp mem with broken | stranded
  · obtain ⟨clause, listed, found⟩ := List.mem_filterMap.mp broken
    obtain ⟨bound, violated, rfl⟩ := Option.map_eq_some_iff.mp found
    refine ⟨clause, listed, rfl, ?_⟩
    rw [clauseKept_iff, violated]
    exact Option.some_ne_none bound
  · obtain ⟨p, listed, rfl⟩ := List.mem_map.mp stranded
    obtain ⟨marked, outside⟩ := mem_strandedNames.mp listed
    exact ⟨marked, fun may => outside (rests_iff_mayRest.mpr may)⟩

end Findings

/-! ## The findings of a graph -/

section Findings

variable {net : PetriNet V N} {graph : StateClassGraph net} {contract : OpenNetContract V N}
  {rest : RestDeclaration} {reapable : List String}

theorem mem_findings {finding : Finding} {i : Nat} :
    (finding, i) ∈ findings graph contract rest reapable ↔
      ∃ c, graph.classes[i]? = some c ∧
        (∀ t ∈ c.enabledTransitions, (transitionAt t).name ∈ reapable) ∧
        finding ∈ quiescenceFindings c.marking contract rest := by
  simp only [findings, List.mem_flatMap, List.mem_zipIdx_iff_getElem?, Prod.exists]
  constructor
  · rintro ⟨c, k, at_, mem⟩
    split at mem
    next rests =>
      obtain ⟨finding', found, same⟩ := List.mem_map.mp mem
      obtain ⟨rfl, rfl⟩ := Prod.mk.inj same
      exact ⟨c, at_, by simpa using rests, found⟩
    next => cases mem
  · rintro ⟨c, at_, rests, found⟩
    refine ⟨c, i, at_, ?_⟩
    rw [if_pos (by simpa using rests)]
    exact List.mem_map_of_mem found

theorem firstFindings_subset {found first : List (Finding × Nat)} :
    (∀ f ∈ found.foldl (fun first f =>
      if first.any fun g => findingKey g.1 = findingKey f.1 then first else first ++ [f]) first,
        f ∈ first ∨ f ∈ found) ∧
      ((found.foldl (fun first f =>
        if first.any fun g => findingKey g.1 = findingKey f.1 then first else first ++ [f]) first) = [] →
        first = [] ∧ found = []) := by
  induction found generalizing first with
  | nil => exact ⟨fun f mem => .inl mem, fun none_ => ⟨none_, rfl⟩⟩
  | cons f found ih =>
    rw [List.foldl_cons]
    split
    next known =>
      refine ⟨fun g mem => (ih.1 g mem).imp_right (List.mem_cons_of_mem _), fun none_ => ?_⟩
      obtain ⟨rfl, -⟩ := ih.2 none_
      simp at known
    next =>
      refine ⟨fun g mem => ?_, fun none_ => ?_⟩
      · rcases ih.1 g mem with old | later
        · rcases List.mem_append.mp old with old | new
          · exact .inl old
          · exact .inr (List.mem_singleton.mp new ▸ List.mem_cons_self)
        · exact .inr (List.mem_cons_of_mem _ later)
      · exact absurd (ih.2 none_).1 (List.append_ne_nil_of_right_ne_nil _ (List.cons_ne_nil _ _))

theorem mem_firstFindings {found : List (Finding × Nat)} {f : Finding × Nat}
    (mem : f ∈ firstFindings found) : f ∈ found :=
  (firstFindings_subset.1 f mem).resolve_left List.not_mem_nil

theorem firstFindings_eq_nil {found : List (Finding × Nat)} (none_ : firstFindings found = []) :
    found = [] :=
  (firstFindings_subset.2 none_).2

theorem mem_ordered {first : List (Finding × Nat)} {f : Finding × Nat} :
    f ∈ ordered contract first ↔ f ∈ first :=
  (List.perm_insertionSort _ _).mem_iff

end Findings

/-! ## Firing sequences -/

section Sequences

variable {net : PetriNet V N} {initial : MarkingState}

/-- The markings of a firing sequence end with the one it leads to. -/
theorem FiringSequence.last {markings : List MarkingState} {transitions : List String} {m : MarkingState}
    (h : FiringSequence net initial markings transitions m) :
    markings.length = transitions.length + 1 ∧ markings[transitions.length]? = some m := by
  induction h with
  | start => exact ⟨rfl, rfl⟩
  | fire t before fires ih =>
    obtain ⟨length, -⟩ := ih
    refine ⟨by simp [length], ?_⟩
    rw [List.length_append, List.length_singleton, ← length, List.getElem?_concat_length]

variable {maxClasses : Nat} {untimed stubborn : Bool} {g : StateClassGraph net}
  (atOnce : AtOnce net untimed)
  (safe : ∀ p, Named net initial p → MarkingState.KeySafe p)
  (built : build net initial maxClasses ⟨[], .ignore⟩ ⟨untimed, stubborn⟩ = .ok g)

theorem mem_edgesOf {i j : Nat} {name : String} :
    (name, j) ∈ edgesOf g i ↔ ∃ l, g.Edge i l j ∧ (transitionAt l.1).name = name := by
  unfold edgesOf ScgVerifier.outgoingBranchEdges Exploration.Edge
  rw [List.mem_map]
  constructor
  · rintro ⟨⟨l, k⟩, mem, same⟩
    obtain ⟨rfl, rfl⟩ := Prod.mk.inj same
    cases at_ : g.rows[i]? with
    | none =>
      rw [at_] at mem
      cases mem
    | some row =>
      rw [at_] at mem
      exact ⟨l, ⟨row, rfl, mem⟩, rfl⟩
  · rintro ⟨l, ⟨row, at_, mem⟩, rfl⟩
    refine ⟨(l, j), ?_, rfl⟩
    rw [at_]
    exact mem

include built

/-- The path to a class in the tree of all classes. -/
theorem pathTo_firingSequence (atOnce : AtOnce net untimed) {i : Nat} {c : StateClass net}
    (at_ : g.classes[i]? = some c) :
    FiringSequence net initial (markingsOf g (pathTo g (bfsTree g) i).1) (pathTo g (bfsTree g) i).2
      c.marking :=
  (tree_right atOnce built (search_all_shortestTree (explored_of_build built)
    (List.getElem?_eq_some_iff.mp at_).1) at_).1

include atOnce safe

/-- An edge extends a firing sequence. -/
theorem extend_along {markings : List MarkingState} {transitions : List String} {i j : Nat}
    {c : StateClass net} {name : String} (from_ : g.classes[i]? = some c)
    (sequence : FiringSequence net initial markings transitions c.marking)
    (edge : (name, j) ∈ edgesOf g i) :
    ∃ d, g.classes[j]? = some d ∧
      FiringSequence net initial (markings ++ [d.marking]) (transitions ++ [name]) d.marking := by
  obtain ⟨l, ⟨row, at_, mem⟩, rfl⟩ := mem_edgesOf.mp edge
  obtain ⟨_, _, leads⟩ := (explored_of_build built).leads i row at_
  obtain ⟨_, _, _, d, there, _⟩ := Exploration.exists_of_mem_right leads mem
  exact ⟨d, there, .fire l.1 sequence (edge_fires atOnce safe built ⟨row, at_, mem⟩ from_ there)⟩

/-- The frames above a class extend a firing sequence to it. -/
theorem extend_frames {frames : List (DepthFirst.Frame String)} {first : DepthFirst.Frame String}
    {markings : List MarkingState} {transitions : List String} {c : StateClass net}
    (from_ : g.classes[first.node]? = some c)
    (sequence : FiringSequence net initial markings transitions c.marking)
    (entered : (first :: frames).IsChain fun lower upper => DepthFirst.Enters (edgesOf g) upper lower)
    {last : DepthFirst.Frame String} (top : (first :: frames).getLast? = some last) :
    ∃ d, g.classes[last.node]? = some d ∧
      FiringSequence net initial (markings ++ markingsOf g (frames.map DepthFirst.Frame.node))
        (transitions ++ frames.filterMap DepthFirst.Frame.via) d.marking := by
  induction frames generalizing first markings transitions c with
  | nil =>
    obtain rfl : first = last := by simpa using top
    exact ⟨c, from_, by simpa [markingsOf] using sequence⟩
  | cons next frames ih =>
    obtain ⟨⟨name, via, edge⟩, entered⟩ := List.isChain_cons_cons.mp entered
    obtain ⟨d, there, longer⟩ := extend_along atOnce safe built from_ sequence edge
    obtain ⟨e, at_, whole⟩ := ih there longer entered (by simpa using top)
    refine ⟨e, at_, ?_⟩
    have head : markingsOf g ((next :: frames).map DepthFirst.Frame.node) =
        d.marking :: markingsOf g (frames.map DepthFirst.Frame.node) := by
      simp [markingsOf, there]
    rw [head, List.filterMap_cons, via]
    simpa using whole

end Sequences

/-! ## Runs that never end -/

section Cycles

variable {net : PetriNet V N} {initial : MarkingState} {maxClasses : Nat} {untimed : Bool}
  {g : StateClassGraph net} (atOnce : AtOnce net untimed)
  (safe : ∀ p, Named net initial p → MarkingState.KeySafe p)
  (built : build net initial maxClasses ⟨[], .ignore⟩ ⟨untimed, false⟩ = .ok g)

include atOnce safe built

/-- A class of a whole graph below which every walk ends has no infinite run from its marking. -/
theorem no_run_of_acc (complete : g.complete = true) {i : Nat}
    (ends : Acc (DepthFirst.After (edgesOf g)) i) {c : StateClass net} (at_ : g.classes[i]? = some c) :
    ¬∃ run : ℕ → Counts, run 0 = c.marking.tokens ∧ ∀ n, Step net (run n) (run (n + 1)) := by
  induction ends generalizing c with
  | intro i _ ih =>
    rintro ⟨run, start, steps⟩
    have untimed := classes_untimed rfl atOnce built
    have mem := List.mem_iff_getElem?.mpr ⟨i, at_⟩
    have ignoring : (⟨[], .ignore⟩ : Environment).mode = .ignore := rfl
    obtain ⟨t, fires⟩ := steps 0
    rw [start] at fires
    obtain ⟨l, x, succ, -, same⟩ := successors_follow ignoring atOnce (untimed c mem).playable fires
    have expanded : i < g.expanded := by
      rw [build_complete built complete]
      exact (List.getElem?_eq_some_iff.mp at_).1
    obtain ⟨j, d, edge, there, key⟩ := (explored_of_build built).successor at_ expanded succ
    have reached := successors_untimed ignoring atOnce (untimed c mem) succ
    have target := untimed d (List.mem_iff_getElem?.mpr ⟨j, there⟩)
    have tokens := tokens_eq_of_classKey safe target.named reached.named key
    refine ih j ⟨_, mem_edgesOf.mpr ⟨l, edge, rfl⟩⟩ there ⟨fun n => run (n + 1), ?_, fun n => steps (n + 1)⟩
    rw [tokens, same]

/-- Where the search of a whole graph finds no cycle, every run ends. -/
theorem no_run_of_findCycle (complete : g.complete = true)
    (none_ : DepthFirst.findCycle (edgesOf g) g.classes.length 0 = none) :
    ¬∃ run : ℕ → Counts, run 0 = initial.tokens ∧ ∀ n, Step net (run n) (run (n + 1)) := by
  have explored := explored_of_build built
  have bound := (List.getElem?_eq_some_iff.mp explored.head).1
  have inside : ∀ i name j, (name, j) ∈ edgesOf g i → j < g.classes.length := by
    intro i name j mem
    obtain ⟨l, ⟨row, at_, mem⟩, -⟩ := mem_edgesOf.mp mem
    obtain ⟨_, _, leads⟩ := explored.leads i row at_
    obtain ⟨_, _, _, d, there, _⟩ := Exploration.exists_of_mem_right leads mem
    exact (List.getElem?_eq_some_iff.mp there).1
  exact no_run_of_acc atOnce safe built complete (DepthFirst.findCycle_none inside bound none_) explored.head

/-- A reported cycle: a firing sequence that comes back to the marking the cycle starts from. -/
theorem findCycle_lasso {closed : ClosedNet V N} {tracedPlaces : List PlaceName} {v : ContractViolation}
    (found : findCycle g closed tracedPlaces (bfsTree g) = some v) :
    v.kind = .termination ∧ ∃ m start, FiringSequence net initial v.markings v.transitions m ∧
      v.cycleStart = some start ∧ start < v.transitions.length ∧ v.markings[start]? = some m := by
  obtain ⟨cycle, searched, rfl⟩ := Option.map_eq_some_iff.mp found
  obtain ⟨⟨first, frames, loop, entry⟩, entered, last, top, back⟩ := DepthFirst.findCycle_real searched
  rw [loop] at entered top
  -- the edge back leads to the class the cycle starts from
  obtain ⟨c, at_⟩ : ∃ c, g.classes[cycle.entry]? = some c := by
    obtain ⟨l, ⟨row, at_, mem⟩, -⟩ := mem_edgesOf.mp back
    obtain ⟨_, _, leads⟩ := (explored_of_build built).leads _ row at_
    obtain ⟨_, _, _, d, there, _⟩ := Exploration.exists_of_mem_right leads mem
    exact ⟨d, there⟩
  have stem := pathTo_firingSequence built atOnce at_
  obtain ⟨d, there, around⟩ := extend_frames atOnce safe built (entry ▸ at_) stem entered top
  obtain ⟨e, again, whole⟩ := extend_along atOnce safe built there around back
  obtain rfl : c = e := Option.some.inj (at_.symm.trans again)
  obtain ⟨length, close⟩ := stem.last
  have inner : cycle.loop.drop 1 = frames := by rw [loop, List.drop_one, List.tail_cons]
  have closing : markingsOf g (frames.map DepthFirst.Frame.node ++ [cycle.entry]) =
      markingsOf g (frames.map DepthFirst.Frame.node) ++ [c.marking] := by
    simp [markingsOf, at_]
  refine ⟨rfl, c.marking, (pathTo g (bfsTree g) cycle.entry).2.length, ?_, rfl, ?_, ?_⟩
  · simp only [contractViolation, inner, closing, ← List.append_assoc]
    exact whole
  · simp [contractViolation]
  · simp only [contractViolation]
    rw [List.getElem?_append_left (by omega), close]

end Cycles

/-! ## The route -/

section Route

variable {closed : ClosedNet V N} {contract : OpenNetContract V N} {maxClasses : Nat}
  {tracedPlaces : List PlaceName} {reapable : List String} {outcome : GraphRouteOutcome}

theorem reported_cycle {g : StateClassGraph closed.net} {v : ContractViolation}
    (mem : v ∈ (if contract.requiresTermination then
      findCycle g closed tracedPlaces (bfsTree g) else none).toList) :
    contract.requiresTermination = true ∧ v.kind = .termination ∧
      findCycle g closed tracedPlaces (bfsTree g) = some v := by
  split at mem
  next required =>
    have found := Option.mem_toList.mp mem
    obtain ⟨cycle, -, rfl⟩ := Option.map_eq_some_iff.mp found
    exact ⟨required, rfl, found⟩
  next => cases mem

end Route

/-! ## A contract that is kept, and one that is not -/

theorem only_b_nodup : ["b"].Nodup := by decide

theorem only_one_nodup : ["one"].Nodup := by decide

/-- One token comes to rest on `b`, and the run ends. -/
def oneOnB : OpenNetContract Unit Unit where
  initialMarking := movingMarking
  arrivals := []
  clauses := [⟨"one", ["b"], 1, 1, only_b_nodup⟩]
  rest := []
  terminals := []
  environment := []
  requiresTermination := true
  clauses_nodup := only_one_nodup
  rest_nodup := List.nodup_nil
  markers_nodup := List.nodup_nil
  environment_nodup := List.nodup_nil

theorem moved_reachable : ReachableMarking movingNet movingMarking.tokens movedMarking.tokens :=
  have closed : closedEnvironment.mode = .ignore := rfl
  .single ⟨⟨0, by decide⟩, fires_produceOutputs closed (o := branchOutcome ["b"]) (by decide +kernel)
    (by decide +kernel)⟩

theorem moved_resting : Resting movingNet [] movedMarking.tokens := by
  have none : findEnabledTransitions movingNet closedEnvironment movedMarking = [] := by decide +kernel
  exact fun t enabled => absurd enabled ((dead_iff rfl).mpr none t)

/-- The outcome of the route, where it has the parts it is computed to have. -/
theorem decided_of_parts {closed : ClosedNet Unit Unit} {contract : OpenNetContract Unit Unit}
    {violations : List ContractViolation}
    (parts : (decideOnGraph closed contract 10 [] []).toOption.map
      (fun o => (o.complete, o.violations)) = some (true, violations)) :
    ∃ outcome, decideOnGraph closed contract 10 [] [] = .ok outcome ∧ outcome.complete = true ∧
      outcome.violations = violations := by
  cases decided : decideOnGraph closed contract 10 [] [] with
  | error e =>
    rw [decided] at parts
    cases parts
  | ok outcome =>
    rw [decided] at parts
    obtain ⟨complete, rfl⟩ := Prod.mk.inj (Option.some.inj parts)
    exact ⟨outcome, rfl, complete, rfl⟩

/-- A contract that lets no token rest. -/
def nothingRests : OpenNetContract Unit Unit where
  initialMarking := MarkingState.empty
  arrivals := []
  clauses := []
  rest := []
  terminals := []
  environment := []
  requiresTermination := false
  clauses_nodup := List.nodup_nil
  rest_nodup := List.nodup_nil
  markers_nodup := List.nodup_nil
  environment_nodup := List.nodup_nil

/-- `closingOnceNet`, closed. -/
def closedOnce : ClosedNet Unit Unit where
  net := { closingOnceNet with name := "net+environment" }
  initialMarking := MarkingState.empty
  environment := []
  environmentPlaces := []
  undeclared := []

end LibPetri.Verified

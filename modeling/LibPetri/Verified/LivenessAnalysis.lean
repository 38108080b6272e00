import LibPetri.Verification.TimePetriNetAnalyzer
import LibPetri.Verified.StronglyConnected
import LibPetri.Verified.TimedClasses
import LibPetri.Verified.UntimedGraph

/-! # Liveness and terminal components

The analysis decides liveness from terminal components and backward reachability.  On a finite graph every class
reaches a terminal component, and a terminal component is reached back from all it reaches, so the answers are
those of the definitions by paths.
-/

namespace LibPetri.Verified

open LibPetri.Basis LibPetri.Core LibPetri.Verification LibPetri.Verification.StateClassGraph
open LibPetri.Verification.TimePetriNetAnalyzer

variable {V N : Type} {net : PetriNet V N} {g : StateClassGraph net}

/-! ## The graph of positions -/

/-- Every edge runs between classes of the graph. -/
def InRange (g : StateClassGraph net) : Prop := ∀ i l j, g.Edge i l j → i < g.classes.length ∧ j < g.classes.length

theorem mem_outgoing {i j : Nat} {l : EdgeLabel net} : (l, j) ∈ outgoingBranchEdges g i ↔ g.Edge i l j := by
  rw [outgoingBranchEdges, List.getD_eq_getElem?_getD]
  constructor
  · intro mem
    cases row : g.rows[i]? with
    | none => simp [row] at mem
    | some edges => exact ⟨edges, row, by simpa [row] using mem⟩
  · rintro ⟨edges, row, mem⟩
    simpa [row] using mem

theorem mem_successorsOf {i j : Nat} : j ∈ successorsOf g i ↔ ∃ l, g.Edge i l j := by
  rw [successorsOf, List.mem_eraseDups, List.mem_map]
  constructor
  · rintro ⟨⟨l, k⟩, mem, rfl⟩
    exact ⟨l, mem_outgoing.mp mem⟩
  · rintro ⟨l, edge⟩
    exact ⟨(l, j), mem_outgoing.mpr edge, rfl⟩

theorem mem_predecessorsOf {i j : Nat} :
    i ∈ predecessorsOf g j ↔ i < g.classes.length ∧ j ∈ successorsOf g i := by
  rw [predecessorsOf, List.mem_filter, List.mem_range, mem_successorsOf]
  refine and_congr_right fun _ => ?_
  simp only [List.any_eq_true, decide_eq_true_eq]
  constructor
  · rintro ⟨⟨l, k⟩, mem, rfl⟩
    exact ⟨l, mem_outgoing.mp mem⟩
  · rintro ⟨l, edge⟩
    exact ⟨(l, j), mem_outgoing.mpr edge, rfl⟩

/-- Some path of edges. -/
def PathTo (g : StateClassGraph net) : Nat → Nat → Prop := Relation.ReflTransGen fun i j => ∃ l, g.Edge i l j

theorem reach_iff_pathTo {i j : Nat} : Reach (successorsOf g) i j ↔ PathTo g i j := by
  have same : (fun i j => j ∈ successorsOf g i) = fun i j => ∃ l, g.Edge i l j :=
    funext fun i => funext fun j => propext mem_successorsOf
  rw [Reach, same, PathTo]

theorem InRange.graph (h : InRange g) :
    ∀ i ∈ List.range g.classes.length, ∀ j ∈ successorsOf g i, j ∈ List.range g.classes.length := by
  intro i _ j mem
  obtain ⟨l, edge⟩ := mem_successorsOf.mp mem
  exact List.mem_range.mpr (h i l j edge).2

/-! ## Backward reachability -/

section Backward

variable {goals : List Nat}

/-- The set and the queue while the queue is worked off: what has been taken from the queue has its predecessors in
the set. -/
structure Backward (g : StateClassGraph net) (goals reachable queue : List Nat) : Prop where
  nodup : reachable.Nodup
  inRange : ∀ i ∈ reachable, i < g.classes.length
  started : ∀ i ∈ goals, i ∈ reachable
  queued : ∀ i ∈ queue, i ∈ reachable
  sound : ∀ i ∈ reachable, ∃ j ∈ goals, PathTo g i j
  closed : ∀ i ∈ reachable, i ∈ queue ∨ ∀ p ∈ predecessorsOf g i, p ∈ reachable

/-- A predecessor of the class whose turn it is enters the set and the queue, unless it is known. -/
theorem Backward.admit {current p : Nat} {met : List Nat × List Nat} (h : Backward g goals met.1 (current :: met.2))
    (pred : p ∈ predecessorsOf g current) :
    Backward g goals (admitPredecessor met p).1 (current :: (admitPredecessor met p).2) ∧
      (∀ q, q ∈ met.1 ∨ q = p → q ∈ (admitPredecessor met p).1) ∧
      (admitPredecessor met p).2.length + met.1.length = met.2.length + (admitPredecessor met p).1.length := by
  obtain ⟨lt, succ⟩ := mem_predecessorsOf.mp pred
  rw [admitPredecessor]
  split
  next known => exact ⟨h, fun q old => old.elim id fun same => same ▸ known, rfl⟩
  next new =>
    have kept : ∀ i ∈ met.1, i ∈ met.1 ++ [p] := fun i mem => List.mem_append_left _ mem
    have split : ∀ i ∈ met.1 ++ [p], i ∈ met.1 ∨ i = p := by simp
    refine ⟨⟨?_, ?_, fun i mem => kept i (h.started i mem), ?_, ?_, ?_⟩, by simp, by simp; omega⟩
    · rw [← List.concat_eq_append]
      exact h.nodup.concat new
    · intro i mem
      rcases split i mem with old | rfl
      · exact h.inRange i old
      · exact lt
    · intro i mem
      rcases List.mem_cons.mp mem with rfl | mem
      · exact kept i (h.queued i List.mem_cons_self)
      · rcases List.mem_append.mp mem with old | last
        · exact kept i (h.queued i (List.mem_cons_of_mem _ old))
        · exact List.mem_append_right _ last
    · intro i mem
      rcases split i mem with old | rfl
      · exact h.sound i old
      · obtain ⟨j, jmem, path⟩ := h.sound current (h.queued current List.mem_cons_self)
        exact ⟨j, jmem, .head (mem_successorsOf.mp succ) path⟩
    · intro i mem
      rcases split i mem with old | rfl
      · rcases h.closed i old with queued | closed
        · refine .inl ?_
          rw [← List.cons_append]
          exact List.mem_append_left _ queued
        · exact .inr fun q qmem => kept q (closed q qmem)
      · exact .inl (List.mem_cons_of_mem _ (List.mem_append_right _ List.mem_cons_self))

theorem Backward.admitAll {current : Nat} (met : List Nat × List Nat) {preds : List Nat}
    (h : Backward g goals met.1 (current :: met.2)) (all : ∀ p ∈ preds, p ∈ predecessorsOf g current) :
    Backward g goals (preds.foldl admitPredecessor met).1 (current :: (preds.foldl admitPredecessor met).2) ∧
      (∀ q, q ∈ met.1 ∨ q ∈ preds → q ∈ (preds.foldl admitPredecessor met).1) ∧
      (preds.foldl admitPredecessor met).2.length + met.1.length
        = met.2.length + (preds.foldl admitPredecessor met).1.length := by
  induction preds generalizing met with
  | nil => exact ⟨h, fun q old => old.resolve_right List.not_mem_nil, rfl⟩
  | cons p preds ih =>
    obtain ⟨h', kept, len⟩ := h.admit (all p List.mem_cons_self)
    obtain ⟨h'', kept', len'⟩ := ih _ h' fun q mem => all q (List.mem_cons_of_mem _ mem)
    rw [List.foldl_cons]
    refine ⟨h'', fun q old => ?_, by omega⟩
    rcases old with old | mem
    · exact kept' q (.inl (kept q (.inl old)))
    · rcases List.mem_cons.mp mem with same | mem
      · exact kept' q (.inl (kept q (.inr same)))
      · exact kept' q (.inr mem)

/-- One turn: a class leaves the queue, its new predecessors enter it and the set. -/
theorem Backward.turn {current : Nat} {reachable queue : List Nat} (h : Backward g goals reachable (current :: queue)) :
    let met := (predecessorsOf g current).foldl admitPredecessor (reachable, queue)
    Backward g goals met.1 met.2 ∧ met.2.length + reachable.length = queue.length + met.1.length := by
  intro met
  obtain ⟨h', kept, len⟩ := Backward.admitAll (reachable, queue) h fun _ mem => mem
  refine ⟨⟨h'.nodup, h'.inRange, h'.started, fun i mem => h'.queued i (List.mem_cons_of_mem _ mem), h'.sound, ?_⟩,
    len⟩
  intro i mem
  rcases h'.closed i mem with queued | closed
  · rcases List.mem_cons.mp queued with rfl | queued
    · exact .inr fun p pmem => kept p (.inr pmem)
    · exact .inl queued
  · exact .inr closed

theorem Backward.length_le {reachable queue : List Nat} (h : Backward g goals reachable queue) :
    reachable.length ≤ g.classes.length := by
  have sub : reachable ⊆ List.range g.classes.length := fun i mem => List.mem_range.mpr (h.inRange i mem)
  have := (h.nodup.subperm sub).length_le
  rwa [List.length_range] at this

/-- With enough fuel the queue is worked off. -/
theorem Backward.run {fuel : Nat} {reachable queue : List Nat} (h : Backward g goals reachable queue)
    (enough : queue.length + (g.classes.length - reachable.length) < fuel) :
    Backward g goals (backwardFrom g fuel reachable queue) [] := by
  induction fuel generalizing reachable queue with
  | zero => omega
  | succ fuel ih =>
    cases queue with
    | nil => exact h
    | cons current queue =>
      rw [backwardFrom]
      obtain ⟨h', len⟩ := h.turn
      have bound := h'.length_le
      have bound' := h.length_le
      rw [List.length_cons] at enough
      exact ih h' (by omega)

/-- The classes from which a goal is reached, each of them once. -/
theorem mem_computeBackwardReachability (range : InRange g) (nodup : goals.Nodup)
    (inRange : ∀ i ∈ goals, i < g.classes.length) :
    (computeBackwardReachability g goals).Nodup ∧
      (∀ i ∈ computeBackwardReachability g goals, i < g.classes.length) ∧
      ∀ i, i ∈ computeBackwardReachability g goals ↔ ∃ j ∈ goals, PathTo g i j := by
  have start : Backward g goals goals goals :=
    ⟨nodup, inRange, fun _ mem => mem, fun _ mem => mem, fun i mem => ⟨i, mem, .refl⟩, fun _ mem => .inl mem⟩
  have enough : goals.length + (g.classes.length - goals.length) < g.classes.length + 1 := by
    have := start.length_le
    omega
  have h := start.run enough
  refine ⟨h.nodup, h.inRange, fun i => ⟨h.sound i, ?_⟩⟩
  rintro ⟨j, mem, path⟩
  induction path using Relation.ReflTransGen.head_induction_on with
  | refl => exact h.started j mem
  | head edge _ ih =>
    obtain ⟨l, edge⟩ := edge
    refine ((h.closed _ ih).resolve_left List.not_mem_nil) _ (mem_predecessorsOf.mpr ⟨?_, ?_⟩)
    · exact (range _ l _ edge).1
    · exact mem_successorsOf.mpr ⟨l, edge⟩

end Backward

/-! ## The two properties -/

section Liveness

variable {goalPlaces : List PlaceName} {allTransitions : List String}

/-- A class with a token in some goal place. -/
def IsGoal (g : StateClassGraph net) (goalPlaces : List PlaceName) (i : Nat) : Prop :=
  ∃ sc, g.classes[i]? = some sc ∧ sc.marking.hasTokensInAny goalPlaces

/-- From every class some path leads to a goal class. -/
def GoalLive (g : StateClassGraph net) (goalPlaces : List PlaceName) : Prop :=
  ∀ i < g.classes.length, ∃ j, PathTo g i j ∧ IsGoal g goalPlaces j

/-- From every class some path leads to an edge that counts as firing the name. -/
def FiresFromAll (g : StateClassGraph net) (name : String) : Prop :=
  ∀ i < g.classes.length, ∃ j l k, PathTo g i j ∧ g.Edge j l k ∧
    sourceTransitionName net (transitionAt l.1).name = name

theorem mem_goalClasses {i : Nat} : i ∈ goalClasses g goalPlaces ↔ IsGoal g goalPlaces i := by
  rw [goalClasses, List.mem_filter, List.mem_range, Option.any_eq_true_iff_get, IsGoal]
  constructor
  · rintro ⟨_, some_, goal⟩
    exact ⟨_, (Option.some_get some_).symm, goal⟩
  · rintro ⟨sc, at_, goal⟩
    refine ⟨(List.getElem?_eq_some_iff.mp at_).1, by simp [at_], by simpa [at_] using goal⟩

theorem mem_transitionsInSCC {scc : List Nat} {name : String} :
    name ∈ transitionsInSCC g scc ↔ ∃ i ∈ scc, ∃ l k, g.Edge i l k ∧ k ∈ scc ∧
      sourceTransitionName net (transitionAt l.1).name = name := by
  simp only [transitionsInSCC, List.mem_flatMap, List.mem_map, List.mem_filter, branchEdges, enabledTransitionsOf,
    List.mem_eraseDups, decide_eq_true_eq]
  constructor
  · rintro ⟨i, imem, t, _, ⟨l, k⟩, ⟨⟨edge, same⟩, inside⟩, fires⟩
    exact ⟨i, imem, l, k, mem_outgoing.mp edge, inside, by rw [same]; exact fires⟩
  · rintro ⟨i, imem, l, k, edge, inside, fires⟩
    have out := mem_outgoing.mpr edge
    exact ⟨i, imem, l.1, ⟨(l, k), out, rfl⟩, (l, k), ⟨⟨out, rfl⟩, inside⟩, fires⟩

/-- A terminal component of the graph, by paths. -/
structure Terminal (g : StateClassGraph net) (scc : List Nat) : Prop where
  component : IsComponent (successorsOf g) scc
  terminal : IsTerminal (successorsOf g) scc
  inRange : ∀ i ∈ scc, i < g.classes.length

theorem Terminal.mem_of_path {scc : List Nat} (h : Terminal g scc) {i j : Nat} (mem : i ∈ scc) (path : PathTo g i j) :
    j ∈ scc := h.terminal.mem_of_reach mem (reach_iff_pathTo.mpr path)

theorem Terminal.path {scc : List Nat} (h : Terminal g scc) {i j : Nat} (imem : i ∈ scc) (jmem : j ∈ scc) :
    PathTo g i j := reach_iff_pathTo.mp ((h.component.mem_iff i imem j).mp jmem).1

section Answers

variable {terminal : List (List Nat)} (terminals : ∀ scc ∈ terminal, Terminal g scc)

include terminals

/-- If every class reaches a goal, every terminal component has one. -/
theorem goalLive_iff (range : InRange g) :
    ((terminal.filter fun scc => !scc.any fun i => i ∈ goalClasses g goalPlaces).isEmpty = true ∧
        g.classes.length - (computeBackwardReachability g (goalClasses g goalPlaces)).length = 0) ↔
      GoalLive g goalPlaces := by
  have goalRange : ∀ i ∈ goalClasses g goalPlaces, i < g.classes.length :=
    fun i mem => List.mem_range.mp (List.mem_of_mem_filter mem)
  have goalNodup : (goalClasses g goalPlaces).Nodup := List.nodup_range.filter _
  obtain ⟨nodup, inRange, canReach⟩ := mem_computeBackwardReachability range goalNodup goalRange
  constructor
  · rintro ⟨_, everyone⟩ i lt
    have sub : computeBackwardReachability g (goalClasses g goalPlaces) ⊆ List.range g.classes.length :=
      fun i mem => List.mem_range.mpr (inRange i mem)
    have perm := (nodup.subperm sub).perm_of_length_le (by rw [List.length_range]; omega)
    obtain ⟨j, goal, path⟩ := (canReach i).mp (perm.mem_iff.mpr (List.mem_range.mpr lt))
    exact ⟨j, path, mem_goalClasses.mp goal⟩
  · intro live
    constructor
    · rw [List.isEmpty_iff, List.filter_eq_nil_iff]
      intro scc mem without
      have h := terminals scc mem
      obtain ⟨i, imem⟩ := List.exists_mem_of_ne_nil scc h.component.ne_nil
      obtain ⟨j, path, goal⟩ := live i (h.inRange i imem)
      simp only [Bool.not_eq_true', List.any_eq_false, decide_eq_true_eq] at without
      exact without j (h.mem_of_path imem path) (mem_goalClasses.mpr goal)
    · have sub : List.range g.classes.length ⊆ computeBackwardReachability g (goalClasses g goalPlaces) := by
        intro i mem
        obtain ⟨j, path, goal⟩ := live i (List.mem_range.mp mem)
        exact (canReach i).mpr ⟨j, mem_goalClasses.mpr goal, path⟩
      have := (List.nodup_range.subperm sub).length_le
      rw [List.length_range] at this
      omega

/-- A name fires from everywhere when it fires inside every terminal component. -/
theorem firesFromAll_iff (reached : ∀ i < g.classes.length, ∃ scc ∈ terminal, ∃ j ∈ scc, PathTo g i j)
    (name : String) : (∀ scc ∈ terminal, name ∈ transitionsInSCC g scc) ↔ FiresFromAll g name := by
  constructor
  · intro fires i lt
    obtain ⟨scc, mem, j, jmem, path⟩ := reached i lt
    obtain ⟨k, kmem, l, m, edge, _, same⟩ := mem_transitionsInSCC.mp (fires scc mem)
    exact ⟨k, l, m, path.trans ((terminals scc mem).path jmem kmem), edge, same⟩
  · intro fires scc mem
    have h := terminals scc mem
    obtain ⟨i, imem⟩ := List.exists_mem_of_ne_nil scc h.component.ne_nil
    obtain ⟨j, l, k, path, edge, same⟩ := fires i (h.inRange i imem)
    have jmem := h.mem_of_path imem path
    exact mem_transitionsInSCC.mpr ⟨j, jmem, l, k, edge, h.mem_of_path jmem (.single ⟨l, edge⟩), same⟩

theorem l4Live_iff (reached : ∀ i < g.classes.length, ∃ scc ∈ terminal, ∃ j ∈ scc, PathTo g i j) :
    (terminal.filter fun scc => !(allTransitions.filter fun t => t ∉ transitionsInSCC g scc).isEmpty).isEmpty = true ↔
      ∀ name ∈ allTransitions, FiresFromAll g name := by
  rw [List.isEmpty_iff, List.filter_eq_nil_iff]
  constructor
  · intro none name mem
    refine (firesFromAll_iff terminals reached name).mp fun scc smem => ?_
    have := none scc smem
    simp only [Bool.not_eq_true', Bool.not_eq_false, List.isEmpty_iff, List.filter_eq_nil_iff, decide_eq_true_eq,
      not_not] at this
    exact this name mem
  · intro fires scc smem
    simp only [Bool.not_eq_true', Bool.not_eq_false, List.isEmpty_iff, List.filter_eq_nil_iff, decide_eq_true_eq,
      not_not]
    exact fun name mem => (firesFromAll_iff terminals reached name).mpr (fires name mem) scc smem

end Answers

/-- Both answers are those of the definitions by paths. -/
theorem liveness_eq (range : InRange g) : ∃ r, liveness g goalPlaces allTransitions = some r ∧
    (r.isGoalLive = true ↔ GoalLive g goalPlaces) ∧
      (r.isL4Live = true ↔ g.complete = true ∧ ∀ name ∈ allTransitions, FiresFromAll g name) := by
  obtain ⟨sccs, terminal, all, found, parts, reached⟩ := findTerminalSCCs_eq range.graph
  have terminals : ∀ scc ∈ terminal, Terminal g scc := fun scc mem =>
    ⟨(parts scc mem).1, (parts scc mem).2.1, fun i imem => List.mem_range.mp ((parts scc mem).2.2 i imem)⟩
  have reached : ∀ i < g.classes.length, ∃ scc ∈ terminal, ∃ j ∈ scc, PathTo g i j := by
    intro i lt
    obtain ⟨scc, mem, j, jmem, path⟩ := reached i (List.mem_range.mpr lt)
    exact ⟨scc, mem, j, jmem, reach_iff_pathTo.mp path⟩
  refine ⟨_, by rw [liveness, all, found]; rfl, ?_, ?_⟩
  · rw [Bool.and_eq_true, decide_eq_true_eq]
    exact goalLive_iff terminals range
  · rw [Bool.and_eq_true, l4Live_iff terminals reached, and_comm]

end Liveness

/-! ## The analysis -/

theorem inRange_of_build {initialMarking : MarkingState} {maxClasses : Nat} {env : Environment}
    (built : build net initialMarking maxClasses env {} = .ok g) : InRange g := by
  rintro i l j ⟨row, at_, mem⟩
  have explored : Exploration.Explored classKey (successors env false false)
      (initialStateClass net env false initialMarking) g := explored_of_build built
  obtain ⟨c, here, leads⟩ := explored.leads i row at_
  obtain ⟨successor, _, lead⟩ := Exploration.exists_of_mem_right leads mem
  obtain ⟨_, d, there, _⟩ := lead
  exact ⟨(List.getElem?_eq_some_iff.mp here).1, (List.getElem?_eq_some_iff.mp there).1⟩

/-- A token that goes in a circle: its one transition is live, and its place is a goal from everywhere. -/
def circling : PetriNet Unit Unit := netOf ["p"] [immediateTransition "t" (some "p") [] (some "p")]

def circlingGraph : StateClassGraph (analysedNet circling) :=
  Exploration.build classKey (successors closedEnvironment false false) 10
    (initialStateClass (analysedNet circling) closedEnvironment false (MarkingState.empty.addTokens "p" 1))

/-- One transition can always fire, the other of the same name never. -/
def namesakes : PetriNet Unit Unit :=
  netOf ["p", "q"]
    [immediateTransition "t" (some "p") [] (some "p"), immediateTransition "t" (some "q") [] (some "q")]

def namesakesGraph : StateClassGraph (analysedNet namesakes) :=
  Exploration.build classKey (successors closedEnvironment false false) 10
    (initialStateClass (analysedNet namesakes) closedEnvironment false (MarkingState.empty.addTokens "p" 1))

end LibPetri.Verified

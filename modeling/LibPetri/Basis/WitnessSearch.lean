import Mathlib

/-! # Breadth-first search for a witness

Breadth-first search of a labelled graph for a bad node.  A memory refuses the successors that need no
search any more; what it admits becomes a node, with the label it was reached by and the position of the
node it was reached from.  The search gives up where a node is due past its budget.
-/

namespace LibPetri.Basis.WitnessSearch

structure SearchNode (D L : Type) where
  data : D
  /-- The label of the step and the position of the predecessor, `none` at the root. -/
  via : Option (L × Nat)

/-- How a search ended, with the nodes it admitted: the last one is bad, the budget was spent, or every
node was expanded. -/
inductive Outcome (D L M : Type)
  | found (nodes : List (SearchNode D L))
  | exhausted (nodes : List (SearchNode D L))
  | finished (nodes : List (SearchNode D L)) (memo : M)

section Search

variable {D L M : Type} (expand : D → List (L × D)) (enter : M → D → Option M) (isBad : D → Bool)
  (nodeBudget : Nat)

/-- Admits the successors of the node at `parent`, one after the other. -/
def admitAll (parent : Nat) : List (L × D) → List (SearchNode D L) → M →
    Except (Outcome D L M) (List (SearchNode D L) × M)
  | [], nodes, memo => .ok (nodes, memo)
  | (l, d) :: rest, nodes, memo =>
    match enter memo d with
    | none => admitAll parent rest nodes memo
    | some memo' =>
      if nodeBudget ≤ nodes.length then .error (.exhausted nodes)
      else if isBad d then .error (.found (nodes ++ [⟨d, some (l, parent)⟩]))
      else admitAll parent rest (nodes ++ [⟨d, some (l, parent)⟩]) memo'

/-- Every turn expands the node at `head`. -/
def search : Nat → Nat → List (SearchNode D L) → M → Outcome D L M
  | 0, _, nodes, memo => .finished nodes memo
  | turns + 1, head, nodes, memo =>
    match nodes[head]? with
    | none => .finished nodes memo
    | some node =>
      match admitAll enter isBad nodeBudget head (expand node.data) nodes memo with
      | .error outcome => outcome
      | .ok (nodes, memo) => search turns (head + 1) nodes memo

/-- The search from `d₀`.  Only nodes within the budget are expanded, so these turns are enough. -/
def run (d₀ : D) (memo : M) : Outcome D L M :=
  if isBad d₀ then .found [⟨d₀, none⟩]
  else search expand enter isBad nodeBudget (max nodeBudget 1) 0 [⟨d₀, none⟩] memo

end Search

section Reconstruct

variable {D L : Type} (nodes : List (SearchNode D L))

/-- Walks the predecessors of a node back to the root: the data and the labels on the way, the root
first. -/
def walkBack : Nat → Nat → List D × List L
  | 0, _ => ([], [])
  | turns + 1, i =>
    match nodes[i]? with
    | none => ([], [])
    | some ⟨d, none⟩ => ([d], [])
    | some ⟨d, some (l, parent)⟩ =>
      let before := walkBack turns parent
      (before.1 ++ [d], before.2 ++ [l])

/-- The path to the last node. -/
def reconstruct : List D × List L := walkBack nodes nodes.length (nodes.length - 1)

end Reconstruct

/-! ## Traces -/

section Traces

variable {D L : Type} (move : D → L → D → Prop)

/-- A run of `move` from `d₀`, with the states and the labels on the way. -/
inductive Trace (d₀ : D) : List D → List L → D → Prop
  | start : Trace d₀ [d₀] [] d₀
  | move {states : List D} {labels : List L} {d d' : D} (l : L) :
    Trace d₀ states labels d → move d l d' → Trace d₀ (states ++ [d']) (labels ++ [l]) d'

variable {move} {D' L' : Type} {move' : D' → L' → D' → Prop} {d₀ d : D} {states : List D}
  {labels : List L}

/-- What a map of states carries a trace to. -/
theorem Trace.map (f : D → D') (g : L → L')
    (carries : ∀ d l d', move d l d' → move' (f d) (g l) (f d')) (h : Trace move d₀ states labels d) :
    Trace move' (f d₀) (states.map f) (labels.map g) (f d) := by
  induction h with
  | start => exact .start
  | move l _ step ih =>
    rw [List.map_append, List.map_append]
    exact .move (g l) ih (carries _ _ _ step)

end Traces

/-! ## The invariant -/

section Correct

variable {D L M : Type} {expand : D → List (L × D)} {enter : M → D → Option M} {isBad : D → Bool}
  {nodeBudget : Nat}

/-- What is asked of a memory that has been shown the list of data: what it refuses is the `Same` as
something on the list. -/
structure Recalls (enter : M → D → Option M) (Same : D → D → Prop) (Shown : M → List D → Prop) :
    Prop where
  admits : ∀ memo memo' ds d, Shown memo ds → enter memo d = some memo' → Shown memo' (ds ++ [d])
  refuses : ∀ memo ds d, Shown memo ds → enter memo d = none → ∃ d' ∈ ds, Same d' d
  refl : ∀ d, Same d d

/-- Every node but the root was reached from an earlier one. -/
structure Grown (expand : D → List (L × D)) (d₀ : D) (nodes : List (SearchNode D L)) : Prop where
  root : nodes[0]? = some ⟨d₀, none⟩
  reached : ∀ i node, nodes[i]? = some node → 0 < i → ∃ l p before, node.via = some (l, p) ∧ p < i ∧
    nodes[p]? = some before ∧ (l, node.data) ∈ expand before.data

theorem Grown.single (d₀ : D) : Grown expand d₀ [(⟨d₀, none⟩ : SearchNode D L)] := by
  refine ⟨rfl, fun i node at_ pos => ?_⟩
  have := (List.getElem?_eq_some_iff.mp at_).1
  simp only [List.length_singleton] at this
  omega

theorem Grown.append {d₀ d : D} {nodes : List (SearchNode D L)} {l : L} {p : Nat}
    {before : SearchNode D L} (h : Grown expand d₀ nodes) (at_ : nodes[p]? = some before)
    (mem : (l, d) ∈ expand before.data) : Grown expand d₀ (nodes ++ [⟨d, some (l, p)⟩]) := by
  have kept {i : Nat} {node : SearchNode D L} (here : nodes[i]? = some node) :
      (nodes ++ [⟨d, some (l, p)⟩])[i]? = some node := by
    rw [List.getElem?_append_left (List.getElem?_eq_some_iff.mp here).1]
    exact here
  have bound := (List.getElem?_eq_some_iff.mp at_).1
  refine ⟨kept h.root, fun i node here pos => ?_⟩
  rcases Nat.lt_or_ge i nodes.length with old | new
  · rw [List.getElem?_append_left old] at here
    obtain ⟨k, q, parent, via, lt, there, edge⟩ := h.reached i node here pos
    exact ⟨k, q, parent, via, lt, kept there, edge⟩
  · have last := (List.getElem?_eq_some_iff.mp here).1
    rw [List.length_append, List.length_singleton] at last
    obtain rfl : i = nodes.length := by omega
    obtain rfl : (⟨d, some (l, p)⟩ : SearchNode D L) = node := by simpa using here
    exact ⟨l, p, before, rfl, bound, kept at_, mem⟩

/-- The predecessors of a node make a trace to it. -/
theorem Grown.walkBack {d₀ : D} {nodes : List (SearchNode D L)} (h : Grown expand d₀ nodes)
    (turns : Nat) {i : Nat} {node : SearchNode D L} (at_ : nodes[i]? = some node) (enough : i < turns) :
    Trace (fun d l d' => (l, d') ∈ expand d) d₀ (walkBack nodes turns i).1 (walkBack nodes turns i).2
      node.data := by
  induction turns generalizing i node with
  | zero => omega
  | succ turns ih =>
    unfold WitnessSearch.walkBack
    rw [at_]
    obtain ⟨d, via⟩ := node
    rcases Nat.eq_zero_or_pos i with rfl | pos
    · obtain ⟨rfl, rfl⟩ : d₀ = d ∧ none = via := by simpa using h.root.symm.trans at_
      exact .start
    · obtain ⟨l, p, before, rfl, lt, there, edge⟩ := h.reached i _ at_ pos
      exact .move l (ih there (by omega)) edge

theorem Grown.reconstruct {d₀ d : D} {via : Option (L × Nat)} {nodes : List (SearchNode D L)}
    (h : Grown expand d₀ (nodes ++ [⟨d, via⟩])) :
    Trace (fun d l d' => (l, d') ∈ expand d) d₀ (reconstruct (nodes ++ [⟨d, via⟩])).1
      (reconstruct (nodes ++ [⟨d, via⟩])).2 d := by
  have last : (nodes ++ [⟨d, via⟩])[nodes.length]? = some (⟨d, via⟩ : SearchNode D L) := by simp
  have here : (nodes ++ [(⟨d, via⟩ : SearchNode D L)]).length - 1 = nodes.length := by simp
  unfold WitnessSearch.reconstruct
  rw [here]
  exact h.walkBack _ last (by simp)

/-- The nodes of a search that has expanded those before `head`. -/
structure Searching (expand : D → List (L × D)) (isBad : D → Bool) (Same : D → D → Prop)
    (Shown : M → List D → Prop) (nodeBudget : Nat) (d₀ : D) (head : Nat)
    (nodes : List (SearchNode D L)) (memo : M) : Prop where
  grown : Grown expand d₀ nodes
  shown : Shown memo (nodes.map SearchNode.data)
  good : ∀ node ∈ nodes, isBad node.data = false
  expanded : ∀ i < head, ∀ node, nodes[i]? = some node → ∀ l d, (l, d) ∈ expand node.data →
    ∃ node' ∈ nodes, Same node'.data d
  within : nodes.length ≤ max nodeBudget 1

variable {Same : D → D → Prop} {Shown : M → List D → Prop} {d₀ : D}

/-- What admitting the successors `row` of a node does. -/
structure Admits (expand : D → List (L × D)) (isBad : D → Bool) (Same : D → D → Prop)
    (Shown : M → List D → Prop) (nodeBudget : Nat) (d₀ : D) (row : List (L × D))
    (nodes nodes' : List (SearchNode D L)) (memo' : M) : Prop where
  grows : ∃ more, nodes' = nodes ++ more
  grown : Grown expand d₀ nodes'
  shown : Shown memo' (nodes'.map SearchNode.data)
  good : ∀ node ∈ nodes', isBad node.data = false
  covers : ∀ l d, (l, d) ∈ row → ∃ node ∈ nodes', Same node.data d
  within : nodes'.length ≤ max nodeBudget 1

/-- What stopped the search is a bad node reached from earlier ones, or the budget. -/
def Stops (expand : D → List (L × D)) (isBad : D → Bool) (d₀ : D) : Outcome D L M → Prop
  | .found nodes => ∃ before d via, nodes = before ++ [⟨d, via⟩] ∧ Grown expand d₀ nodes ∧
    isBad d = true
  | .exhausted _ => True
  | .finished _ _ => False

variable (nodeBudget) in
theorem admitAll_spec (recalls : Recalls enter Same Shown) {head : Nat} {node : SearchNode D L}
    (row : List (L × D)) (nodes : List (SearchNode D L)) (memo : M) (at_ : nodes[head]? = some node)
    (edges : ∀ l d, (l, d) ∈ row → (l, d) ∈ expand node.data) (grown : Grown expand d₀ nodes)
    (shown : Shown memo (nodes.map SearchNode.data)) (good : ∀ node ∈ nodes, isBad node.data = false)
    (within : nodes.length ≤ max nodeBudget 1) :
    match admitAll enter isBad nodeBudget head row nodes memo with
    | .error outcome => Stops expand isBad d₀ outcome
    | .ok (nodes', memo') => Admits expand isBad Same Shown nodeBudget d₀ row nodes nodes' memo' := by
  induction row generalizing nodes memo with
  | nil => exact ⟨⟨[], (List.append_nil _).symm⟩, grown, shown, good, by simp, within⟩
  | cons successor rest ih =>
    obtain ⟨l, d⟩ := successor
    have edge := edges l d List.mem_cons_self
    have edges := fun k x mem => edges k x (List.mem_cons_of_mem _ mem)
    unfold admitAll
    cases admitted : enter memo d with
    | none =>
      dsimp only
      have step := ih nodes memo at_ edges grown shown good within
      cases result : admitAll enter isBad nodeBudget head rest nodes memo with
      | error outcome => rwa [result] at step
      | ok after =>
        rw [result] at step
        obtain ⟨nodes', memo'⟩ := after
        refine ⟨step.grows, step.grown, step.shown, step.good, fun k x mem => ?_, step.within⟩
        rcases List.mem_cons.mp mem with same | later
        · obtain ⟨rfl, rfl⟩ := Prod.mk.inj same
          obtain ⟨d', known, same⟩ := recalls.refuses _ _ _ shown admitted
          obtain ⟨node', mem', rfl⟩ := List.mem_map.mp known
          obtain ⟨more, rfl⟩ := step.grows
          exact ⟨node', List.mem_append_left _ mem', same⟩
        · exact step.covers k x later
    | some memo' =>
      dsimp only
      by_cases spent : nodeBudget ≤ nodes.length
      · rw [if_pos spent]
        trivial
      · rw [if_neg spent]
        have grown' := grown.append at_ edge
        cases bad : isBad d with
        | true =>
          rw [if_pos rfl]
          exact ⟨nodes, d, _, rfl, grown', bad⟩
        | false =>
          rw [if_neg Bool.false_ne_true]
          set grownNodes : List (SearchNode D L) := nodes ++ [⟨d, some (l, head)⟩] with added
          have at' : grownNodes[head]? = some node := by
            rw [List.getElem?_append_left (List.getElem?_eq_some_iff.mp at_).1]
            exact at_
          have shown' : Shown memo' (grownNodes.map SearchNode.data) := by
            rw [List.map_append]
            exact recalls.admits _ _ _ _ shown admitted
          have good' : ∀ node ∈ grownNodes, isBad node.data = false := by
            intro node mem
            rcases List.mem_append.mp mem with old | new
            · exact good node old
            · obtain rfl := List.mem_singleton.mp new
              exact bad
          have within' : grownNodes.length ≤ max nodeBudget 1 := by
            rw [added, List.length_append, List.length_singleton]
            omega
          have step := ih grownNodes memo' at' edges grown' shown' good' within'
          cases result : admitAll enter isBad nodeBudget head rest grownNodes memo' with
          | error outcome => rwa [result] at step
          | ok after =>
            rw [result] at step
            obtain ⟨nodes', memo''⟩ := after
            obtain ⟨more, grows⟩ := step.grows
            rw [added, List.append_assoc] at grows
            refine ⟨⟨_, grows⟩, step.grown, step.shown, step.good, fun k x mem => ?_, step.within⟩
            rcases List.mem_cons.mp mem with same | later
            · obtain ⟨rfl, rfl⟩ := Prod.mk.inj same
              exact ⟨_, grows ▸ List.mem_append_right _ List.mem_cons_self, recalls.refl _⟩
            · exact step.covers k x later

variable (expand isBad nodeBudget) in
theorem search_spec (recalls : Recalls enter Same Shown) (turns : Nat) {head : Nat}
    {nodes : List (SearchNode D L)} {memo : M}
    (h : Searching expand isBad Same Shown nodeBudget d₀ head nodes memo)
    (enough : max nodeBudget 1 ≤ head + turns) :
    match search expand enter isBad nodeBudget turns head nodes memo with
    | .finished nodes' memo' =>
      Searching expand isBad Same Shown nodeBudget d₀ nodes'.length nodes' memo'
    | outcome => Stops expand isBad d₀ outcome := by
  have all_expanded (past : nodes.length ≤ head) :
      Searching expand isBad Same Shown nodeBudget d₀ nodes.length nodes memo :=
    ⟨h.grown, h.shown, h.good, fun i lt => h.expanded i (lt.trans_le past), h.within⟩
  induction turns generalizing head nodes memo with
  | zero =>
    exact all_expanded (h.within.trans enough)
  | succ turns ih =>
    unfold search
    cases at_ : nodes[head]? with
    | none => exact all_expanded (List.getElem?_eq_none_iff.mp at_)
    | some node =>
      dsimp only
      have step := admitAll_spec nodeBudget recalls (expand node.data) nodes memo at_
        (fun _ _ mem => mem) h.grown h.shown h.good h.within
      cases result : admitAll enter isBad nodeBudget head (expand node.data) nodes memo with
      | error outcome =>
        rw [result] at step
        cases outcome with
        | found => exact step
        | exhausted => trivial
        | finished => cases step
      | ok after =>
        rw [result] at step
        obtain ⟨nodes', memo'⟩ := after
        obtain ⟨more, grows⟩ := step.grows
        have bound := (List.getElem?_eq_some_iff.mp at_).1
        have next : Searching expand isBad Same Shown nodeBudget d₀ (head + 1) nodes' memo' := by
          refine ⟨step.grown, step.shown, step.good, fun i lt other here l d edge => ?_, step.within⟩
          have old : i < nodes.length := by omega
          rw [grows, List.getElem?_append_left old] at here
          rcases Nat.lt_succ_iff_lt_or_eq.mp lt with before | rfl
          · obtain ⟨node', mem, same⟩ := h.expanded i before other here l d edge
            exact ⟨node', grows ▸ List.mem_append_left _ mem, same⟩
          · obtain rfl : node = other := Option.some.inj (at_.symm.trans here)
            exact step.covers l d edge
        exact ih next (by omega) fun past =>
          ⟨next.grown, next.shown, next.good, fun i lt => next.expanded i (lt.trans_le past), next.within⟩

variable (expand isBad nodeBudget) in
theorem searching_start (good : isBad d₀ = false) {memo : M} (shown : Shown memo [d₀]) :
    Searching expand isBad Same Shown nodeBudget d₀ 0 [⟨d₀, none⟩] memo := by
  refine ⟨.single d₀, shown, fun node mem => ?_, fun i lt => absurd lt (Nat.not_lt_zero i),
    le_max_right _ _⟩
  obtain rfl := List.mem_singleton.mp mem
  exact good

variable (expand isBad nodeBudget) in
theorem run_cases (recalls : Recalls enter Same Shown) {memo : M} (shown : Shown memo [d₀]) :
    match run expand enter isBad nodeBudget d₀ memo with
    | .found nodes => ∃ before d via, nodes = before ++ [⟨d, via⟩] ∧ Grown expand d₀ nodes ∧
      isBad d = true
    | .exhausted _ => True
    | .finished nodes memo' =>
      Searching expand isBad Same Shown nodeBudget d₀ nodes.length nodes memo' := by
  unfold run
  cases bad : isBad d₀ with
  | true =>
    rw [if_pos rfl]
    exact ⟨[], d₀, none, rfl, .single d₀, bad⟩
  | false =>
    rw [if_neg Bool.false_ne_true]
    have spec := search_spec expand isBad nodeBudget recalls (max nodeBudget 1)
      (searching_start expand isBad nodeBudget bad shown) (by omega)
    cases result : search expand enter isBad nodeBudget (max nodeBudget 1) 0 [⟨d₀, none⟩] memo with
    | found => rwa [result] at spec
    | exhausted => trivial
    | finished => rwa [result] at spec

/-- What a search found is reached from the root by the path that is read back, and is bad. -/
theorem run_found (recalls : Recalls enter Same Shown) {memo : M} (shown : Shown memo [d₀])
    {nodes : List (SearchNode D L)}
    (found : run expand enter isBad nodeBudget d₀ memo = .found nodes) :
    ∃ d, Trace (fun d l d' => (l, d') ∈ expand d) d₀ (reconstruct nodes).1 (reconstruct nodes).2 d ∧
      isBad d = true := by
  have spec := run_cases expand isBad nodeBudget recalls shown
  rw [found] at spec
  obtain ⟨before, d, via, rfl, grown, bad⟩ := spec
  exact ⟨d, grown.reconstruct, bad⟩

/-- A search that ended by itself holds the root and, up to what its memory takes for the same, every
successor of a node.  None of its nodes is bad. -/
theorem run_finished (recalls : Recalls enter Same Shown) {memo : M} (shown : Shown memo [d₀])
    {nodes : List (SearchNode D L)} {memo' : M}
    (finished : run expand enter isBad nodeBudget d₀ memo = .finished nodes memo') :
    (∃ node ∈ nodes, node.data = d₀) ∧ (∀ node ∈ nodes, isBad node.data = false) ∧
      ∀ node ∈ nodes, ∀ l d, (l, d) ∈ expand node.data → ∃ node' ∈ nodes, Same node'.data d := by
  have spec := run_cases expand isBad nodeBudget recalls shown
  rw [finished] at spec
  have h : Searching expand isBad Same Shown nodeBudget d₀ nodes.length nodes memo' := spec
  refine ⟨⟨_, List.mem_iff_getElem?.mpr ⟨0, h.grown.root⟩, rfl⟩, h.good, fun node mem l d edge => ?_⟩
  obtain ⟨i, at_⟩ := List.mem_iff_getElem?.mp mem
  exact h.expanded i (List.getElem?_eq_some_iff.mp at_).1 node at_ l d edge

end Correct

end LibPetri.Basis.WitnessSearch

import LibPetri.Verification.SccAnalyzer

/-! # The components of the search

What the search knows at any point: the stack is sorted by number, a node on it reaches every later one and is
reached from some node whose successors are still being examined, and what has left the stack is closed under
edges and split into strongly connected components.
-/

namespace LibPetri.Verified

open Verification

variable {T : Type} [DecidableEq T] {successors : T → List T} {nodes : List T}

section Relations

variable (successors)

/-- Some path, possibly of no edge. -/
def Reach : T → T → Prop := Relation.ReflTransGen fun v w => w ∈ successors v

/-- A list of all nodes that reach each other and one of its own, with at least one node. -/
structure IsComponent (scc : List T) : Prop where
  ne_nil : scc ≠ []
  mem_iff : ∀ v ∈ scc, ∀ w, w ∈ scc ↔ Reach successors v w ∧ Reach successors w v

end Relations

/-! ## What is known of the search -/

namespace SccSearches

variable {s t s' : SccSearch T} {v w x y : T} {grays : List T}

def Visited (s : SccSearch T) (v : T) : Prop := (s.indexMap v).isSome

/-- The number of a visited node. -/
def number (s : SccSearch T) (v : T) : Nat := (s.indexMap v).getD 0

/-- Visited, and in a component that is closed. -/
def Done (s : SccSearch T) (v : T) : Prop := Visited s v ∧ v ∉ s.stack

instance (s : SccSearch T) : DecidablePred (Visited s) :=
  fun v => inferInstanceAs (Decidable ((s.indexMap v).isSome = true))

variable (successors nodes) in
/-- The invariant of the search, with the nodes whose successors are being examined. -/
structure Intact (s : SccSearch T) (grays : List T) : Prop where
  listed : ∀ v, Visited s v → v ∈ nodes
  numbered : ∀ v, Visited s v → number s v < s.index
  onStack_iff : ∀ v, s.onStack v = true ↔ v ∈ s.stack
  stacked : ∀ v ∈ s.stack, Visited s v
  sorted : s.stack.Pairwise fun v w => number s w < number s v
  gray : ∀ v ∈ grays, v ∈ s.stack
  examined : ∀ v, Visited s v → v ∉ grays → ∀ w ∈ successors v, Visited s w
  closed : ∀ v, Done s v → ∀ w ∈ successors v, Done s w
  upward : ∀ v ∈ s.stack, ∀ w ∈ s.stack, number s v ≤ number s w → Reach successors v w
  downward : ∀ w ∈ s.stack, ∃ v ∈ grays, number s v ≤ number s w ∧ Reach successors w v
  nodup : s.sccs.flatten.Nodup
  mem_sccs : ∀ v, v ∈ s.sccs.flatten ↔ Done s v
  components : ∀ scc ∈ s.sccs, IsComponent successors scc

omit [DecidableEq T] in
/-- What is done is closed under reaching. -/
theorem Intact.done_of_reach (inv : Intact successors nodes s grays) (done : Done s v)
    (reach : Reach successors v w) : Done s w := by
  induction reach with
  | refl => exact done
  | tail _ edge ih => exact inv.closed _ ih _ edge

omit [DecidableEq T] in
theorem intact_start : Intact successors nodes SccSearch.start [] where
  listed _ visited := by cases visited
  numbered _ visited := by cases visited
  onStack_iff v := ⟨nofun, nofun⟩
  stacked := nofun
  sorted := List.Pairwise.nil
  gray := nofun
  examined _ visited := by cases visited
  closed _ done := by cases done.1
  upward := nofun
  downward := nofun
  nodup := List.nodup_nil
  mem_sccs v := ⟨nofun, fun done => by cases done.1⟩
  components := nofun

/-! ## Visiting a node -/

section Visit

theorem visited_visit : Visited (s.visit v) w ↔ w = v ∨ Visited s w := by
  by_cases same : w = v <;> simp [Visited, SccSearch.visit, same]

theorem onStack_visit : (s.visit v).onStack w = true ↔ w = v ∨ s.onStack w = true := by
  by_cases same : w = v <;> simp [SccSearch.visit, same]

theorem number_visit_self : number (s.visit v) v = s.index := by
  simp [number, SccSearch.visit]

theorem number_visit_of_ne (ne : w ≠ v) : number (s.visit v) w = number s w := by
  simp [number, SccSearch.visit, ne]

omit [DecidableEq T] in
theorem ne_of_visited (new : ¬ Visited s v) (visited : Visited s w) : w ≠ v :=
  fun same => new (same ▸ visited)

/-- A node that all examined ones reach may be visited. -/
theorem Intact.visit (inv : Intact successors nodes s grays) (new : ¬ Visited s v) (mem : v ∈ nodes)
    (reached : ∀ g ∈ grays, Reach successors g v) : Intact successors nodes (s.visit v) (v :: grays) := by
  have stack : (s.visit v).stack = v :: s.stack := rfl
  have number_stack : ∀ w ∈ s.stack, number (s.visit v) w = number s w :=
    fun w mem => number_visit_of_ne (ne_of_visited new (inv.stacked w mem))
  have below : ∀ w ∈ s.stack, number (s.visit v) w < s.index := by
    intro w mem
    rw [number_stack w mem]
    exact inv.numbered w (inv.stacked w mem)
  have done_iff : ∀ w, Done (s.visit v) w ↔ Done s w := by
    intro w
    rw [Done, Done, visited_visit, stack, List.mem_cons, not_or]
    constructor
    · rintro ⟨same | visited, ne, off⟩
      · exact absurd same ne
      · exact ⟨visited, off⟩
    · rintro ⟨visited, off⟩
      exact ⟨.inr visited, ne_of_visited new visited, off⟩
  refine ⟨?_, ?_, ?_, ?_, ?_, ?_, ?_, ?_, ?_, ?_, inv.nodup, ?_, inv.components⟩
  · intro w visited
    rcases visited_visit.mp visited with rfl | visited
    · exact mem
    · exact inv.listed w visited
  · intro w visited
    rcases visited_visit.mp visited with rfl | visited
    · rw [number_visit_self]
      exact Nat.lt_succ_self _
    · rw [number_visit_of_ne (ne_of_visited new visited)]
      exact Nat.lt_succ_of_lt (inv.numbered w visited)
  · intro w
    rw [stack, List.mem_cons, onStack_visit, inv.onStack_iff]
  · intro w mem
    rcases List.mem_cons.mp mem with rfl | mem
    · exact visited_visit.mpr (.inl rfl)
    · exact visited_visit.mpr (.inr (inv.stacked w mem))
  · rw [stack, List.pairwise_cons]
    constructor
    · intro w mem
      rw [number_visit_self]
      exact below w mem
    · refine inv.sorted.imp_of_mem fun memx memy less => ?_
      rwa [number_stack _ memx, number_stack _ memy]
  · intro w mem
    rcases List.mem_cons.mp mem with rfl | mem
    · exact List.mem_cons_self
    · exact List.mem_cons_of_mem _ (inv.gray w mem)
  · intro w visited black x edge
    rw [List.mem_cons, not_or] at black
    have visited := (visited_visit.mp visited).resolve_left black.1
    exact visited_visit.mpr (.inr (inv.examined w visited black.2 x edge))
  · intro w done x edge
    exact (done_iff x).mpr (inv.closed w ((done_iff w).mp done) x edge)
  · intro w wmem x xmem le
    rcases List.mem_cons.mp wmem with wnew | wold
    · rcases List.mem_cons.mp xmem with xnew | xold
      · rw [wnew, xnew]
        exact .refl
      · rw [wnew, number_visit_self] at le
        exact absurd le (Nat.not_le_of_lt (below x xold))
    · rcases List.mem_cons.mp xmem with xnew | xold
      · -- every node on the stack reaches an examined one, and these reach the new node
        obtain ⟨g, gmem, _, reach⟩ := inv.downward w wold
        rw [xnew]
        exact reach.trans (reached g gmem)
      · rw [number_stack w wold, number_stack x xold] at le
        exact inv.upward w wold x xold le
  · intro w mem
    rcases List.mem_cons.mp mem with rfl | mem
    · exact ⟨w, List.mem_cons_self, le_rfl, .refl⟩
    · obtain ⟨g, gmem, le, reach⟩ := inv.downward w mem
      refine ⟨g, List.mem_cons_of_mem _ gmem, ?_, reach⟩
      rwa [number_stack w mem, number_stack g (inv.gray g gmem)]
  · intro w
    rw [done_iff]
    exact inv.mem_sccs w

end Visit

/-! ## Lowering a link -/

section Lower

theorem Intact.lower (inv : Intact successors nodes s grays) (v : T) (low : Nat) :
    Intact successors nodes (s.lower v low) grays := { inv with }

end Lower

/-! ## What a search of one node leaves -/

variable (successors) in
/-- What a search from `v` has changed: it has numbered new nodes, later than all before, and left on the stack
those that can step back below `v`. -/
structure Connected (s s' : SccSearch T) (v : T) : Prop where
  indexMap : ∀ w, Visited s w → s'.indexMap w = s.indexMap w
  lowlink : ∀ w, Visited s w → s'.lowlink w = s.lowlink w
  visited : Visited s' v
  later : ∀ w, Visited s' w → ¬ Visited s w → s.index ≤ number s' w
  stack : ∃ new, s'.stack = new ++ s.stack ∧
    (∀ w ∈ new, ∀ x ∈ s.stack, x ∈ successors w → s'.lowlink v ≤ number s x) ∧
    ((∃ x ∈ s.stack, number s x = s'.lowlink v ∧ Reach successors v x) ∨ new = [] ∧ s.index ≤ s'.lowlink v)

variable (successors nodes) in
/-- While the successors of `v` are examined: `t` is what the search has come to, with those in `seen` looked at. -/
structure Examining (s : SccSearch T) (v : T) (grays : List T) (seen : List T) (t : SccSearch T) : Prop where
  searching : Intact successors nodes t (v :: grays)
  unvisited : ¬ Visited s v
  indexMap : ∀ w, Visited s w → t.indexMap w = s.indexMap w
  lowlink : ∀ w, Visited s w → t.lowlink w = s.lowlink w
  self : t.indexMap v = some s.index
  later : ∀ w, Visited t w → ¬ Visited s w → s.index ≤ number t w
  stack : ∃ new, t.stack = new ++ v :: s.stack ∧
    ∀ w ∈ new, ∀ x ∈ s.stack, x ∈ successors w → t.lowlink v ≤ number s x
  low : ∃ x ∈ t.stack, number t x = t.lowlink v ∧ Reach successors v x
  low_le : t.lowlink v ≤ s.index
  seen : ∀ w ∈ seen, Visited t w ∧ (w ∈ s.stack → t.lowlink v ≤ number s w)

section Examine

variable {seen : List T}

theorem examining_visit (inv : Intact successors nodes s grays) (new : ¬ Visited s v) (mem : v ∈ nodes)
    (reached : ∀ g ∈ grays, Reach successors g v) : Examining successors nodes s v grays [] (s.visit v) where
  searching := inv.visit new mem reached
  unvisited := new
  indexMap w visited := by simp [SccSearch.visit, ne_of_visited new visited]
  lowlink w visited := by simp [SccSearch.visit, ne_of_visited new visited]
  self := by simp [SccSearch.visit]
  later w visited new' := by
    rw [(visited_visit.mp visited).resolve_right new', number_visit_self]
  stack := ⟨[], rfl, fun _ mem => absurd mem List.not_mem_nil⟩
  low := ⟨v, List.mem_cons_self, by rw [number_visit_self]; simp [SccSearch.visit], .refl⟩
  low_le := by simp [SccSearch.visit]
  seen _ mem := absurd mem List.not_mem_nil

omit [DecidableEq T] in
theorem number_eq (same : t.indexMap w = s.indexMap w) : number t w = number s w := by rw [number, same, number]

omit [DecidableEq T] in
theorem visited_of_eq (visited : Visited s w) (same : t.indexMap w = s.indexMap w) : Visited t w := by
  rwa [Visited, same]

/-- A new successor has been searched. -/
theorem Examining.connected (h : Examining successors nodes s v grays seen t)
    (inv : Intact successors nodes s' (v :: grays)) (new : ¬ Visited t w) (conn : Connected successors t s' w)
    (inv₀ : Intact successors nodes s grays) (edge : w ∈ successors v) :
    Examining successors nodes s v grays (seen ++ [w]) (s'.lower v (s'.lowlink w)) := by
  obtain ⟨added, stack, addedEdges⟩ := h.stack
  obtain ⟨more, stack', moreEdges, back⟩ := conn.stack
  have selfVisited : Visited t v := by rw [Visited, h.self]; rfl
  have kept : ∀ w, Visited s w → Visited t w := fun w visited => visited_of_eq visited (h.indexMap w visited)
  have lowered : (s'.lower v (s'.lowlink w)).lowlink v = min (t.lowlink v) (s'.lowlink w) := by
    simp [SccSearch.lower, conn.lowlink v selfVisited]
  have old : ∀ x ∈ s.stack, x ∈ t.stack := by
    intro x mem
    rw [stack]
    exact List.mem_append_right _ (List.mem_cons_of_mem _ mem)
  have number_old : ∀ x ∈ s.stack, number t x = number s x :=
    fun x mem => number_eq (h.indexMap x (inv₀.stacked x mem))
  refine ⟨inv.lower v _, h.unvisited, ?_, ?_, ?_, ?_, ?_, ?_, ?_, ?_⟩
  · intro x visited
    exact (conn.indexMap x (kept x visited)).trans (h.indexMap x visited)
  · intro x visited
    have : (s'.lower v (s'.lowlink w)).lowlink x = s'.lowlink x := by
      simp [SccSearch.lower, ne_of_visited h.unvisited visited]
    rw [this]
    exact (conn.lowlink x (kept x visited)).trans (h.lowlink x visited)
  · exact (conn.indexMap v selfVisited).trans h.self
  · intro x visited new'
    by_cases before : Visited t x
    · have same : number (s'.lower v (s'.lowlink w)) x = number t x := number_eq (conn.indexMap x before)
      rw [same]
      exact h.later x before new'
    · have index : s.index ≤ t.index := by
        have := h.searching.numbered v selfVisited
        rw [number, h.self] at this
        exact Nat.le_of_lt this
      exact index.trans (conn.later x visited before)
  · refine ⟨more ++ added, ?_, ?_⟩
    · have : (s'.lower v (s'.lowlink w)).stack = s'.stack := rfl
      rw [this, stack', stack, List.append_assoc]
    · intro x mem y ymem edge
      rw [lowered]
      rcases List.mem_append.mp mem with mem | mem
      · rw [← number_old y ymem]
        exact (min_le_right _ _).trans (moreEdges x mem y (old y ymem) edge)
      · exact (min_le_left _ _).trans (addedEdges x mem y ymem edge)
  · obtain ⟨x, xmem, same, reach⟩ := h.low
    have inStack : ∀ y ∈ t.stack, y ∈ s'.stack := by
      intro y mem
      rw [stack']
      exact List.mem_append_right _ mem
    have keptNumber : ∀ y ∈ t.stack, number (s'.lower v (s'.lowlink w)) y = number t y :=
      fun y mem => number_eq (conn.indexMap y (h.searching.stacked y mem))
    rw [lowered]
    rcases le_total (t.lowlink v) (s'.lowlink w) with le | le
    · refine ⟨x, inStack x xmem, ?_, reach⟩
      rw [keptNumber x xmem, min_eq_left le, same]
    · rcases back with ⟨y, ymem, same', reach'⟩ | ⟨_, high⟩
      · refine ⟨y, inStack y ymem, ?_, .head edge reach'⟩
        rw [keptNumber y ymem, min_eq_right le, same']
      · -- a component of its own: its number is above that of `v`
        refine ⟨x, inStack x xmem, ?_, reach⟩
        have := h.searching.numbered x (h.searching.stacked x xmem)
        rw [keptNumber x xmem, min_eq_left (by omega), same]
  · rw [lowered]
    exact (min_le_left _ _).trans h.low_le
  · intro x mem
    rw [lowered]
    rcases List.mem_append.mp mem with mem | mem
    · obtain ⟨visited, low⟩ := h.seen x mem
      exact ⟨visited_of_eq visited (conn.indexMap x visited), fun xmem => (min_le_left _ _).trans (low xmem)⟩
    · rw [List.mem_singleton] at mem
      subst mem
      exact ⟨conn.visited, fun xmem => absurd (kept x (inv₀.stacked x xmem)) new⟩

/-- A successor on the stack has been stepped back to. -/
theorem Examining.stepBack (h : Examining successors nodes s v grays seen t)
    (inv₀ : Intact successors nodes s grays) (on : w ∈ t.stack) (edge : w ∈ successors v) :
    Examining successors nodes s v grays (seen ++ [w]) (t.lower v (number t w)) := by
  obtain ⟨added, stack, addedEdges⟩ := h.stack
  have lowered : (t.lower v (number t w)).lowlink v = min (t.lowlink v) (number t w) := by
    simp [SccSearch.lower]
  refine ⟨h.searching.lower v _, h.unvisited, h.indexMap, ?_, h.self, h.later, ?_, ?_, ?_, ?_⟩
  · intro x visited
    have : (t.lower v (number t w)).lowlink x = t.lowlink x := by
      simp [SccSearch.lower, ne_of_visited h.unvisited visited]
    rw [this]
    exact h.lowlink x visited
  · refine ⟨added, stack, fun x mem y ymem edge => ?_⟩
    rw [lowered]
    exact (min_le_left _ _).trans (addedEdges x mem y ymem edge)
  · obtain ⟨x, xmem, same, reach⟩ := h.low
    rw [lowered]
    rcases le_total (t.lowlink v) (number t w) with le | le
    · refine ⟨x, xmem, ?_, reach⟩
      rw [min_eq_left le]
      exact same
    · refine ⟨w, on, ?_, .single edge⟩
      rw [min_eq_right le]
      rfl
  · rw [lowered]
    exact (min_le_left _ _).trans h.low_le
  · intro x mem
    rw [lowered]
    rcases List.mem_append.mp mem with mem | mem
    · obtain ⟨visited, low⟩ := h.seen x mem
      exact ⟨visited, fun xmem => (min_le_left _ _).trans (low xmem)⟩
    · rw [List.mem_singleton] at mem
      subst mem
      refine ⟨h.searching.stacked x on, fun xmem => ?_⟩
      rw [number_eq (h.indexMap x (inv₀.stacked x xmem))]
      exact min_le_right _ _

omit [DecidableEq T] in
/-- A successor in a closed component changes nothing. -/
theorem Examining.skip (h : Examining successors nodes s v grays seen t) (done : Done t w) :
    Examining successors nodes s v grays (seen ++ [w]) t := by
  obtain ⟨added, stack, _⟩ := h.stack
  refine { h with seen := fun x mem => ?_ }
  rcases List.mem_append.mp mem with mem | mem
  · exact h.seen x mem
  · rw [List.mem_singleton] at mem
    subst mem
    refine ⟨done.1, fun xmem => absurd ?_ done.2⟩
    rw [stack]
    exact List.mem_append_right _ (List.mem_cons_of_mem _ xmem)

end Examine

/-! ## Closing a component -/

section Close

theorem popTo_append {new : List T} (absent : v ∉ new) (rest : List T) :
    popTo v (new ++ v :: rest) = (new ++ [v], rest) := by
  induction new with
  | nil => simp [popTo]
  | cons w new ih =>
    rw [List.mem_cons, not_or] at absent
    rw [List.cons_append, popTo, if_neg (Ne.symm absent.1), ih absent.2]
    rfl

variable {new : List T}

omit [DecidableEq T] in
/-- What lies above `v` on the stack has a later number, what lies below it an earlier one. -/
theorem Examining.number_new (h : Examining successors nodes s v grays (successors v) t)
    (stack : t.stack = new ++ v :: s.stack) : ∀ w ∈ new, s.index < number t w := by
  have sorted := h.searching.sorted
  rw [stack] at sorted
  have self : number t v = s.index := by rw [number, h.self]; rfl
  intro w mem
  have := (List.pairwise_append.mp sorted).2.2 w mem v List.mem_cons_self
  rwa [self] at this

omit [DecidableEq T] in
theorem Examining.number_old (h : Examining successors nodes s v grays (successors v) t)
    (inv₀ : Intact successors nodes s grays) : ∀ w ∈ s.stack, number t w = number s w ∧ number s w < s.index :=
  fun w mem => ⟨number_eq (h.indexMap w (inv₀.stacked w mem)), inv₀.numbered w (inv₀.stacked w mem)⟩

/-- An edge from the part above stays in it, goes to a closed component, or goes below, no further than `v` can
step back. -/
theorem Examining.edge_cases (h : Examining successors nodes s v grays (successors v) t)
    (inv₀ : Intact successors nodes s grays) (stack : t.stack = new ++ v :: s.stack)
    (low : ∀ w ∈ new, ∀ x ∈ s.stack, x ∈ successors w → t.lowlink v ≤ number s x)
    (mem : w ∈ new ++ [v]) (edge : x ∈ successors w) :
    x ∈ new ++ [v] ∨ Done t x ∨ x ∈ s.stack ∧ t.lowlink v ≤ number s x := by
  have visited : Visited t x := by
    rcases List.mem_append.mp mem with mem | mem
    · refine h.searching.examined w (h.searching.stacked w (by rw [stack]; exact List.mem_append_left _ mem)) ?_ x edge
      have later := h.number_new stack w mem
      rw [List.mem_cons, not_or]
      constructor
      · rintro rfl
        rw [number, h.self] at later
        exact Nat.lt_irrefl _ later
      · intro gray
        have old := h.number_old inv₀ w (inv₀.gray w gray)
        omega
    · rw [List.mem_singleton] at mem
      subst mem
      exact (h.seen x edge).1
  by_cases on : x ∈ t.stack
  · rw [stack] at on
    rcases List.mem_append.mp on with on | on
    · exact .inl (List.mem_append_left _ on)
    · rcases List.mem_cons.mp on with rfl | on
      · exact .inl (List.mem_append_right _ List.mem_cons_self)
      · refine .inr (.inr ⟨on, ?_⟩)
        rcases List.mem_append.mp mem with mem | last
        · exact low w mem x on edge
        · rw [List.mem_singleton] at last
          rw [last] at edge
          exact (h.seen x edge).2 on
  · exact .inr (.inl ⟨visited, on⟩)

/-- A node that cannot step back below itself has its component above it on the stack. -/
theorem Examining.isComponent (h : Examining successors nodes s v grays (successors v) t)
    (inv₀ : Intact successors nodes s grays) (stack : t.stack = new ++ v :: s.stack)
    (low : ∀ w ∈ new, ∀ x ∈ s.stack, x ∈ successors w → t.lowlink v ≤ number s x)
    (root : t.lowlink v = s.index) : IsComponent successors (new ++ [v]) := by
  have onStack : ∀ w ∈ new ++ [v], w ∈ t.stack := by
    intro w mem
    rw [stack]
    rcases List.mem_append.mp mem with mem | mem
    · exact List.mem_append_left _ mem
    · rw [List.mem_singleton] at mem
      exact List.mem_append_right _ (List.mem_cons.mpr (.inl mem))
  have self : number t v = s.index := by rw [number, h.self]; rfl
  have later : ∀ w ∈ new ++ [v], s.index ≤ number t w := by
    intro w mem
    rcases List.mem_append.mp mem with mem | mem
    · exact (h.number_new stack w mem).le
    · rw [List.mem_singleton] at mem
      rw [mem, self]
  have stays : ∀ w ∈ new ++ [v], ∀ x, Reach successors w x → x ∈ new ++ [v] ∨ Done t x := by
    intro w mem x reach
    induction reach with
    | refl => exact .inl mem
    | tail _ edge ih =>
      rcases ih with inside | done
      · rcases h.edge_cases inv₀ stack low inside edge with inside | done | ⟨below, le⟩
        · exact .inl inside
        · exact .inr done
        · have := (h.number_old inv₀ _ below).2
          omega
      · exact .inr (h.searching.closed _ done _ edge)
  have mem_v : v ∈ new ++ [v] := List.mem_append_right _ List.mem_cons_self
  have fromV : ∀ w ∈ new ++ [v], Reach successors v w := fun w mem =>
    h.searching.upward v (onStack v mem_v) w (onStack w mem) (by rw [self]; exact later w mem)
  have toV : ∀ w ∈ new ++ [v], Reach successors w v := by
    intro w mem
    obtain ⟨g, gray, _, reach⟩ := h.searching.downward w (onStack w mem)
    rcases List.mem_cons.mp gray with rfl | gray
    · exact reach
    · have below := inv₀.gray g gray
      rcases stays w mem g reach with inside | done
      · have := later g inside
        have := h.number_old inv₀ g below
        omega
      · refine absurd ?_ done.2
        rw [stack]
        exact List.mem_append_right _ (List.mem_cons_of_mem _ below)
  refine ⟨List.append_ne_nil_of_right_ne_nil _ (List.cons_ne_nil _ _), fun w mem x => ⟨fun xmem => ?_, ?_⟩⟩
  · exact ⟨(toV w mem).trans (fromV x xmem), (toV x xmem).trans (fromV w mem)⟩
  · rintro ⟨there, back⟩
    rcases stays w mem x there with inside | done
    · exact inside
    · exact absurd (onStack w mem) (h.searching.done_of_reach done back).2

/-- With all successors of `v` examined, what is visited and not being examined has its own visited. -/
theorem Examining.examined (h : Examining successors nodes s v grays (successors v) t)
    (visited : Visited t w) (black : w ∉ grays) : ∀ x ∈ successors w, Visited t x := by
  intro x edge
  by_cases same : w = v
  · rw [same] at edge
    exact (h.seen x edge).1
  · refine h.searching.examined w visited ?_ x edge
    rw [List.mem_cons, not_or]
    exact ⟨same, black⟩

/-- The component of a root is closed. -/
theorem Examining.close_root (h : Examining successors nodes s v grays (successors v) t)
    (inv₀ : Intact successors nodes s grays) (root : t.lowlink v = s.index) :
    Intact successors nodes (t.close v) grays ∧ Connected successors s (t.close v) v := by
  obtain ⟨new, stack, low⟩ := h.stack
  have above := h.number_new stack
  have below := h.number_old inv₀
  have component := h.isComponent inv₀ stack low root
  have self : number t v = s.index := by rw [number, h.self]; rfl
  have selfVisited : Visited t v := by rw [Visited, h.self]; rfl
  have absent : v ∉ new := fun mem => by
    have := above v mem
    omega
  have closing : t.close v = { t with
      stack := s.stack
      onStack := fun w => if w ∈ new ++ [v] then false else t.onStack w
      sccs := t.sccs ++ [new ++ [v]] } := by
    have isRoot : some (t.lowlink v) = t.indexMap v := by rw [root, h.self]
    rw [SccSearch.close, if_pos isRoot, stack, popTo_append absent]
  have onStack_iff : ∀ w, w ∈ t.stack ↔ w ∈ new ++ [v] ∨ w ∈ s.stack := by
    intro w
    rw [stack]
    simp [or_assoc]
  have notBelow : ∀ w ∈ new ++ [v], w ∉ s.stack := by
    intro w mem down
    have := below w down
    rcases List.mem_append.mp mem with mem | mem
    · have := above w mem
      omega
    · rw [List.mem_singleton] at mem
      subst mem
      omega
  have done_iff : ∀ w, Done (t.close v) w ↔ Done t w ∨ w ∈ new ++ [v] := by
    intro w
    rw [closing]
    constructor
    · rintro ⟨visited, off⟩
      by_cases inside : w ∈ new ++ [v]
      · exact .inr inside
      · exact .inl ⟨visited, fun on => ((onStack_iff w).mp on).elim inside off⟩
    · rintro (⟨visited, off⟩ | inside)
      · exact ⟨visited, fun on => off ((onStack_iff w).mpr (.inr on))⟩
      · exact ⟨h.searching.stacked w ((onStack_iff w).mpr (.inl inside)), notBelow w inside⟩
  have sorted := h.searching.sorted
  rw [stack] at sorted
  constructor
  · refine ⟨?_, ?_, ?_, ?_, ?_, ?_, ?_, ?_, ?_, ?_, ?_, ?_, ?_⟩
    · rw [closing]
      exact h.searching.listed
    · rw [closing]
      exact h.searching.numbered
    · intro w
      rw [closing]
      by_cases inside : w ∈ new ++ [v]
      · simp only [if_pos inside]
        exact iff_of_false (by simp) (notBelow w inside)
      · simp only [if_neg inside]
        rw [h.searching.onStack_iff, onStack_iff]
        exact or_iff_right inside
    · rw [closing]
      exact fun w mem => h.searching.stacked w ((onStack_iff w).mpr (.inr mem))
    · rw [closing]
      exact (List.pairwise_cons.mp (List.pairwise_append.mp sorted).2.1).2
    · rw [closing]
      exact inv₀.gray
    · rw [closing]
      exact fun w visited black => h.examined visited black
    · intro w done x edge
      rw [done_iff] at done ⊢
      rcases done with done | inside
      · exact .inl (h.searching.closed w done x edge)
      · rcases h.edge_cases inv₀ stack low inside edge with inside | done | ⟨down, le⟩
        · exact .inr inside
        · exact .inl done
        · have := below x down
          omega
    · rw [closing]
      exact fun w wmem x xmem => h.searching.upward w ((onStack_iff w).mpr (.inr wmem)) x
        ((onStack_iff x).mpr (.inr xmem))
    · rw [closing]
      intro w mem
      obtain ⟨g, gray, le, reach⟩ := h.searching.downward w ((onStack_iff w).mpr (.inr mem))
      rcases List.mem_cons.mp gray with rfl | gray
      · have := below w mem
        omega
      · exact ⟨g, gray, le, reach⟩
    · rw [closing]
      have distinct : (new ++ [v]).Nodup := by
        have all : (new ++ v :: s.stack).Nodup := by
          refine sorted.imp ?_
          rintro x y less rfl
          exact Nat.lt_irrefl _ less
        have sub : List.Sublist (new ++ [v]) (new ++ v :: s.stack) :=
          (List.Sublist.cons_cons v (List.nil_sublist _)).append_left _
        exact sub.nodup all
      rw [List.flatten_append, List.flatten_singleton, List.nodup_append]
      refine ⟨h.searching.nodup, distinct, fun w done x inside same => ?_⟩
      subst same
      exact ((h.searching.mem_sccs w).mp done).2 ((onStack_iff w).mpr (.inl inside))
    · intro w
      rw [done_iff, closing, List.flatten_append, List.flatten_singleton, List.mem_append,
        h.searching.mem_sccs]
    · rw [closing]
      intro scc mem
      rcases List.mem_append.mp mem with mem | mem
      · exact h.searching.components scc mem
      · rw [List.mem_singleton] at mem
        rw [mem]
        exact component
  · rw [closing]
    exact ⟨h.indexMap, h.lowlink, selfVisited, h.later, [], rfl, nofun, .inr ⟨rfl, root.ge⟩⟩

/-- Another node stays on the stack, its successors examined. -/
theorem Examining.close_link (h : Examining successors nodes s v grays (successors v) t)
    (inv₀ : Intact successors nodes s grays) (link : t.lowlink v < s.index) :
    Intact successors nodes (t.close v) grays ∧ Connected successors s (t.close v) v := by
  obtain ⟨new, stack, low⟩ := h.stack
  have above := h.number_new stack
  have below := h.number_old inv₀
  have self : number t v = s.index := by rw [number, h.self]; rfl
  have selfVisited : Visited t v := by rw [Visited, h.self]; rfl
  have closing : t.close v = t := by
    have notRoot : ¬ some (t.lowlink v) = t.indexMap v := by
      rw [h.self, Option.some.injEq]
      exact Nat.ne_of_lt link
    rw [SccSearch.close, if_neg notRoot]
  -- the node that `v` steps back to is below it
  obtain ⟨x, xmem, same, reach⟩ := h.low
  have down : x ∈ s.stack := by
    rw [stack] at xmem
    rcases List.mem_append.mp xmem with mem | mem
    · have := above x mem
      omega
    · rcases List.mem_cons.mp mem with rfl | mem
      · omega
      · exact mem
  rw [closing]
  constructor
  · refine { h.searching with
      gray := fun w gray => ?_, examined := fun w => h.examined, downward := fun w mem => ?_ }
    · rw [stack]
      exact List.mem_append_right _ (List.mem_cons_of_mem _ (inv₀.gray w gray))
    · obtain ⟨g, gray, le', reach'⟩ := h.searching.downward w mem
      rcases List.mem_cons.mp gray with rfl | gray
      · obtain ⟨g', gray', le'', reach''⟩ := inv₀.downward x down
        refine ⟨g', gray', ?_, reach'.trans (reach.trans reach'')⟩
        have number_g := (below g' (inv₀.gray g' gray')).1
        have number_x := (below x down).1
        omega
      · exact ⟨g, gray, le', reach'⟩
  · refine ⟨h.indexMap, h.lowlink, selfVisited, h.later, new ++ [v], ?_, ?_, .inl ⟨x, down, ?_, reach⟩⟩
    · rw [stack, List.append_assoc, List.singleton_append]
    · intro w mem y ymem edge
      rcases List.mem_append.mp mem with mem | mem
      · exact low w mem y ymem edge
      · rw [List.mem_singleton] at mem
        subst mem
        exact (h.seen y edge).2 ymem
    · rw [← (below x down).1, same]

theorem Examining.close (h : Examining successors nodes s v grays (successors v) t)
    (inv₀ : Intact successors nodes s grays) :
    Intact successors nodes (t.close v) grays ∧ Connected successors s (t.close v) v := by
  rcases Nat.lt_or_eq_of_le h.low_le with link | root
  · exact h.close_link inv₀ link
  · exact h.close_root inv₀ root

end Close

/-! ## The recursion -/

/-- How many nodes have not been visited. -/
def unvisited (nodes : List T) (s : SccSearch T) : Nat := (nodes.toFinset.filter fun v => ¬ Visited s v).card

theorem unvisited_lt (mem : v ∈ nodes) (new : ¬ Visited s v) (visited : Visited t v)
    (kept : ∀ w, Visited s w → Visited t w) : unvisited nodes t < unvisited nodes s := by
  refine Finset.card_lt_card (Finset.ssubset_iff_of_subset ?_ |>.mpr ⟨v, ?_, ?_⟩)
  · intro w mem
    rw [Finset.mem_filter] at mem ⊢
    exact ⟨mem.1, fun visited => mem.2 (kept w visited)⟩
  · exact Finset.mem_filter.mpr ⟨List.mem_toFinset.mpr mem, new⟩
  · exact fun mem => (Finset.mem_filter.mp mem).2 visited

/-- A search with enough fuel ends, keeps the invariant and has searched its node. -/
theorem strongConnect_spec (graph : ∀ v ∈ nodes, ∀ w ∈ successors v, w ∈ nodes) {fuel : Nat}
    (inv : Intact successors nodes s grays) (new : ¬ Visited s v) (mem : v ∈ nodes)
    (reached : ∀ g ∈ grays, Reach successors g v) (enough : unvisited nodes s ≤ fuel) :
    ∃ s', strongConnect successors fuel v s = some s' ∧ Intact successors nodes s' grays ∧
      Connected successors s s' v := by
  induction fuel generalizing s v grays with
  | zero =>
    have := unvisited_lt mem new (visited_visit.mpr (.inl rfl)) fun w visited => visited_visit.mpr (.inr visited)
    omega
  | succ fuel ih =>
    have loop : ∀ rest seen t, (∀ w ∈ rest, w ∈ successors v) → Examining successors nodes s v grays seen t →
        ∃ t', rest.foldlM (examine (strongConnect successors fuel) v) t = some t' ∧
          Examining successors nodes s v grays (seen ++ rest) t' := by
      intro rest
      induction rest with
      | nil =>
        intro seen t _ h
        exact ⟨t, rfl, by rwa [List.append_nil]⟩
      | cons w rest next =>
        intro seen t edges h
        have edge := edges w List.mem_cons_self
        have one : ∃ t', examine (strongConnect successors fuel) v t w = some t' ∧
            Examining successors nodes s v grays (seen ++ [w]) t' := by
          rw [examine]
          cases found : t.indexMap w with
          | none =>
            have new' : ¬ Visited t w := by simp [Visited, found]
            have fewer : unvisited nodes t < unvisited nodes s := by
              refine unvisited_lt mem new ?_ fun x visited => visited_of_eq visited (h.indexMap x visited)
              rw [Visited, h.self]
              rfl
            have reached' : ∀ g ∈ v :: grays, Reach successors g w := by
              intro g gmem
              rcases List.mem_cons.mp gmem with rfl | gmem
              · exact .single edge
              · exact .tail (reached g gmem) edge
            obtain ⟨s', result, inv', conn⟩ :=
              ih h.searching new' (graph v mem w edge) reached' (by omega)
            refine ⟨_, ?_, h.connected inv' new' conn inv edge⟩
            simp only [result]
            rfl
          | some i =>
            have number : i = number t w := by rw [number, found]; rfl
            have visited : Visited t w := by rw [Visited, found]; rfl
            simp only
            by_cases on : t.onStack w = true
            · rw [if_pos on, number]
              exact ⟨_, rfl, h.stepBack inv ((h.searching.onStack_iff w).mp on) edge⟩
            · rw [if_neg on]
              exact ⟨_, rfl, h.skip ⟨visited, fun mem => on ((h.searching.onStack_iff w).mpr mem)⟩⟩
        obtain ⟨t', result, h'⟩ := one
        obtain ⟨t'', result', h''⟩ := next (seen ++ [w]) t' (fun x mem => edges x (List.mem_cons_of_mem _ mem)) h'
        refine ⟨t'', ?_, by rwa [List.append_assoc] at h''⟩
        rw [List.foldlM_cons, result]
        exact result'
    obtain ⟨t, result, h⟩ := loop (successors v) [] (s.visit v) (fun _ mem => mem)
      (examining_visit inv new mem reached)
    refine ⟨t.close v, ?_, Examining.close h inv⟩
    rw [strongConnect, result]
    rfl

end SccSearches

/-! ## All components -/

open SccSearches

/-- The components of a graph are found, each node in one of them. -/
theorem computeSCCs_eq (graph : ∀ v ∈ nodes, ∀ w ∈ successors v, w ∈ nodes) :
    ∃ sccs, computeSCCs successors nodes = some sccs ∧ sccs.flatten.Nodup ∧
      (∀ v, v ∈ sccs.flatten ↔ v ∈ nodes) ∧ ∀ scc ∈ sccs, IsComponent successors scc := by
  have enough : ∀ s : SccSearch T, unvisited nodes s ≤ nodes.length := fun s =>
    (Finset.card_filter_le _ _).trans (List.toFinset_card_le nodes)
  have loop : ∀ (rest : List T) (s : SccSearch T), (∀ v ∈ rest, v ∈ nodes) → Intact successors nodes s [] →
      ∃ s', rest.foldlM (fun s node =>
          if (s.indexMap node).isSome then some s else strongConnect successors nodes.length node s) s = some s' ∧
        Intact successors nodes s' [] ∧ (∀ v, Visited s v → Visited s' v) ∧ ∀ v ∈ rest, Visited s' v := by
    intro rest
    induction rest with
    | nil => exact fun s _ inv => ⟨s, rfl, inv, fun _ visited => visited, nofun⟩
    | cons v rest ih =>
      intro s mem inv
      have one : ∃ s', (if (s.indexMap v).isSome then some s else strongConnect successors nodes.length v s)
          = some s' ∧ Intact successors nodes s' [] ∧ (∀ w, Visited s w → Visited s' w) ∧ Visited s' v := by
        by_cases visited : Visited s v
        · exact ⟨s, if_pos visited, inv, fun _ visited => visited, visited⟩
        · obtain ⟨s', result, inv', conn⟩ :=
            strongConnect_spec graph inv visited (mem v List.mem_cons_self) nofun (enough s)
          exact ⟨s', (if_neg visited).trans result, inv',
            fun w visited => visited_of_eq visited (conn.indexMap w visited), conn.visited⟩
      obtain ⟨s', result, inv', kept, visited⟩ := one
      obtain ⟨s'', result', inv'', kept', all⟩ := ih s' (fun w mem' => mem w (List.mem_cons_of_mem _ mem')) inv'
      refine ⟨s'', ?_, inv'', fun w visited => kept' w (kept w visited), fun w mem' => ?_⟩
      · rw [List.foldlM_cons, result]
        exact result'
      · rcases List.mem_cons.mp mem' with rfl | mem'
        · exact kept' w visited
        · exact all w mem'
  obtain ⟨s, result, inv, _, all⟩ := loop nodes .start (fun _ mem => mem) intact_start
  refine ⟨s.sccs, ?_, inv.nodup, fun v => ?_, inv.components⟩
  · rw [computeSCCs, result]
    rfl
  · rw [inv.mem_sccs]
    constructor
    · intro done
      exact inv.listed v done.1
    · intro mem
      refine ⟨all v mem, fun on => ?_⟩
      -- nothing is being examined any more, so nothing is on the stack
      obtain ⟨g, gray, _⟩ := inv.downward v on
      exact absurd gray List.not_mem_nil

/-! ## Terminal components -/

/-- Every node of a graph reaches one that is reached back from all it reaches. -/
theorem exists_bottom (graph : ∀ v ∈ nodes, ∀ w ∈ successors v, w ∈ nodes) {v : T} (mem : v ∈ nodes) :
    ∃ w ∈ nodes, Reach successors v w ∧ ∀ x, Reach successors w x → Reach successors x w := by
  classical
  have inside : ∀ v ∈ nodes, ∀ w, Reach successors v w → w ∈ nodes := by
    intro v mem w reach
    induction reach with
    | refl => exact mem
    | tail _ edge ih => exact graph _ ih _ edge
  -- the induction is on how many nodes are reached
  induction h : (nodes.toFinset.filter fun x => Reach successors v x).card using Nat.strong_induction_on
    generalizing v with
  | _ n ih =>
    by_cases back : ∀ x, Reach successors v x → Reach successors x v
    · exact ⟨v, mem, .refl, back⟩
    · push Not at back
      obtain ⟨x, there, notBack⟩ := back
      have xmem := inside v mem x there
      have fewer : (nodes.toFinset.filter fun y => Reach successors x y).card < n := by
        rw [← h]
        refine Finset.card_lt_card (Finset.ssubset_iff_of_subset ?_ |>.mpr ⟨v, ?_, ?_⟩)
        · exact Finset.monotone_filter_right _ fun y _ reach => there.trans reach
        · exact Finset.mem_filter.mpr ⟨List.mem_toFinset.mpr mem, .refl⟩
        · exact fun vmem => notBack (Finset.mem_filter.mp vmem).2
      obtain ⟨w, wmem, reach, bottom⟩ := ih _ fewer xmem rfl
      exact ⟨w, wmem, there.trans reach, bottom⟩

/-- A component that no edge leaves. -/
def IsTerminal (successors : T → List T) (scc : List T) : Prop := ∀ v ∈ scc, ∀ w ∈ successors v, w ∈ scc

/-- What the two functions return, for the properties read off it. -/
theorem findTerminalSCCs_eq (graph : ∀ v ∈ nodes, ∀ w ∈ successors v, w ∈ nodes) :
    ∃ sccs terminal, computeSCCs successors nodes = some sccs ∧ findTerminalSCCs successors nodes = some terminal ∧
      (∀ scc ∈ terminal, IsComponent successors scc ∧ IsTerminal successors scc ∧ ∀ v ∈ scc, v ∈ nodes) ∧
      ∀ v ∈ nodes, ∃ scc ∈ terminal, ∃ w ∈ scc, Reach successors v w := by
  obtain ⟨sccs, result, _, mem_iff, components⟩ := computeSCCs_eq graph
  refine ⟨sccs, _, result, by rw [findTerminalSCCs, result]; rfl, fun scc mem => ?_, fun v mem => ?_⟩
  · rw [List.mem_filter] at mem
    refine ⟨components scc mem.1, by simpa [IsTerminal] using mem.2, fun v vmem => ?_⟩
    exact (mem_iff v).mp (List.mem_flatten_of_mem mem.1 vmem)
  · obtain ⟨w, wmem, reach, bottom⟩ := exists_bottom graph mem
    obtain ⟨scc, smem, inScc⟩ := List.mem_flatten.mp ((mem_iff w).mpr wmem)
    have component := components scc smem
    refine ⟨scc, List.mem_filter.mpr ⟨smem, ?_⟩, w, inScc, reach⟩
    simp only [List.all_eq_true, decide_eq_true_eq]
    intro x xmem y edge
    have there := ((component.mem_iff w inScc x).mp xmem).1.tail edge
    exact (component.mem_iff w inScc y).mpr ⟨there, bottom y there⟩

omit [DecidableEq T] in
/-- From a terminal component nothing outside is reached. -/
theorem IsTerminal.mem_of_reach {scc : List T} (h : IsTerminal successors scc) {v w : T} (mem : v ∈ scc)
    (reach : Reach successors v w) : w ∈ scc := by
  induction reach with
  | refl => exact mem
  | tail _ edge ih => exact h _ ih _ edge

/-- The search returns the nodes split into their strongly connected components, and the terminal ones among them
are those that no edge leaves. -/
theorem computeSCCs_partition (successors : T → List T) (nodes : List T)
    (graph : ∀ v ∈ nodes, ∀ w ∈ successors v, w ∈ nodes) :
    ∃ sccs terminal, computeSCCs successors nodes = some sccs ∧ findTerminalSCCs successors nodes = some terminal ∧
      (∀ v ∈ nodes, ∃! scc, scc ∈ sccs ∧ v ∈ scc) ∧ sccs.flatten.Nodup ∧
      (∀ scc, scc ∈ sccs → IsComponent successors scc ∧ ∀ v ∈ scc, v ∈ nodes) ∧
      ∀ scc, scc ∈ terminal ↔ scc ∈ sccs ∧ IsTerminal successors scc := by
  obtain ⟨sccs, result, nodup, mem_iff, components⟩ := computeSCCs_eq graph
  refine ⟨sccs, _, result, by rw [findTerminalSCCs, result]; rfl, ?_, nodup, ?_, ?_⟩
  · intro v mem
    obtain ⟨scc, smem, vmem⟩ := List.mem_flatten.mp ((mem_iff v).mpr mem)
    refine ⟨scc, ⟨smem, vmem⟩, fun other ⟨omem, vmem'⟩ => ?_⟩
    by_contra ne
    have symm : Std.Symm (List.Disjoint (α := T)) := ⟨fun _ _ disjoint => disjoint.symm⟩
    exact (List.nodup_flatten.mp nodup).2.forall omem smem ne vmem' vmem
  · exact fun scc smem => ⟨components scc smem, fun v vmem => (mem_iff v).mp (List.mem_flatten_of_mem smem vmem)⟩
  · intro scc
    simp [IsTerminal]

/-- Two nodes that reach each other, and one that they reach. -/
def lasso : Nat → List Nat
  | 0 => [1]
  | 1 => [0, 2]
  | _ => []

theorem computeSCCs_partition_lasso :
    computeSCCs lasso [0, 1, 2] = some [[2], [1, 0]] ∧ findTerminalSCCs lasso [0, 1, 2] = some [[2]] ∧
      IsComponent lasso [1, 0] := by
  have computed : computeSCCs lasso [0, 1, 2] = some [[2], [1, 0]] := by decide
  have terminal : findTerminalSCCs lasso [0, 1, 2] = some [[2]] := by decide
  obtain ⟨sccs, _, result, _, _, _, components, _⟩ := computeSCCs_partition lasso [0, 1, 2] (by decide)
  rw [computed, Option.some.injEq] at result
  subst result
  exact ⟨computed, terminal, (components [1, 0] (by decide)).1⟩

end LibPetri.Verified

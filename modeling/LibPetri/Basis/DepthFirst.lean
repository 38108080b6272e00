import Mathlib

/-! # Depth-first search for a cycle

An iterative depth-first search over the numbered nodes of a labelled graph.  It stops at the first edge
back to a node that is still open: the stack from that node up, closed by the edge, is a cycle.  Where it
finds none, nothing runs forever from the root.
-/

namespace LibPetri.Basis.DepthFirst

variable {L : Type}

/-- An open node, the edges of it that have not been taken, and the label it was entered by. -/
structure Frame (L : Type) where
  node : Nat
  left : List (L × Nat)
  via : Option L

/-- The position of a node on the stack while it is open, `none` once it is finished; the stack, its top
first. -/
structure State (L : Type) where
  position : List (Nat × Option Nat)
  stack : List (Frame L)

/-- The open nodes from the entry up, and the label of the edge that leads back to the entry. -/
structure Cycle (L : Type) where
  entry : Nat
  loop : List (Frame L)
  via : L

variable (edges : Nat → List (L × Nat))

def start (root : Nat) : State L := ⟨[(root, some 0)], [⟨root, edges root, none⟩]⟩

/-- Every turn takes an edge or finishes a node. -/
def search : Nat → State L → Option (Cycle L)
  | 0, _ => none
  | fuel + 1, s =>
    match s.stack with
    | [] => none
    | ⟨node, [], _⟩ :: below => search fuel ⟨(node, none) :: s.position, below⟩
    | ⟨node, (label, target) :: left, via⟩ :: below =>
      match s.position.lookup target with
      | none =>
        search fuel ⟨(target, some s.stack.length) :: s.position,
          ⟨target, edges target, some label⟩ :: ⟨node, left, via⟩ :: below⟩
      | some none => search fuel ⟨s.position, ⟨node, left, via⟩ :: below⟩
      | some (some at_) => some ⟨target, s.stack.reverse.drop at_, label⟩

/-- Searches the nodes below `count`, for which there are turns enough. -/
def findCycle (count root : Nat) : Option (Cycle L) :=
  search edges (((List.range count).map fun v => (edges v).length + 1).sum + 1) (start edges root)

/-! ## The invariant -/

/-- There is an edge from `i` to `j`. -/
def After (j i : Nat) : Prop := ∃ label, (label, j) ∈ edges i

/-- The upper frame was entered from the lower one. -/
def Enters (upper lower : Frame L) : Prop :=
  ∃ label, upper.via = some label ∧ (label, upper.node) ∈ edges lower.node

/-- The edges taken from each open node lead to finished nodes, or to the node above. -/
def Taken (position : List (Nat × Option Nat)) : Option Nat → List (Frame L) → Prop
  | _, [] => True
  | above, frame :: below =>
    (∃ taken, edges frame.node = taken ++ frame.left ∧
      ∀ e ∈ taken, position.lookup e.2 = some none ∨ some e.2 = above) ∧
      Taken position (some frame.node) below

/-- The node is on the stack, with so many frames below it. -/
def At (v at_ : Nat) : List (Frame L) → Prop
  | [] => False
  | frame :: below => frame.node = v ∧ below.length = at_ ∨ At v at_ below

structure Searching (root : Nat) (s : State L) : Prop where
  entered : s.stack.IsChain (Enters edges)
  open_ : ∀ v at_, s.position.lookup v = some (some at_) ↔ At v at_ s.stack
  finished : ∀ v, s.position.lookup v = some none → Acc (After edges) v
  taken : Taken edges s.position none s.stack
  known : s.position.lookup root ≠ none

variable {edges} {root : Nat} {s : State L}

theorem Taken.mono {position position' : List (Nat × Option Nat)} {above above' : Option Nat}
    {stack : List (Frame L)}
    (still : ∀ v, position.lookup v = some none → position'.lookup v = some none)
    (top : ∀ v, some v = above → position'.lookup v = some none ∨ some v = above')
    (h : Taken edges position above stack) : Taken edges position' above' stack := by
  induction stack generalizing above above' with
  | nil => trivial
  | cons frame below ih =>
    obtain ⟨⟨taken, split, leads⟩, rest⟩ := h
    refine ⟨⟨taken, split, fun e mem => ?_⟩, ih (fun v same => .inr same) rest⟩
    rcases leads e mem with done | up
    · exact .inl (still _ done)
    · exact top _ up

theorem At.lt {v at_ : Nat} {stack : List (Frame L)} (h : At v at_ stack) : at_ < stack.length := by
  induction stack with
  | nil => cases h
  | cons frame below ih =>
    rw [List.length_cons]
    rcases h with ⟨-, rfl⟩ | h
    · exact Nat.lt_succ_self _
    · exact Nat.lt_succ_of_lt (ih h)

/-- The stack from a node up. -/
theorem At.split {v at_ : Nat} {stack : List (Frame L)} (h : At v at_ stack) :
    ∃ upper frame lower, stack = upper ++ frame :: lower ∧ frame.node = v ∧ lower.length = at_ := by
  induction stack with
  | nil => cases h
  | cons frame below ih =>
    rcases h with ⟨here, length⟩ | h
    · exact ⟨[], frame, below, rfl, here, length⟩
    · obtain ⟨upper, frame', lower, rfl, here, length⟩ := ih h
      exact ⟨frame :: upper, frame', lower, rfl, here, length⟩

theorem lookup_of_ne {v w : Nat} {state : Option Nat} {position : List (Nat × Option Nat)}
    (other : v ≠ w) : List.lookup v ((w, state) :: position) = position.lookup v := by
  have : (v == w) = false := by simpa using other
  rw [List.lookup_cons, this]

theorem searching_start : Searching edges root (start edges root) := by
  have known (v : Nat) (state : Option Nat) (found : (start edges root).position.lookup v = some state) :
      v = root ∧ state = some 0 := by
    by_cases same : v = root
    · subst same
      exact ⟨rfl, by simpa [start, eq_comm] using found⟩
    · rw [start, lookup_of_ne same] at found
      cases found
  refine ⟨.singleton _, fun v at_ => ⟨fun found => ?_, fun h => ?_⟩, fun v done => ?_,
    ⟨⟨[], rfl, by simp⟩, trivial⟩, by simp [start]⟩
  · obtain ⟨rfl, same⟩ := known v _ found
    exact .inl ⟨rfl, (Option.some.inj same).symm⟩
  · rcases h with ⟨rfl, rfl⟩ | h
    · simp [start]
    · cases h
  · cases (known v _ done).2

section Turns

variable {node target : Nat} {label : L} {left : List (L × Nat)} {via : Option L}
  {below : List (Frame L)} {position : List (Nat × Option Nat)}

/-- A node is on the stack once. -/
theorem Searching.node_once {taken : List (L × Nat)} {at_ : Nat}
    (h : Searching edges root ⟨position, ⟨node, taken, via⟩ :: below⟩) : ¬At node at_ below := by
  intro lower
  have top := (h.open_ node below.length).mpr (.inl ⟨rfl, rfl⟩)
  have again := (h.open_ node at_).mpr (.inr lower)
  obtain rfl : below.length = at_ := by simpa using top.symm.trans again
  exact absurd lower.lt (Nat.lt_irrefl _)

/-- A node with no edge left is finished. -/
theorem Searching.finish (h : Searching edges root ⟨position, ⟨node, [], via⟩ :: below⟩) :
    Searching edges root ⟨(node, none) :: position, below⟩ := by
  have still (v : Nat) (done : position.lookup v = some none) :
      List.lookup v ((node, none) :: position) = some none := by
    by_cases same : v = node
    · simp [same]
    · rwa [lookup_of_ne same]
  obtain ⟨⟨taken, split, leads⟩, rest⟩ := h.taken
  refine ⟨h.entered.tail, fun v at_ => ?_, fun v done => ?_, rest.mono still fun v same => ?_, ?_⟩
  · by_cases same : v = node
    · subst same
      simpa using h.node_once
    · rw [lookup_of_ne same, h.open_ v at_]
      exact or_iff_right fun top => same top.1.symm
  · by_cases same : v = node
    · subst same
      refine Acc.intro _ fun j ⟨l, mem⟩ => ?_
      rw [List.append_nil] at split
      rw [split] at mem
      rcases leads _ mem with done | impossible
      · exact h.finished j done
      · cases impossible
    · rw [lookup_of_ne same] at done
      exact h.finished v done
  · left
    obtain rfl := Option.some.inj same
    simp
  · by_cases same : root = node
    · simp [same]
    · rw [lookup_of_ne same]
      exact h.known

/-- An edge to a finished node is passed over. -/
theorem Searching.pass
    (h : Searching edges root ⟨position, ⟨node, (label, target) :: left, via⟩ :: below⟩)
    (done : position.lookup target = some none) :
    Searching edges root ⟨position, ⟨node, left, via⟩ :: below⟩ := by
  obtain ⟨⟨taken, split, leads⟩, rest⟩ := h.taken
  refine ⟨?_, h.open_, h.finished, ⟨⟨taken ++ [(label, target)], by simpa using split, ?_⟩, rest⟩,
    h.known⟩
  · cases below with
    | nil => exact .singleton _
    | cons lower below =>
      have entered := List.isChain_cons_cons.mp h.entered
      exact List.isChain_cons_cons.mpr ⟨entered.1, entered.2⟩
  · intro e mem
    rcases List.mem_append.mp mem with old | new
    · exact leads e old
    · exact .inl (List.mem_singleton.mp new ▸ done)

/-- An edge to a new node is followed. -/
theorem Searching.follow
    (h : Searching edges root ⟨position, ⟨node, (label, target) :: left, via⟩ :: below⟩)
    (new : position.lookup target = none) :
    Searching edges root ⟨(target, some (below.length + 1)) :: position,
      ⟨target, edges target, some label⟩ :: ⟨node, left, via⟩ :: below⟩ := by
  obtain ⟨⟨taken, split, leads⟩, rest⟩ := h.taken
  have apart {v : Nat} (found : position.lookup v ≠ none) : v ≠ target := by
    rintro rfl
    exact found new
  have still (v : Nat) (done : position.lookup v = some none) :
      List.lookup v ((target, some (below.length + 1)) :: position) = some none := by
    rwa [lookup_of_ne (apart (by simp [done]))]
  refine ⟨?_, fun v at_ => ?_, fun v done => ?_, ⟨⟨[], rfl, by simp⟩,
    ⟨taken ++ [(label, target)], by simpa using split, fun e mem => ?_⟩, ?_⟩, ?_⟩
  · have edge : Enters edges ⟨target, edges target, some label⟩ ⟨node, left, via⟩ :=
      ⟨label, rfl, by simp [split]⟩
    cases below with
    | nil => exact List.isChain_cons_cons.mpr ⟨edge, .singleton _⟩
    | cons lower below =>
      have entered := List.isChain_cons_cons.mp h.entered
      exact List.isChain_cons_cons.mpr ⟨edge, List.isChain_cons_cons.mpr ⟨entered.1, entered.2⟩⟩
  · have before : position.lookup v = some (some at_) ↔
        At v at_ (⟨node, left, via⟩ :: below) := h.open_ v at_
    by_cases same : v = target
    · subst same
      have absent : ¬At v at_ (⟨node, left, via⟩ :: below) := by simp [← before, new]
      simp only [List.lookup_cons, beq_self_eq_true, Option.some.injEq, At, true_and,
        List.length_cons]
      exact (or_iff_left absent).symm
    · rw [lookup_of_ne same, before]
      exact (or_iff_right fun top => same top.1.symm).symm
  · have : v ≠ target := by
      rintro rfl
      simp at done
    rw [lookup_of_ne this] at done
    exact h.finished v done
  · rcases List.mem_append.mp mem with old | last
    · rcases leads e old with done | impossible
      · exact .inl (still _ done)
      · cases impossible
    · exact .inr (List.mem_singleton.mp last ▸ rfl)
  · exact rest.mono still fun v same => .inr same
  · rw [lookup_of_ne (apart h.known)]
    exact h.known

end Turns

/-! ## What a search finds -/

/-- A cycle of the graph: its nodes enter one another, and the last has an edge to the first. -/
structure Real (edges : Nat → List (L × Nat)) (cycle : Cycle L) : Prop where
  nonempty : ∃ first rest, cycle.loop = first :: rest ∧ first.node = cycle.entry
  entered : cycle.loop.IsChain fun lower upper => Enters edges upper lower
  closed : ∃ last, cycle.loop.getLast? = some last ∧ (cycle.via, cycle.entry) ∈ edges last.node

theorem Searching.real {node target at_ : Nat} {label : L} {left : List (L × Nat)} {via : Option L}
    {below : List (Frame L)} {position : List (Nat × Option Nat)}
    (h : Searching edges root ⟨position, ⟨node, (label, target) :: left, via⟩ :: below⟩)
    (found : position.lookup target = some (some at_)) :
    Real edges ⟨target, (⟨node, (label, target) :: left, via⟩ :: below).reverse.drop at_, label⟩ := by
  obtain ⟨upper, frame, lower, split, here, length⟩ := ((h.open_ target at_).mp found).split
  have loop : (⟨node, (label, target) :: left, via⟩ :: below).reverse.drop at_ =
      frame :: upper.reverse := by
    rw [show _ :: below = upper ++ frame :: lower from split]
    simp [← length]
  have entered := h.entered
  obtain ⟨⟨taken, edge, -⟩, -⟩ := h.taken
  refine ⟨⟨frame, upper.reverse, loop, here⟩, ?_, ⟨⟨node, (label, target) :: left, via⟩, ?_, ?_⟩⟩
  · exact (List.isChain_reverse.mpr h.entered).drop at_
  · rw [loop]
    cases upper with
    | nil => simpa using (List.cons.inj split).1.symm
    | cons top upper =>
      have last : frame :: (top :: upper).reverse = (frame :: upper.reverse) ++ [top] := by simp
      rw [last, List.getLast?_concat, (List.cons.inj split).1]
  · simp [show edges node = _ from edge]

theorem search_real {fuel : Nat} (h : Searching edges root s) {cycle : Cycle L}
    (found : search edges fuel s = some cycle) : Real edges cycle := by
  induction fuel generalizing s with
  | zero => cases found
  | succ fuel ih =>
    obtain ⟨position, stack⟩ := s
    unfold search at found
    split at found
    next => cases found
    next node via below shape =>
      obtain rfl : stack = _ := shape
      exact ih h.finish found
    next node label target left via below shape =>
      obtain rfl : stack = _ := shape
      split at found
      next new => exact ih (h.follow new) found
      next done => exact ih (h.pass done) found
      next at_ open_ =>
        obtain rfl := Option.some.inj found
        exact h.real open_

theorem findCycle_real {count : Nat} {cycle : Cycle L}
    (found : findCycle edges count root = some cycle) : Real edges cycle :=
  search_real searching_start found

/-! ## What a search that finds nothing shows -/

section Exhausted

variable (edges) (count : Nat)

/-- The turns that nodes not met yet will take. -/
def pending (position : List (Nat × Option Nat)) : Nat :=
  ∑ v ∈ (Finset.range count).filter fun v => position.lookup v = none, ((edges v).length + 1)

/-- The turns that are left. -/
def turnsLeft (s : State L) : Nat :=
  pending edges count s.position + (s.stack.map fun frame => frame.left.length + 1).sum

variable {edges count}

theorem pending_known {position : List (Nat × Option Nat)} {v : Nat} {state : Option Nat}
    (known : position.lookup v ≠ none) :
    pending edges count ((v, state) :: position) = pending edges count position := by
  unfold pending
  congr 1
  refine Finset.filter_congr fun w _ => ?_
  by_cases same : w = v
  · subst same
    simp [known]
  · rw [lookup_of_ne same]

variable (edges) in
theorem pending_new {position : List (Nat × Option Nat)} {v : Nat} (state : Option Nat)
    (new : position.lookup v = none) (bound : v < count) :
    pending edges count ((v, state) :: position) + ((edges v).length + 1) =
      pending edges count position := by
  unfold pending
  have member : v ∈ (Finset.range count).filter fun w => position.lookup w = none := by
    simp [new, bound]
  rw [← Finset.sum_erase_add _ _ member]
  congr 2
  ext w
  by_cases same : w = v
  · subst same
    simp
  · simp [lookup_of_ne same, same]

theorem search_none (inside : ∀ v label j, (label, j) ∈ edges v → j < count) {fuel : Nat}
    (h : Searching edges root s) (enough : turnsLeft edges count s < fuel)
    (none_ : search edges fuel s = none) : Acc (After edges) root := by
  induction fuel generalizing s with
  | zero => omega
  | succ fuel ih =>
    obtain ⟨position, stack⟩ := s
    unfold turnsLeft at enough
    unfold search at none_
    split at none_
    next empty =>
      obtain rfl : stack = [] := empty
      -- nothing is open, so the root is finished
      cases found : position.lookup root with
      | none => exact absurd found h.known
      | some state =>
        cases state with
        | none => exact h.finished root found
        | some at_ => exact absurd ((h.open_ root at_).mp found) id
    next node via below shape =>
      obtain rfl : stack = _ := shape
      have known : position.lookup node ≠ none := by
        rw [(h.open_ node below.length).mpr (.inl ⟨rfl, rfl⟩)]
        simp
      refine ih h.finish ?_ none_
      unfold turnsLeft
      rw [pending_known known]
      simp only [List.map_cons, List.sum_cons, List.length_nil] at enough
      dsimp only
      omega
    next node label target left via below shape =>
      obtain rfl : stack = _ := shape
      obtain ⟨⟨taken, edge, -⟩, -⟩ := h.taken
      simp only [List.map_cons, List.sum_cons, List.length_cons] at enough
      split at none_
      next new =>
        refine ih (h.follow new) ?_ none_
        have new : position.lookup target = none := new
        have bound : target < count := inside node label target (by simp [show edges node = _ from edge])
        have fewer := pending_new edges (some (below.length + 1)) new bound
        unfold turnsLeft
        simp only [List.map_cons, List.sum_cons]
        omega
      next done =>
        refine ih (h.pass done) ?_ none_
        unfold turnsLeft
        simp only [List.map_cons, List.sum_cons]
        omega
      next => cases none_

/-- Where there is no cycle, nothing runs forever from the root. -/
theorem findCycle_none (inside : ∀ v label j, (label, j) ∈ edges v → j < count)
    (bound : root < count) (none_ : findCycle edges count root = none) :
    Acc (After edges) root := by
  refine search_none inside searching_start ?_ none_
  have all := pending_new edges (some 0) (List.lookup_nil (a := root)) bound
  have whole : pending edges count [] = ((List.range count).map fun v => (edges v).length + 1).sum := by
    unfold pending
    rw [Finset.filter_true_of_mem fun v _ => List.lookup_nil]
    rfl
  unfold turnsLeft
  simp only [start, List.map_cons, List.map_nil, List.sum_cons, List.sum_nil]
  omega

end Exhausted

end LibPetri.Basis.DepthFirst

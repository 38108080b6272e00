import LibPetri.Basis.Budgets
import LibPetri.Verification.ScgVerifier

/-! # Shortest paths in an explored graph

The search for a class visits the classes in the order of the exploration, so each of them is reached
from the first class with an edge to it, and the path back to the initial class is a shortest one.
-/

namespace LibPetri.Verified

open LibPetri.Basis LibPetri.Verification LibPetri.Verification.ScgVerifier

variable {S L K : Type} {key : S → K} {successors : S → List (L × S)} {s₀ : S}
  {g : Exploration S L}

/-- The first row with an edge to `j` is that of `i`, and `l` labels the first of them. -/
structure FirstEdge (g : Exploration S L) (i : Nat) (l : L) (j : Nat) : Prop where
  entry : ∃ row, g.rows[i]? = some row ∧ Exploration.FirstEntry row l j
  least : ∀ i' < i, ∀ l', ¬g.Edge i' l' j

theorem FirstEdge.edge {i j : Nat} {l : L} (first : FirstEdge g i l j) : g.Edge i l j := by
  obtain ⟨row, at_, before, after, rfl, -⟩ := first.entry
  exact ⟨_, at_, by simp⟩

/-- A search that has visited the rows before `head`, and the entries `before` of its row. -/
structure Searching (g : Exploration S L) (head : Nat) (before : List (L × Nat)) (s : Search L) :
    Prop where
  root : s.parent.lookup 0 = none
  queued : ∃ k, 0 < k ∧ s.queue = List.range k
  first : ∀ j ∈ s.queue, 0 < j → ∃ i l, s.parent.lookup j = some (i, l) ∧ FirstEdge g i l j
  seen : ∀ i < head, ∀ l j, g.Edge i l j → j ∈ s.queue
  entries : ∀ e ∈ before, e.2 ∈ s.queue

theorem searching_start (g : Exploration S L) : Searching g 0 [] ⟨[0], []⟩ where
  root := rfl
  queued := ⟨1, Nat.one_pos, rfl⟩
  first j mem pos := by
    obtain rfl := List.mem_singleton.mp mem
    exact absurd pos (Nat.lt_irrefl 0)
  seen i lt := absurd lt (Nat.not_lt_zero i)
  entries := by simp

/-- Visiting one entry of a row: a class not seen yet is the next one in the order of the exploration. -/
theorem Searching.visit (h : Exploration.Explored key successors s₀ g) {head : Nat} {before after : List (L × Nat)}
    {entry : L × Nat} {s : Search L} (searching : Searching g head before s)
    (row : g.rows[head]? = some (before ++ entry :: after)) :
    Searching g head (before ++ [entry]) (visit head s entry) := by
  obtain ⟨l, t⟩ := entry
  obtain ⟨k, pos, queue⟩ := searching.queued
  unfold ScgVerifier.visit
  split
  next known =>
    refine ⟨searching.root, ⟨k, pos, queue⟩, searching.first, searching.seen, fun e mem => ?_⟩
    rcases List.mem_append.mp mem with mem | mem
    · exact searching.entries e mem
    · exact List.mem_singleton.mp mem ▸ known
  next fresh =>
    dsimp only at fresh ⊢
    have past : k ≤ t := by
      rw [queue, List.mem_range] at fresh
      exact Nat.le_of_not_lt fresh
    -- a class between those seen and this one would have been reached before it
    obtain rfl : t = k := by
      by_contra ne
      have out : k ∉ s.queue := by simp [queue]
      rcases h.ordered head _ before l t after row rfl k (by omega) pos with
        ⟨i, lt, l', edge⟩ | ⟨l', mem⟩
      · exact out (searching.seen i lt l' k edge)
      · exact out (searching.entries _ mem)
    refine ⟨?_, ⟨t + 1, by omega, by rw [queue, List.range_succ]⟩, fun j mem pos' => ?_,
      fun i lt l' j edge => List.mem_append_left _ (searching.seen i lt l' j edge), fun e mem => ?_⟩
    · have : (0 == t) = false := by simpa using Nat.ne_of_lt pos
      rw [List.lookup_cons, this]
      exact searching.root
    · by_cases this : j = t
      · subst this
        refine ⟨head, l, by simp, ⟨⟨_, row, before, after, rfl, fun l' mem => ?_⟩,
          fun i lt l' edge => ?_⟩⟩
        · exact fresh (searching.entries _ mem)
        · exact fresh (searching.seen i lt l' j edge)
      · have other : (j == t) = false := by simpa using this
        have old : j ∈ s.queue := by simpa [this] using mem
        simp only [List.lookup_cons, other]
        exact searching.first j old pos'
    · rcases List.mem_append.mp mem with mem | mem
      · exact List.mem_append_left _ (searching.entries e mem)
      · simp [List.mem_singleton.mp mem]

theorem Searching.foldl_visit (h : Exploration.Explored key successors s₀ g) {head : Nat}
    {before entries : List (L × Nat)} {s : Search L} (searching : Searching g head before s)
    (row : g.rows[head]? = some (before ++ entries)) :
    Searching g head (before ++ entries) (entries.foldl (ScgVerifier.visit head) s) := by
  induction entries generalizing before s with
  | nil => simpa using searching
  | cons entry entries ih =>
    have next := searching.visit h row
    have := ih next (by simpa using row)
    simpa using this

/-- Visiting a row. -/
theorem Searching.row (h : Exploration.Explored key successors s₀ g) {head : Nat} {s : Search L}
    (searching : Searching g head [] s) :
    Searching g (head + 1) [] ((outgoingBranchEdges g head).foldl (ScgVerifier.visit head) s) := by
  unfold outgoingBranchEdges
  cases at_ : g.rows[head]? with
  | none =>
    refine ⟨searching.root, searching.queued, searching.first, fun i lt l j edge => ?_, by simp⟩
    rcases Nat.lt_succ_iff_lt_or_eq.mp lt with lt | rfl
    · exact searching.seen i lt l j edge
    · obtain ⟨row, there, -⟩ := edge
      rw [at_] at there
      cases there
  | some row =>
    have done : Searching g (head + 1 - 1) ([] ++ row) _ :=
      searching.foldl_visit h (by simpa using at_)
    refine ⟨done.root, done.queued, done.first, fun i lt l j edge => ?_, by simp⟩
    rcases Nat.lt_succ_iff_lt_or_eq.mp lt with lt | rfl
    · exact done.seen i lt l j edge
    · obtain ⟨row', there, mem⟩ := edge
      obtain rfl := Option.some.inj (at_.symm.trans there)
      exact done.entries (l, j) mem

/-- The next class the search visits. -/
theorem Searching.at_head (h : Exploration.Explored key successors s₀ g) {head : Nat} {s : Search L}
    (searching : Searching g head [] s) (lt : head < g.classes.length) : s.queue[head]? = some head := by
  obtain ⟨k, pos, queue⟩ := searching.queued
  have reached : head ∈ s.queue := by
    rcases Nat.eq_zero_or_pos head with rfl | past
    · simpa [queue] using pos
    · obtain ⟨i, before, c, l, -, -, edge⟩ := h.found head _ (List.getElem?_eq_getElem lt) past
      exact searching.seen i before l head edge
  rw [queue, List.mem_range] at reached
  rw [queue, List.getElem?_range reached]

/-- The search comes to its target. -/
theorem Searching.search (h : Exploration.Explored key successors s₀ g) {target fuel head : Nat} {s : Search L}
    (searching : Searching g head [] s) (bound : target < g.classes.length) (le : head ≤ target)
    (enough : target < head + fuel) :
    ∃ head', Searching g head' [] (search g target fuel head s) ∧
      target ∈ (ScgVerifier.search g target fuel head s).queue := by
  induction fuel generalizing head s with
  | zero => omega
  | succ fuel ih =>
    have at_ := searching.at_head h (Nat.lt_of_le_of_lt le bound)
    unfold ScgVerifier.search
    rw [at_]
    dsimp only
    split
    next done => exact ⟨head, searching, done ▸ List.mem_iff_getElem?.mpr ⟨head, at_⟩⟩
    next going => exact ih (searching.row h) (by omega) (by omega)

/-- A search for no class visits every row. -/
theorem Searching.search_all (h : Exploration.Explored key successors s₀ g) {fuel head : Nat} {s : Search L}
    (searching : Searching g head [] s) (le : head ≤ g.classes.length)
    (enough : g.classes.length ≤ head + fuel) :
    Searching g g.classes.length [] (ScgVerifier.search g g.classes.length fuel head s) := by
  induction fuel generalizing head s with
  | zero =>
    obtain rfl : head = g.classes.length := Nat.le_antisymm le enough
    exact searching
  | succ fuel ih =>
    unfold ScgVerifier.search
    rcases Nat.lt_or_eq_of_le le with lt | rfl
    · rw [searching.at_head h lt]
      dsimp only
      rw [if_neg (Nat.ne_of_lt lt)]
      exact ih (searching.row h) lt (by omega)
    · -- no class has this number
      obtain ⟨k, -, queue⟩ := searching.queued
      cases at_ : s.queue[g.classes.length]? with
      | none => exact searching
      | some current =>
        obtain rfl : g.classes.length = current := by
          rw [queue] at at_
          have lt := (List.getElem?_eq_some_iff.mp at_).1
          rw [List.length_range] at lt
          rw [List.getElem?_range lt] at at_
          exact Option.some.inj at_
        dsimp only
        rw [if_pos rfl]
        exact searching

/-! ## The chain of a class -/

/-- The parents of a finished search, each the first class with an edge. -/
structure ShortestTree (g : Exploration S L) (parent : List (Nat × (Nat × L))) (target : Nat) :
    Prop where
  root : parent.lookup 0 = none
  first : ∀ j ≤ target, 0 < j → ∃ i l, parent.lookup j = some (i, l) ∧ FirstEdge g i l j

theorem search_shortestTree (h : Exploration.Explored key successors s₀ g) {target : Nat}
    (bound : target < g.classes.length) :
    ShortestTree g (search g target g.classes.length 0 ⟨[0], []⟩).parent target := by
  obtain ⟨head, searching, reached⟩ := (searching_start g).search h bound (Nat.zero_le _)
    (Nat.lt_of_lt_of_eq bound (Nat.zero_add _).symm)
  obtain ⟨k, -, queue⟩ := searching.queued
  refine ⟨searching.root, fun j le pos => searching.first j ?_ pos⟩
  rw [queue, List.mem_range] at reached ⊢
  omega

/-- The parents of a search for no class. -/
theorem search_all_shortestTree (h : Exploration.Explored key successors s₀ g) {target : Nat}
    (bound : target < g.classes.length) :
    ShortestTree g (search g g.classes.length g.classes.length 0 ⟨[0], []⟩).parent target := by
  have searching := (searching_start g).search_all h (Nat.zero_le _) (Nat.le_add_left _ 0)
  refine ⟨searching.root, fun j le pos => searching.first j ?_ pos⟩
  obtain ⟨i, before, c, l, -, -, edge⟩ :=
    h.found j _ (List.getElem?_eq_getElem (Nat.lt_of_le_of_lt le bound)) pos
  exact searching.seen i (by omega) l j edge

theorem FirstEdge.lt (h : Exploration.Explored key successors s₀ g) {i j : Nat} {l : L}
    (first : FirstEdge g i l j) (bound : j < g.classes.length) (pos : 0 < j) : i < j := by
  obtain ⟨i', lt, c, l', -, -, edge⟩ := h.found j _ (List.getElem?_eq_getElem bound) pos
  by_contra le
  exact first.least i' (by omega) l' edge

/-- The chain of a class, one step at a time. -/
inductive Chain (g : Exploration S L) (parent : List (Nat × (Nat × L))) : Nat → List Nat → Prop
  | root : parent.lookup 0 = none → Chain g parent 0 [0]
  | step {i j : Nat} {l : L} {path : List Nat} : 0 < j → parent.lookup j = some (i, l) →
      FirstEdge g i l j → Chain g parent i path → Chain g parent j (path ++ [j])

theorem ShortestTree.chain (h : Exploration.Explored key successors s₀ g) {parent : List (Nat × (Nat × L))}
    {target fuel j : Nat} (tree : ShortestTree g parent target) (bound : j < g.classes.length)
    (le : j ≤ target) (enough : j ≤ fuel) : Chain g parent j (chain parent fuel j).reverse := by
  induction fuel generalizing j with
  | zero =>
    obtain rfl := Nat.le_zero.mp enough
    exact .root tree.root
  | succ fuel ih =>
    unfold ScgVerifier.chain
    rcases Nat.eq_zero_or_pos j with rfl | pos
    · rw [tree.root]
      exact .root tree.root
    · obtain ⟨i, l, found, first⟩ := tree.first j le pos
      have lt := first.lt h bound pos
      rw [found]
      simp only [List.reverse_cons]
      exact .step pos found first (ih (by omega) (by omega) (by omega))

/-- The first class with an edge is nearer than what the edge leads to. -/
theorem FirstEdge.within (h : Exploration.Explored key successors s₀ g) {i j n : Nat} {l : L}
    (first : FirstEdge g i l j) (pos : 0 < j) (near : g.Within n j) :
    ∃ m, n = m + 1 ∧ g.Within m i := by
  induction n with
  | zero =>
    obtain rfl : j = 0 := near
    exact absurd pos (Nat.lt_irrefl 0)
  | succ n ih =>
    rcases near with near | ⟨i', l', near, edge⟩
    · obtain ⟨m, rfl, nearer⟩ := ih near
      exact ⟨m + 1, rfl, .inl nearer⟩
    · have le : i ≤ i' := Nat.le_of_not_lt fun lt => first.least i' lt l' edge
      exact ⟨n, rfl, h.within_below near le⟩

/-- No class is nearer than its chain. -/
theorem Chain.shortest (h : Exploration.Explored key successors s₀ g)
    {parent : List (Nat × (Nat × L))} {j n : Nat} {path : List Nat} (chain : Chain g parent j path)
    (near : g.Within n j) : path.length ≤ n + 1 := by
  induction chain generalizing n with
  | root => simp
  | step pos _ first _ ih =>
    obtain ⟨m, rfl, nearer⟩ := first.within h pos near
    have := ih nearer
    rw [List.length_append, List.length_singleton]
    omega

end LibPetri.Verified

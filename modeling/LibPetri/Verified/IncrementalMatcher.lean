import LibPetri.Verified.MatchSelection

/-! # The incremental matcher

`Rep m requireds lanes` says that `m` stands for the lanes: its queues hold their timestamps, its
ready names are the satisfied ones, and every ready name waits in the active structure, whose top is
not stale.  `add` and `consume` keep it, and `best` reads the selected name off it.
-/

namespace LibPetri.Verified

open LibPetri.Basis LibPetri.Core LibPetri.Runtime

variable {N : Type} [LinearOrder N]

/-- The queues of one input hold the timestamps of its lane. -/
def Stored (tokens : OrderedMap N (MinQueue Ms)) (lane : List (N × Ms)) : Prop :=
  ∀ name, ((tokens.get? name).map MinQueue.toList).getD [] = occurrences lane name

/-- The entries of the active structure. -/
def active (m : IncrementalMatcher N) : List (ReadyEntry N) :=
  if m.heaped then m.heap.toList else m.fifo.drop m.fifoHead

/-- The order of the two ready structures, and that every ready name waits in the active one. -/
structure Shape (m : IncrementalMatcher N) : Prop where
  heap : BinaryHeap.Heap m.heap
  inside : m.fifoHead ≤ m.fifo.length
  emptied : m.heaped = true → m.fifo = []
  sorted : m.heaped = false → (m.fifo.drop m.fifoHead).Pairwise (· ≤ ·)
  bounded : m.heaped = false → ∀ e ∈ m.fifo.drop m.fifoHead, ∃ max ∈ m.maxPushed, e ≤ max
  covers : ∀ name rep, m.ready.get? name = some rep → toLex (rep, name) ∈ active m

/-- The matcher stands for the lanes. -/
structure Rep (m : IncrementalMatcher N) (requireds : List Nat) (lanes : Nat → List (N × Ms)) :
    Prop where
  shape : Shape m
  reqs : m.requireds = requireds
  stored : ∀ i < requireds.length, Stored (m.ts i) (lanes i)
  ready : ∀ name rep, m.ready.get? name = some rep ↔
    Satisfied requireds lanes name ∧ rep = oldestFrom lanes name 0 requireds
  top : ∀ e, (active m).head? = some e → IncrementalMatcher.stale m.ready e = false

/-! ## Pushing and cleaning -/

theorem foldl_push_heap {heap : Array (ReadyEntry N)} (h : BinaryHeap.Heap heap)
    (entries : List (ReadyEntry N)) : BinaryHeap.Heap (entries.foldl BinaryHeap.push heap) ∧
      (entries.foldl BinaryHeap.push heap).toList.Perm (entries.reverse ++ heap.toList) := by
  induction entries generalizing heap with
  | nil => exact ⟨h, List.Perm.refl _⟩
  | cons e entries ih =>
    obtain ⟨order, perm⟩ := ih (BinaryHeap.heap_push h e)
    refine ⟨order, perm.trans ?_⟩
    rw [List.reverse_cons, List.append_assoc]
    exact List.Perm.append_left _ (BinaryHeap.push_perm heap e)

/-- The entries of the active structure after a push. -/
theorem mem_active_pushReady {m : IncrementalMatcher N} (heap : BinaryHeap.Heap m.heap)
    (inside : m.fifoHead ≤ m.fifo.length) (entry : ReadyEntry N) {e : ReadyEntry N}
    (h : e = entry ∨ e ∈ active m) : e ∈ active (m.pushReady entry) := by
  unfold IncrementalMatcher.pushReady active at *
  cases hheaped : m.heaped with
  | true =>
    rw [hheaped] at h
    simp only [↓reduceIte] at h ⊢
    rw [(BinaryHeap.push_perm m.heap entry).mem_iff, List.mem_cons]
    exact h
  | false =>
    rw [hheaped] at h
    simp only [Bool.false_eq_true, ↓reduceIte] at h ⊢
    split
    next =>
      simp only [Bool.false_eq_true, ↓reduceIte]
      rw [List.drop_append_of_le_length inside, List.mem_append, List.mem_singleton]
      exact h.symm
    next =>
      simp only [↓reduceIte]
      rw [(BinaryHeap.push_perm _ entry).mem_iff, List.mem_cons,
        (foldl_push_heap heap _).2.mem_iff, List.mem_append, List.mem_reverse]
      exact h.imp id Or.inl

@[simp] theorem ready_pushReady (m : IncrementalMatcher N) (entry : ReadyEntry N) :
    (m.pushReady entry).ready = m.ready := by
  unfold IncrementalMatcher.pushReady
  split
  · rfl
  · split <;> rfl

@[simp] theorem ts_pushReady (m : IncrementalMatcher N) (entry : ReadyEntry N) :
    (m.pushReady entry).ts = m.ts := by
  unfold IncrementalMatcher.pushReady
  split
  · rfl
  · split <;> rfl

@[simp] theorem requireds_pushReady (m : IncrementalMatcher N) (entry : ReadyEntry N) :
    (m.pushReady entry).requireds = m.requireds := by
  unfold IncrementalMatcher.pushReady
  split
  · rfl
  · split <;> rfl

/-- A push keeps the shape, if it pushes every ready name that was not waiting yet. -/
theorem Shape.pushReady {m : IncrementalMatcher N} {entry : ReadyEntry N}
    (heap : BinaryHeap.Heap m.heap) (inside : m.fifoHead ≤ m.fifo.length)
    (emptied : m.heaped = true → m.fifo = [])
    (sorted : m.heaped = false → (m.fifo.drop m.fifoHead).Pairwise (· ≤ ·))
    (bounded : m.heaped = false → ∀ e ∈ m.fifo.drop m.fifoHead, ∃ max ∈ m.maxPushed, e ≤ max)
    (covers : ∀ name rep, m.ready.get? name = some rep →
      toLex (rep, name) = entry ∨ toLex (rep, name) ∈ active m) : Shape (m.pushReady entry) := by
  have waits : ∀ name rep, (m.pushReady entry).ready.get? name = some rep →
      toLex (rep, name) ∈ active (m.pushReady entry) := by
    intro name rep h
    rw [ready_pushReady] at h
    exact mem_active_pushReady heap inside entry (covers name rep h)
  unfold IncrementalMatcher.pushReady at waits ⊢
  cases hheaped : m.heaped with
  | true =>
    simp only [hheaped, ↓reduceIte] at waits ⊢
    exact ⟨BinaryHeap.heap_push heap entry, inside, fun _ => emptied hheaped, Bool.noConfusion,
      Bool.noConfusion, waits⟩
  | false =>
    simp only [hheaped, Bool.false_eq_true, ↓reduceIte] at waits ⊢
    by_cases ascending : ∀ max ∈ m.maxPushed, max ≤ entry
    · rw [if_pos ascending] at waits ⊢
      have below : ∀ e ∈ m.fifo.drop m.fifoHead, e ≤ entry := by
        intro e he
        obtain ⟨max, hmax, le⟩ := bounded hheaped e he
        exact le_trans le (ascending max hmax)
      refine ⟨heap, ?_, Bool.noConfusion, fun _ => ?_, fun _ e he => ?_, waits⟩
      · rw [List.length_append]
        exact Nat.le_trans inside (Nat.le_add_right _ _)
      · rw [List.drop_append_of_le_length inside, List.pairwise_append]
        refine ⟨sorted hheaped, List.pairwise_singleton _ _, fun e he f hf => ?_⟩
        rw [List.mem_singleton.mp hf]
        exact below e he
      · rw [List.drop_append_of_le_length inside, List.mem_append, List.mem_singleton] at he
        rcases he with he | rfl
        · exact ⟨entry, rfl, below e he⟩
        · exact ⟨e, rfl, le_refl e⟩
    · rw [if_neg ascending] at waits ⊢
      exact ⟨BinaryHeap.heap_push (foldl_push_heap heap _).1 entry, Nat.le_refl 0, fun _ => rfl,
        Bool.noConfusion, Bool.noConfusion, waits⟩

/-- Popping stale tops keeps the heap and every entry that is not stale. -/
theorem popStale_spec (ready : OrderedMap N (WithTop Ms)) (fuel : Nat) {heap : Array (ReadyEntry N)}
    (h : BinaryHeap.Heap heap) :
    BinaryHeap.Heap (IncrementalMatcher.popStale ready fuel heap) ∧
      (∀ e ∈ heap.toList, IncrementalMatcher.stale ready e = false →
        e ∈ (IncrementalMatcher.popStale ready fuel heap).toList) ∧
      (heap.size ≤ fuel → ∀ e, (IncrementalMatcher.popStale ready fuel heap)[0]? = some e →
        IncrementalMatcher.stale ready e = false) := by
  induction fuel generalizing heap with
  | zero =>
    refine ⟨h, fun e he _ => he, fun small e he => ?_⟩
    have := (Array.getElem?_eq_some_iff.mp he).1
    simp only [IncrementalMatcher.popStale] at this
    omega
  | succ fuel ih =>
    rw [IncrementalMatcher.popStale]
    split
    next top htop =>
      split
      next hstale =>
        obtain ⟨order, kept, clean⟩ := ih (BinaryHeap.heap_pop h)
        have perm := BinaryHeap.pop_perm htop
        refine ⟨order, fun e he fresh => kept e ?_ fresh, fun small => clean ?_⟩
        · rcases List.mem_cons.mp (perm.mem_iff.mp he) with rfl | he
          · rw [hstale] at fresh
            cases fresh
          · exact he
        · have := perm.length_eq
          rw [List.length_cons, Array.length_toList, Array.length_toList] at this
          omega
      next fresh =>
        refine ⟨h, fun e he _ => he, fun _ e he => ?_⟩
        rw [htop] at he
        cases he
        exact Bool.eq_false_iff.mpr fresh
    next none =>
      refine ⟨h, fun e he _ => he, fun _ e he => ?_⟩
      rw [none] at he
      cases he

theorem stale_of_ready {ready : OrderedMap N (WithTop Ms)} {name : N} {rep : WithTop Ms}
    (h : ready.get? name = some rep) : IncrementalMatcher.stale ready (toLex (rep, name)) = false := by
  simp [IncrementalMatcher.stale, h]

omit [LinearOrder N] in
theorem drop_takeWhile_length (p : ReadyEntry N → Bool) (l : List (ReadyEntry N)) :
    l.drop (l.takeWhile p).length = l.dropWhile p := by
  conv_lhs => rw [← List.takeWhile_append_dropWhile (p := p) (l := l)]
  rw [List.drop_left']
  rw [List.takeWhile_append_dropWhile]

@[simp] theorem ready_cleanTop (m : IncrementalMatcher N) : m.cleanTop.ready = m.ready := by
  unfold IncrementalMatcher.cleanTop
  split <;> (dsimp only; split <;> rfl)

@[simp] theorem ts_cleanTop (m : IncrementalMatcher N) : m.cleanTop.ts = m.ts := by
  unfold IncrementalMatcher.cleanTop
  split <;> (dsimp only; split <;> rfl)

@[simp] theorem requireds_cleanTop (m : IncrementalMatcher N) :
    m.cleanTop.requireds = m.requireds := by
  unfold IncrementalMatcher.cleanTop
  split <;> (dsimp only; split <;> rfl)

/-- Cleaning keeps the shape and leaves no stale top. -/
theorem Shape.cleanTop {m : IncrementalMatcher N} (h : Shape m) : Shape m.cleanTop ∧
    ∀ e, (active m.cleanTop).head? = some e → IncrementalMatcher.stale m.ready e = false := by
  unfold IncrementalMatcher.cleanTop
  cases hheaped : m.heaped with
  | true =>
    obtain ⟨order, kept, clean⟩ := popStale_spec m.ready m.heap.size h.heap
    have waits : ∀ name rep, m.ready.get? name = some rep →
        toLex (rep, name) ∈ (IncrementalMatcher.popStale m.ready m.heap.size m.heap).toList := by
      intro name rep hready
      have := h.covers name rep hready
      rw [active, hheaped] at this
      exact kept _ this (stale_of_ready hready)
    simp only [↓reduceIte]
    split
    next empty =>
      have nothing := Array.toList_eq_nil_iff.mpr (Array.size_eq_zero_iff.mp empty)
      have drained := h.emptied hheaped
      refine ⟨⟨order, h.inside, fun _ => drained, fun _ => ?_, fun _ e he => ?_,
        fun name rep hready => ?_⟩, fun e he => ?_⟩
      · rw [drained, List.drop_nil]
        exact List.Pairwise.nil
      · rw [drained, List.drop_nil] at he
        cases he
      · have := waits name rep hready
        rw [nothing] at this
        cases this
      · simp only [active, Bool.false_eq_true, ↓reduceIte, drained, List.drop_nil] at he
        cases he
    next =>
      refine ⟨⟨order, h.inside, fun _ => h.emptied hheaped, nofun, nofun, fun name rep hready => ?_⟩,
        fun e he => ?_⟩
      · simp only [active, ↓reduceIte]
        exact waits name rep hready
      · simp only [active, ↓reduceIte] at he
        refine clean (Nat.le_refl _) e ?_
        rw [← he, ← Array.getElem?_toList, List.head?_eq_getElem?]
  | false =>
    simp only [Bool.false_eq_true, ↓reduceIte]
    have cleaned : m.fifo.drop (m.fifoHead +
        ((m.fifo.drop m.fifoHead).takeWhile (IncrementalMatcher.stale m.ready)).length) =
        (m.fifo.drop m.fifoHead).dropWhile (IncrementalMatcher.stale m.ready) := by
      rw [← List.drop_drop, drop_takeWhile_length]
    have sub := List.dropWhile_sublist (IncrementalMatcher.stale m.ready) (l := m.fifo.drop m.fifoHead)
    have waits : ∀ name rep, m.ready.get? name = some rep → toLex (rep, name) ∈
        (m.fifo.drop m.fifoHead).dropWhile (IncrementalMatcher.stale m.ready) := by
      intro name rep hready
      have member := h.covers name rep hready
      rw [active, hheaped, if_neg Bool.false_ne_true,
        ← List.takeWhile_append_dropWhile (p := IncrementalMatcher.stale m.ready)
          (l := m.fifo.drop m.fifoHead), List.mem_append] at member
      refine member.resolve_left fun left => ?_
      have := List.mem_takeWhile_imp left
      rw [stale_of_ready hready] at this
      cases this
    split
    next drained =>
      have nothing : (m.fifo.drop m.fifoHead).dropWhile (IncrementalMatcher.stale m.ready) = [] := by
        rw [← cleaned, List.drop_eq_nil_of_le drained]
      refine ⟨⟨h.heap, Nat.le_refl 0, fun _ => rfl, fun _ => List.Pairwise.nil,
        fun _ e he => (List.not_mem_nil he).elim, fun name rep hready => ?_⟩, fun e he => ?_⟩
      · have := waits name rep hready
        rw [nothing] at this
        cases this
      · simp only [active, Bool.false_eq_true, ↓reduceIte, List.drop_nil] at he
        cases he
    next remain =>
      refine ⟨⟨h.heap, Nat.le_of_lt (not_le.mp remain), nofun, fun _ => ?_, fun _ e he => ?_,
        fun name rep hready => ?_⟩, fun e he => ?_⟩
      · rw [cleaned]
        exact (h.sorted hheaped).sublist sub
      · rw [cleaned] at he
        exact h.bounded hheaped e (sub.subset he)
      · simp only [active, Bool.false_eq_true, ↓reduceIte, cleaned]
        exact waits name rep hready
      · simp only [active, Bool.false_eq_true, ↓reduceIte, cleaned] at he
        have := List.head?_dropWhile_not (IncrementalMatcher.stale m.ready) (m.fifo.drop m.fifoHead)
        rw [he] at this
        simpa using this

/-! ## Refreshing -/

theorem repTsFrom_iff {ts : Nat → OrderedMap N (MinQueue Ms)} {lanes : Nat → List (N × Ms)}
    {name : N} {i : Nat} {requireds : List Nat} {rep r : WithTop Ms}
    (stored : ∀ j < requireds.length, Stored (ts (i + j)) (lanes (i + j)))
    (pos : ∀ required ∈ requireds, 1 ≤ required) :
    IncrementalMatcher.repTsFrom ts name i requireds rep = some r ↔
      (∀ j required, requireds[j]? = some required →
        required ≤ (occurrences (lanes (i + j)) name).length) ∧
      r = min rep (oldestFrom lanes name i requireds) := by
  induction requireds generalizing i rep with
  | nil => simp [IncrementalMatcher.repTsFrom, oldestFrom, eq_comm]
  | cons required rest ih =>
    have here := stored 0 (Nat.succ_pos _) name
    rw [Nat.add_zero] at here
    have posHere := pos required List.mem_cons_self
    have tail : ∀ j < rest.length, Stored (ts (i + 1 + j)) (lanes (i + 1 + j)) := by
      intro j hj
      have := stored (j + 1) (Nat.succ_lt_succ hj)
      rwa [show i + (j + 1) = i + 1 + j by omega] at this
    have split_all : (∀ j r, (required :: rest)[j]? = some r →
        r ≤ (occurrences (lanes (i + j)) name).length) ↔
        required ≤ (occurrences (lanes i) name).length ∧
          ∀ j r, rest[j]? = some r → r ≤ (occurrences (lanes (i + 1 + j)) name).length := by
      constructor
      · intro h
        refine ⟨h 0 required rfl, fun j r hj => ?_⟩
        have := h (j + 1) r (by simpa using hj)
        rwa [show i + (j + 1) = i + 1 + j by omega] at this
      · rintro ⟨head, later⟩ j r hj
        cases j with
        | zero =>
          cases hj
          exact head
        | succ j =>
          have := later j r (by simpa using hj)
          rwa [show i + 1 + j = i + (j + 1) by omega] at this
    rw [IncrementalMatcher.repTsFrom, split_all]
    cases hq : (ts i).get? name with
    | none =>
      rw [hq] at here
      have empty : occurrences (lanes i) name = [] := here.symm
      simp only [empty, List.length_nil]
      constructor
      · nofun
      · rintro ⟨⟨few, _⟩, _⟩
        omega
    | some q =>
      rw [hq] at here
      have contents : q.toList = occurrences (lanes i) name := here
      dsimp only
      rw [MinQueue.size_eq, contents]
      split
      next few =>
        constructor
        · nofun
        · rintro ⟨⟨enough, _⟩, _⟩
          omega
      next enough =>
        have lesser : (if q.min < rep then q.min else rep) = min rep q.min := by
          split
          next lt => exact (min_eq_right (le_of_lt lt)).symm
          next ge => exact (min_eq_left (not_lt.mp ge)).symm
        rw [ih tail fun r hr => pos r (List.mem_cons_of_mem _ hr), lesser, MinQueue.min_eq, contents,
          oldestFrom, min_assoc]
        exact and_congr_left fun _ => ⟨fun h => ⟨not_lt.mp enough, h⟩, And.right⟩

theorem repTs_iff {m : IncrementalMatcher N} {requireds : List Nat} {lanes : Nat → List (N × Ms)}
    {name : N} {rep : WithTop Ms} (reqs : m.requireds = requireds)
    (stored : ∀ i < requireds.length, Stored (m.ts i) (lanes i))
    (pos : ∀ required ∈ requireds, 1 ≤ required) :
    m.repTs name = some rep ↔
      Satisfied requireds lanes name ∧ rep = oldestFrom lanes name 0 requireds := by
  have := @repTsFrom_iff N _ m.ts lanes name 0 requireds ⊤ rep
    (fun j hj => by simpa using stored j hj) pos
  simpa [IncrementalMatcher.repTs, Satisfied, reqs] using this

@[simp] theorem ts_refresh (m : IncrementalMatcher N) (name : N) : (m.refresh name).ts = m.ts := by
  unfold IncrementalMatcher.refresh
  split
  · split
    · rfl
    · rw [ts_pushReady]
  · rfl

@[simp] theorem requireds_refresh (m : IncrementalMatcher N) (name : N) :
    (m.refresh name).requireds = m.requireds := by
  unfold IncrementalMatcher.refresh
  split
  · split
    · rfl
    · rw [requireds_pushReady]
  · rfl

/-- A refresh sets the ready entry of its name to the name's oldest timestamp. -/
theorem ready_refresh (m : IncrementalMatcher N) (name other : N) :
    (m.refresh name).ready.get? other =
      if other = name then m.repTs name else m.ready.get? other := by
  unfold IncrementalMatcher.refresh
  split
  next rep hrep =>
    split
    next same =>
      by_cases h : other = name
      · rw [if_pos h, h, same, hrep]
      · rw [if_neg h]
    next =>
      rw [ready_pushReady]
      dsimp only
      rw [OrderedMap.get?_set, hrep]
  next hrep =>
    dsimp only
    rw [OrderedMap.get?_delete, hrep]

theorem Shape.refresh {m : IncrementalMatcher N} (h : Shape m) (name : N) :
    Shape (m.refresh name) := by
  unfold IncrementalMatcher.refresh
  split
  next rep hrep =>
    split
    next => exact h
    next =>
      refine Shape.pushReady h.heap h.inside h.emptied h.sorted h.bounded fun other r hr => ?_
      rw [OrderedMap.get?_set] at hr
      by_cases same : other = name
      · rw [if_pos same] at hr
        cases hr
        rw [same]
        exact Or.inl rfl
      · rw [if_neg same] at hr
        exact Or.inr (h.covers other r hr)
  next =>
    refine ⟨h.heap, h.inside, h.emptied, h.sorted, h.bounded, fun other r hr => ?_⟩
    rw [OrderedMap.get?_delete] at hr
    split at hr
    · cases hr
    · exact h.covers other r hr

/-! ## The representation -/

section Representation

variable {m : IncrementalMatcher N} {requireds : List Nat} {lanes lanes' : Nat → List (N × Ms)}

theorem satisfied_congr {name : N}
    (same : ∀ i < requireds.length, occurrences (lanes' i) name = occurrences (lanes i) name) :
    Satisfied requireds lanes' name ↔ Satisfied requireds lanes name := by
  have agree : ∀ i required, requireds[i]? = some required →
      occurrences (lanes' i) name = occurrences (lanes i) name :=
    fun i _ h => same i (List.getElem?_eq_some_iff.mp h).1
  exact forall_congr' fun i => forall_congr' fun required => imp_congr_right fun h => by
    rw [agree i required h]

theorem oldestFrom_congr {name : N} (start : Nat)
    (same : ∀ i < requireds.length,
      occurrences (lanes' (start + i)) name = occurrences (lanes (start + i)) name) :
    oldestFrom lanes' name start requireds = oldestFrom lanes name start requireds := by
  induction requireds generalizing start with
  | nil => rfl
  | cons required rest ih =>
    have head := same 0 (Nat.succ_pos _)
    rw [Nat.add_zero] at head
    rw [oldestFrom, oldestFrom, head, ih (start + 1) fun i hi => ?_]
    have := same (i + 1) (Nat.succ_lt_succ hi)
    rwa [show start + (i + 1) = start + 1 + i by omega] at this

/-- Refreshing `name` after its queues have changed, and only its. -/
theorem Rep.refreshed {ts : Nat → OrderedMap N (MinQueue Ms)} {name : N} (h : Rep m requireds lanes)
    (pos : ∀ required ∈ requireds, 1 ≤ required)
    (stored : ∀ i < requireds.length, Stored (ts i) (lanes' i))
    (others : ∀ other, other ≠ name → ∀ i < requireds.length,
      occurrences (lanes' i) other = occurrences (lanes i) other) :
    Rep (IncrementalMatcher.cleanTop (IncrementalMatcher.refresh { m with ts := ts } name))
      requireds lanes' := by
  have changed : Shape { m with ts := ts } :=
    ⟨h.shape.heap, h.shape.inside, h.shape.emptied, h.shape.sorted, h.shape.bounded, h.shape.covers⟩
  obtain ⟨shape, top⟩ := (changed.refresh name).cleanTop
  refine ⟨shape, ?_, fun i hi => ?_, fun other rep => ?_, fun e he => ?_⟩
  · rw [requireds_cleanTop, requireds_refresh]
    exact h.reqs
  · rw [ts_cleanTop, ts_refresh]
    exact stored i hi
  · rw [ready_cleanTop, ready_refresh]
    by_cases same : other = name
    · rw [if_pos same, same]
      exact repTs_iff h.reqs stored pos
    · rw [if_neg same, satisfied_congr (others other same),
        oldestFrom_congr 0 (by simpa using others other same)]
      exact h.ready other rep
  · rw [ready_cleanTop]
    exact top e he

theorem Rep.new (ne : requireds ≠ []) (pos : ∀ required ∈ requireds, 1 ≤ required) :
    Rep (IncrementalMatcher.new requireds : IncrementalMatcher N) requireds (fun _ => []) where
  shape := {
    heap := fun k _ x hx => by simp [IncrementalMatcher.new] at hx
    inside := Nat.le_refl 0
    emptied := fun _ => rfl
    sorted := fun _ => List.Pairwise.nil
    bounded := fun _ e he => (List.not_mem_nil he).elim
    covers := nofun }
  reqs := rfl
  stored := fun _ _ _ => rfl
  ready := by
    intro name rep
    constructor
    · nofun
    · rintro ⟨holds, _⟩
      obtain ⟨required, rest, rfl⟩ := List.exists_cons_of_ne_nil ne
      have := holds 0 required rfl
      have := pos required List.mem_cons_self
      simp [occurrences] at *
      omega
  top := nofun

/-- One more token of `name` at the end of lane `i`. -/
theorem Rep.add (h : Rep m requireds lanes) (pos : ∀ required ∈ requireds, 1 ≤ required) {i : Nat}
    (name : N) (createdAt : Ms) :
    Rep (m.add i name createdAt) requireds
      (Function.update lanes i (lanes i ++ [(name, createdAt)])) := by
  refine h.refreshed pos (fun j hj => ?_) fun other hother j hj => ?_
  · by_cases hji : j = i
    · subst hji
      rw [Function.update_self, Function.update_self]
      intro other
      rw [OrderedMap.get?_set, occurrences_append, occurrences_cons]
      have before := h.stored j hj
      by_cases same : other = name
      · subst same
        rw [if_pos rfl, if_pos rfl]
        have := before other
        cases hq : (m.ts j).get? other with
        | none =>
          rw [hq] at this
          simp only [Option.map_some, Option.getD_some, Option.getD_none, MinQueue.toList_pushBack,
            MinQueue.toList_empty, ← this, Option.map_none]
          rfl
        | some q =>
          rw [hq] at this
          simp only [Option.map_some, Option.getD_some, MinQueue.toList_pushBack, ← this]
          rfl
      · rw [if_neg same, if_neg (Ne.symm same)]
        exact (before other).trans (List.append_nil _).symm
    · rw [Function.update_of_ne hji, Function.update_of_ne hji]
      exact h.stored j hj
  · by_cases hji : j = i
    · subst hji
      rw [Function.update_self, occurrences_append, occurrences_cons, if_neg (Ne.symm hother)]
      exact List.append_nil _
    · rw [Function.update_of_ne hji]

theorem toList_popFront_iterate (n : Nat) (q : MinQueue Ms) :
    (MinQueue.popFront^[n] q).toList = q.toList.drop n := by
  induction n generalizing q with
  | zero => rfl
  | succ n ih =>
    rw [Function.iterate_succ_apply, ih, MinQueue.toList_popFront, ← List.drop_one, List.drop_drop,
      Nat.add_comm]

theorem get?_consumeFrom (tokens : OrderedMap N (MinQueue Ms)) (name other : N) (required : Nat) :
    (((IncrementalMatcher.consumeFrom tokens name required).get? other).map MinQueue.toList).getD [] =
      if other = name then (((tokens.get? name).map MinQueue.toList).getD []).drop required
      else ((tokens.get? other).map MinQueue.toList).getD [] := by
  unfold IncrementalMatcher.consumeFrom
  cases hq : tokens.get? name with
  | none =>
    dsimp only
    by_cases same : other = name
    · rw [if_pos same, same, hq]
      simp
    · rw [if_neg same]
  | some q =>
    dsimp only
    by_cases same : other = name
    · rw [if_pos same, same]
      split
      next empty =>
        rw [MinQueue.size_eq, List.length_eq_zero_iff, toList_popFront_iterate] at empty
        rw [OrderedMap.get?_delete, if_pos rfl]
        simp [empty]
      next =>
        rw [OrderedMap.get?_set, if_pos rfl]
        simp [toList_popFront_iterate]
    · rw [if_neg same]
      split
      · rw [OrderedMap.get?_delete, if_neg same]
      · rw [OrderedMap.get?_set, if_neg same]

/-- The `required` oldest tokens of `name` leave every lane. -/
theorem Rep.consume (h : Rep m requireds lanes) (pos : ∀ required ∈ requireds, 1 ≤ required) (name : N)
    (taken : ∀ i required, requireds[i]? = some required →
      occurrences (lanes' i) name = (occurrences (lanes i) name).drop required)
    (others : ∀ other, other ≠ name → ∀ i < requireds.length,
      occurrences (lanes' i) other = occurrences (lanes i) other) :
    Rep (m.consume name) requireds lanes' := by
  refine h.refreshed pos (fun i hi => ?_) others
  have hreq : m.requireds[i]? = some requireds[i] := by
    rw [h.reqs]
    exact List.getElem?_eq_getElem hi
  intro other
  simp only [hreq]
  rw [get?_consumeFrom]
  by_cases same : other = name
  · rw [if_pos same, same, taken i _ (List.getElem?_eq_getElem hi), h.stored i hi name]
  · rw [if_neg same, others other same i hi, h.stored i hi other]

/-- A matcher over other lanes with the same occurrences. -/
theorem Rep.congr (h : Rep m requireds lanes)
    (same : ∀ i < requireds.length, ∀ name,
      occurrences (lanes' i) name = occurrences (lanes i) name) : Rep m requireds lanes' where
  shape := h.shape
  reqs := h.reqs
  stored := fun i hi name => (h.stored i hi name).trans (same i hi name).symm
  ready := fun name rep => by
    rw [satisfied_congr (fun i hi => same i hi name),
      oldestFrom_congr 0 (by simpa using fun i hi => same i hi name)]
    exact h.ready name rep
  top := h.top

/-- The top of the active structure is at most every entry in it. -/
theorem Shape.top_le (h : Shape m) {top e : ReadyEntry N} (htop : (active m).head? = some top)
    (he : e ∈ active m) : top ≤ e := by
  unfold active at htop he
  cases hheaped : m.heaped with
  | true =>
    rw [hheaped, if_pos rfl] at htop he
    obtain ⟨k, hk, rfl⟩ := List.getElem_of_mem he
    rw [List.head?_eq_getElem?, Array.getElem?_toList] at htop
    exact BinaryHeap.root_le h.heap k top htop _ (by
      rw [← Array.getElem?_toList]
      exact List.getElem?_eq_getElem hk)
  | false =>
    rw [hheaped, if_neg Bool.false_ne_true] at htop he
    have sorted := h.sorted hheaped
    cases hlist : m.fifo.drop m.fifoHead with
    | nil =>
      rw [hlist] at he
      cases he
    | cons x rest =>
      rw [hlist] at htop he sorted
      cases htop
      rcases List.mem_cons.mp he with rfl | he
      · exact le_refl _
      · exact (List.pairwise_cons.mp sorted).1 e he

theorem best_eq_head (m : IncrementalMatcher N) :
    m.best = (active m).head?.map fun top => (ofLex top).2 := by
  unfold IncrementalMatcher.best active
  split
  · rw [List.head?_eq_getElem?, Array.getElem?_toList]
  · rw [List.head?_eq_getElem?, List.getElem?_drop, Nat.add_zero]

/-- `best` reads the name the lanes select. -/
theorem Rep.best_selects (h : Rep m requireds lanes) : Selects requireds lanes m.best := by
  have waits : ∀ name, Satisfied requireds lanes name → rank requireds lanes name ∈ active m :=
    fun name holds => h.shape.covers name _ ((h.ready name _).mpr ⟨holds, rfl⟩)
  rw [best_eq_head]
  cases htop : (active m).head? with
  | none =>
    intro name holds
    have := waits name holds
    rw [List.head?_eq_none_iff.mp htop] at this
    cases this
  | some top =>
    have fresh := h.top top htop
    have isReady : m.ready.get? (ofLex top).2 = some (ofLex top).1 := by
      simpa [IncrementalMatcher.stale] using fresh
    obtain ⟨holds, oldest⟩ := (h.ready _ _).mp isReady
    refine ⟨holds, fun other hother => ?_⟩
    have ranked : rank requireds lanes (ofLex top).2 = top := by
      rw [rank, ← oldest]
      rfl
    rw [ranked]
    exact h.shape.top_le htop (waits other hother)

end Representation

end LibPetri.Verified

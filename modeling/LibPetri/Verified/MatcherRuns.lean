import LibPetri.Runtime.Executor
import LibPetri.Verified.IncrementalMatcher

/-! # Runs of the incremental matcher

Tokens come to the correlated inputs of a transition, and bindings leave them.  Whatever the order, the
matcher names the binding that a search over the queues finds.
-/

namespace LibPetri.Verified

open LibPetri.Basis LibPetri.Core LibPetri.Runtime

variable {V N : Type} [LinearOrder N]

/-! ## Operations -/

inductive MatcherOp (V : Type)
  | add (place : PlaceName) (token : Token V)
  | consume

/-- A matcher beside the queues it mirrors. -/
structure Mirror (V N : Type) [LinearOrder N] where
  matcher : IncrementalMatcher N
  queue : PlaceName → List (Token V)

/-- The token carries `name`. -/
def carries (key : KeyFn V N) (name : N) (token : Token V) : Bool :=
  match key token.value with
  | .ok (some found) => found = name
  | _ => false

/-- Removes the oldest tokens that carry `name`, one after the other. -/
def removeNamed (key : KeyFn V N) (name : N) : Nat → List (Token V) → List (Token V)
  | 0, queue => queue
  | n + 1, queue => removeNamed key name n (queue.eraseP (carries key name))

section Operations

variable (t : Transition V N) (ms : MatchSpec V N)

def requiredCounts : List Nat := ms.keys.map fun k => requiredFor t k.place

/-- A token is added to its queue, and under its name to the matcher.  Where the projection throws, the
token does not get there. -/
def Mirror.add (place : PlaceName) (token : Token V) (s : Mirror V N) : Mirror V N :=
  let queue := Function.update s.queue place (s.queue place ++ [token])
  match ms.keys.zipIdx.find? fun k => k.1.place = place with
  | none => { s with queue }
  | some (k, i) =>
    match k.key token.value with
    | .error _ => s
    | .ok none => { s with queue }
    | .ok (some name) => ⟨s.matcher.add i name token.createdAt, queue⟩

/-- What a binding leaves of a queue. -/
def withoutBinding (name : N) (p : PlaceName) (queue : List (Token V)) : List (Token V) :=
  ((keyForPlace ms p).map fun key => removeNamed key name (requiredFor t p) queue).getD queue

/-- The binding that the matcher names leaves every correlated queue. -/
def Mirror.consume (s : Mirror V N) : Mirror V N :=
  match s.matcher.best with
  | none => s
  | some name => ⟨s.matcher.consume name, fun p => withoutBinding t ms name p (s.queue p)⟩

def Mirror.step (s : Mirror V N) : MatcherOp V → Mirror V N
  | .add place token => s.add ms place token
  | .consume => s.consume t ms

end Operations

/-! ## Queues and lanes -/

/-- The lanes of the queues. -/
def lanesOf (ms : MatchSpec V N) (queue : PlaceName → List (Token V)) (i : Nat) : List (N × Ms) :=
  match ms.keys[i]? with
  | none => []
  | some k => carried k.key (queue k.place)

section Lanes

variable {key : KeyFn V N} {name other : N}

theorem occurrences_carried_cons (token : Token V) (queue : List (Token V)) :
    occurrences (carried key (token :: queue)) name =
      if carries key name token then token.createdAt :: occurrences (carried key queue) name
      else occurrences (carried key queue) name := by
  unfold carried carries
  rw [List.filterMap_cons]
  cases key token.value with
  | error e => rfl
  | ok found =>
    cases found with
    | none => rfl
    | some found =>
      dsimp only
      rw [occurrences_cons]
      simp only [decide_eq_true_eq]

theorem occurrences_eraseP (queue : List (Token V)) :
    occurrences (carried key (queue.eraseP (carries key name))) name =
      (occurrences (carried key queue) name).tail := by
  induction queue with
  | nil => rfl
  | cons token queue ih =>
    rw [occurrences_carried_cons]
    by_cases here : carries key name token = true
    · rw [List.eraseP_cons_of_pos here, if_pos here, List.tail_cons]
    · rw [List.eraseP_cons_of_neg here, if_neg here, occurrences_carried_cons, if_neg here, ih]

theorem occurrences_eraseP_of_ne (ne : other ≠ name) (queue : List (Token V)) :
    occurrences (carried key (queue.eraseP (carries key name))) other =
      occurrences (carried key queue) other := by
  induction queue with
  | nil => rfl
  | cons token queue ih =>
    rw [occurrences_carried_cons]
    by_cases here : carries key name token = true
    · have apart : ¬carries key other token = true := by
        unfold carries at here ⊢
        cases found : key token.value with
        | error e => simp
        | ok found' =>
          cases found' with
          | none => simp
          | some found' =>
            simp only [found, decide_eq_true_eq] at here ⊢
            exact fun same => ne (same.symm.trans here)
      rw [List.eraseP_cons_of_pos here, if_neg apart]
    · rw [List.eraseP_cons_of_neg here, occurrences_carried_cons, ih]

theorem occurrences_removeNamed (n : Nat) (queue : List (Token V)) :
    occurrences (carried key (removeNamed key name n queue)) name =
      (occurrences (carried key queue) name).drop n := by
  induction n generalizing queue with
  | zero => rfl
  | succ n ih =>
    rw [removeNamed, ih, occurrences_eraseP, ← List.drop_one, List.drop_drop, Nat.add_comm]

theorem occurrences_removeNamed_of_ne (ne : other ≠ name) (n : Nat) (queue : List (Token V)) :
    occurrences (carried key (removeNamed key name n queue)) other =
      occurrences (carried key queue) other := by
  induction n generalizing queue with
  | zero => rfl
  | succ n ih => rw [removeNamed, ih, occurrences_eraseP_of_ne ne]

theorem removeNamed_subset (n : Nat) (queue : List (Token V)) :
    removeNamed key name n queue ⊆ queue := by
  induction n generalizing queue with
  | zero => exact fun _ mem => mem
  | succ n ih => exact fun _ mem => List.eraseP_subset (ih _ mem)

end Lanes

/-! ## The invariant -/

/-- The matcher stands for its queues, whose tokens have been projected. -/
structure Represents (t : Transition V N) (ms : MatchSpec V N) (s : Mirror V N) : Prop where
  rep : Rep s.matcher (requiredCounts t ms) (lanesOf ms s.queue)
  projected : ∀ k ∈ ms.keys, ∀ token ∈ s.queue k.place, ∃ name, k.key token.value = .ok name

/-- The matcher stands for its queues, whose tokens have been projected and carry safe timestamps. -/
structure Faithful (t : Transition V N) (ms : MatchSpec V N) (s : Mirror V N) : Prop where
  rep : Rep s.matcher (requiredCounts t ms) (lanesOf ms s.queue)
  projected : ∀ k ∈ ms.keys, ∀ token ∈ s.queue k.place, ∃ name, k.key token.value = .ok name
  safe : ∀ k ∈ ms.keys, ∀ token ∈ s.queue k.place, token.createdAt ≤ MAX_SAFE_INTEGER

section Invariant

variable {t : Transition V N} {ms : MatchSpec V N} {s : Mirror V N}

omit [LinearOrder N] in
theorem requiredFor_pos (t : Transition V N) (p : PlaceName) : 1 ≤ requiredFor t p := by
  unfold requiredFor
  cases found : t.inputSpecs.find? fun spec => spec.place = p with
  | none => exact le_rfl
  | some spec => exact t.required_pos spec (List.mem_of_find?_eq_some found)

omit [LinearOrder N] in
theorem requiredCounts_pos : ∀ required ∈ requiredCounts t ms, 1 ≤ required := by
  intro required mem
  obtain ⟨k, -, rfl⟩ := List.mem_map.mp mem
  exact requiredFor_pos t k.place

omit [LinearOrder N] in
/-- The key of a place, with its position. -/
theorem find?_zipIdx_eq_some {place : PlaceName} {k : MatchKey V N} {i : Nat}
    (found : (ms.keys.zipIdx.find? fun k => k.1.place = place) = some (k, i)) :
    ms.keys[i]? = some k ∧ k.place = place :=
  ⟨List.mem_zipIdx_iff_getElem?.mp (List.mem_of_find?_eq_some found),
    by simpa using List.find?_some found⟩

omit [LinearOrder N] in
theorem find?_zipIdx_eq_none {place : PlaceName}
    (missing : (ms.keys.zipIdx.find? fun k => k.1.place = place) = none) :
    ∀ k ∈ ms.keys, k.place ≠ place := by
  intro k mem
  obtain ⟨i, at_⟩ := List.mem_iff_getElem?.mp mem
  have := List.find?_eq_none.mp missing (k, i) (List.mem_zipIdx_iff_getElem?.mpr at_)
  simpa using this

omit [LinearOrder N] in
/-- No place is keyed twice. -/
theorem key_unique (distinct : (ms.keys.map MatchKey.place).Nodup) {i j : Nat} {k k' : MatchKey V N}
    (here : ms.keys[i]? = some k) (there : ms.keys[j]? = some k') (same : k.place = k'.place) :
    i = j := by
  have bound : i < (ms.keys.map MatchKey.place).length := by
    rw [List.length_map]
    exact (List.getElem?_eq_some_iff.mp here).1
  refine (List.getElem?_inj bound distinct).mp ?_
  rw [List.getElem?_map, List.getElem?_map, here, there, Option.map_some, Option.map_some, same]

omit [LinearOrder N] in
theorem lanesOf_push (queue : PlaceName → List (Token V)) (place : PlaceName) (token : Token V)
    {j : Nat} {k : MatchKey V N} (at_ : ms.keys[j]? = some k) :
    lanesOf ms (Function.update queue place (queue place ++ [token])) j =
      if k.place = place then lanesOf ms queue j ++ carried k.key [token] else lanesOf ms queue j := by
  unfold lanesOf
  rw [at_]
  dsimp only
  by_cases here : k.place = place
  · subst here
    rw [if_pos rfl, Function.update_self, carried_append]
  · rw [if_neg here, Function.update_of_ne here]

omit [LinearOrder N] in
theorem bound_of_getElem? {j : Nat} (bound : j < (requiredCounts t ms).length) :
    ∃ k, ms.keys[j]? = some k := by
  rw [requiredCounts, List.length_map] at bound
  exact ⟨_, List.getElem?_eq_getElem bound⟩

theorem Faithful.represents (h : Faithful t ms s) : Represents t ms s := ⟨h.rep, h.projected⟩

/-- A queue that grows by a projected token. -/
theorem Represents.push (h : Represents t ms s) {place : PlaceName} {token : Token V}
    {matcher : IncrementalMatcher N}
    (rep : Rep matcher (requiredCounts t ms)
      (lanesOf ms (Function.update s.queue place (s.queue place ++ [token]))))
    (projected : ∀ k ∈ ms.keys, k.place = place → ∃ name, k.key token.value = .ok name) :
    Represents t ms ⟨matcher, Function.update s.queue place (s.queue place ++ [token])⟩ := by
  refine ⟨rep, fun k mem token' at_ => ?_⟩
  by_cases here : k.place = place
  · dsimp only at at_
    rw [here, Function.update_self, List.mem_append, List.mem_singleton] at at_
    rcases at_ with old | rfl
    · exact h.projected k mem token' (here ▸ old)
    · exact projected k mem here
  · dsimp only at at_
    rw [Function.update_of_ne here] at at_
    exact h.projected k mem token' at_

theorem buildNameIndexFrom_ok {key : KeyFn V N} {tokens : List (Token V)}
    (projected : ∀ token ∈ tokens, ∃ name, key token.value = .ok name)
    (index : OrderedMap N NameStat) : ∃ index', buildNameIndexFrom key tokens index = .ok index' := by
  induction tokens generalizing index with
  | nil => exact ⟨index, rfl⟩
  | cons token tokens ih =>
    have later := ih fun token mem => projected token (List.mem_cons_of_mem _ mem)
    obtain ⟨name, found⟩ := projected token List.mem_cons_self
    rw [buildNameIndexFrom, found]
    cases name with
    | none => exact later index
    | some name => exact later _

/-- Where nothing throws, every queue has its index. -/
theorem exists_indexes {keys : List (MatchKey V N)} {queue : PlaceName → List (Token V)}
    (projected : ∀ k ∈ keys, ∀ token ∈ queue k.place, ∃ name, k.key token.value = .ok name) :
    ∃ perPlace, (keys.mapM fun k => buildNameIndex (queue k.place) k.key) = Except.ok perPlace ∧
      perPlace.length = keys.length ∧ ∀ (j : Nat) k index, keys[j]? = some k →
        perPlace[j]? = some index → buildNameIndex (queue k.place) k.key = .ok index := by
  induction keys with
  | nil => exact ⟨[], rfl, rfl, fun j k index at_ => by cases at_⟩
  | cons k keys ih =>
    obtain ⟨perPlace, indexed, length, describes⟩ :=
      ih fun k mem => projected k (List.mem_cons_of_mem _ mem)
    obtain ⟨index, here⟩ := buildNameIndexFrom_ok (projected k List.mem_cons_self) OrderedMap.empty
    refine ⟨index :: perPlace, ?_, by simp [length], fun j k' index' at_ there => ?_⟩
    · rw [List.mapM_cons, show buildNameIndex (queue k.place) k.key = .ok index from here, indexed]
      rfl
    · cases j with
      | zero =>
        obtain rfl := Option.some.inj at_
        exact Option.some.inj there ▸ here
      | succ j => exact describes j k' index' at_ there

theorem Represents.add (h : Represents t ms s) (distinct : (ms.keys.map MatchKey.place).Nodup)
    (place : PlaceName) (token : Token V) : Represents t ms (s.add ms place token) := by
  unfold Mirror.add
  dsimp only
  split
  next missing =>
    have elsewhere := find?_zipIdx_eq_none missing
    refine h.push (h.rep.congr fun j bound name => ?_) fun k mem here => absurd here (elsewhere k mem)
    obtain ⟨k, at_⟩ := bound_of_getElem? bound
    rw [lanesOf_push s.queue place token at_,
      if_neg (elsewhere k (List.mem_iff_getElem?.mpr ⟨j, at_⟩))]
  next k i found =>
    obtain ⟨at_, rfl⟩ := find?_zipIdx_eq_some found
    have only (k' : MatchKey V N) (mem : k' ∈ ms.keys) (same : k'.place = k.place) : k' = k := by
      obtain ⟨j, there⟩ := List.mem_iff_getElem?.mp mem
      obtain rfl := key_unique distinct there at_ same
      exact Option.some.inj (there.symm.trans at_)
    split
    next => exact h
    next unnamed =>
      refine h.push (h.rep.congr fun j bound name => ?_) fun k' mem same => ⟨none, only k' mem same ▸ unnamed⟩
      obtain ⟨k', there⟩ := bound_of_getElem? bound
      rw [lanesOf_push s.queue k.place token there]
      split
      next same =>
        obtain rfl := only k' (List.mem_iff_getElem?.mpr ⟨j, there⟩) same
        simp [carried, unnamed]
      next => rfl
    next name named =>
      have added := h.rep.add requiredCounts_pos (i := i) name token.createdAt
      refine h.push (added.congr fun j bound other => ?_) fun k' mem same => ⟨some name, only k' mem same ▸ named⟩
      obtain ⟨k', there⟩ := bound_of_getElem? bound
      rw [lanesOf_push s.queue k.place token there]
      by_cases same : j = i
      · subst same
        obtain rfl := Option.some.inj (there.symm.trans at_)
        rw [if_pos rfl, Function.update_self]
        simp [carried, named]
      · rw [Function.update_of_ne same, if_neg fun same' => same (key_unique distinct there at_ same')]

theorem mem_queue_add {place p : PlaceName} {token token' : Token V}
    (mem : token' ∈ (s.add ms place token).queue p) : token' ∈ s.queue p ∨ token' = token := by
  have grown (at_ : token' ∈ Function.update s.queue place (s.queue place ++ [token]) p) :
      token' ∈ s.queue p ∨ token' = token := by
    by_cases here : p = place
    · rw [here, Function.update_self, List.mem_append, List.mem_singleton] at at_
      exact at_.imp (here ▸ ·) id
    · rw [Function.update_of_ne here] at at_
      exact .inl at_
  unfold Mirror.add at mem
  dsimp only at mem
  split at mem
  next => exact grown mem
  next =>
    split at mem
    next => exact .inl mem
    next => exact grown mem
    next => exact grown mem

theorem Faithful.add (h : Faithful t ms s) (distinct : (ms.keys.map MatchKey.place).Nodup)
    {place : PlaceName} {token : Token V} (safe : token.createdAt ≤ MAX_SAFE_INTEGER) :
    Faithful t ms (s.add ms place token) := by
  have represents := h.represents.add distinct place token
  refine ⟨represents.rep, represents.projected, fun k mem token' at_ => ?_⟩
  rcases mem_queue_add at_ with old | rfl
  · exact h.safe k mem token' old
  · exact safe

omit [LinearOrder N] in
theorem keyForPlace_of_getElem? (distinct : (ms.keys.map MatchKey.place).Nodup) {i : Nat}
    {k : MatchKey V N} (at_ : ms.keys[i]? = some k) : keyForPlace ms k.place = some k.key := by
  unfold keyForPlace
  cases found : ms.keys.find? fun k' => k'.place = k.place with
  | none =>
    have := List.find?_eq_none.mp found k (List.mem_iff_getElem?.mpr ⟨i, at_⟩)
    simp at this
  | some k' =>
    obtain ⟨j, there⟩ := List.mem_iff_getElem?.mp (List.mem_of_find?_eq_some found)
    have same : k'.place = k.place := by simpa using List.find?_some found
    obtain rfl := key_unique distinct there at_ same
    rw [Option.some.inj (there.symm.trans at_)]
    rfl

omit [LinearOrder N] in
theorem keyForPlace_of_mem (distinct : (ms.keys.map MatchKey.place).Nodup) {k : MatchKey V N} (mem : k ∈ ms.keys) :
    keyForPlace ms k.place = some k.key := by
  obtain ⟨i, at_⟩ := List.mem_iff_getElem?.mp mem
  exact keyForPlace_of_getElem? distinct at_

theorem withoutBinding_key (distinct : (ms.keys.map MatchKey.place).Nodup) {k : MatchKey V N} (mem : k ∈ ms.keys)
    (name : N) (queue : List (Token V)) :
    withoutBinding t ms name k.place queue = removeNamed k.key name (requiredFor t k.place) queue := by
  unfold withoutBinding
  rw [keyForPlace_of_mem distinct mem]
  rfl

theorem Represents.consume (h : Represents t ms s) (distinct : (ms.keys.map MatchKey.place).Nodup) :
    Represents t ms (s.consume t ms) := by
  unfold Mirror.consume
  split
  next => exact h
  next name best =>
    refine ⟨h.rep.consume requiredCounts_pos name (fun i required at_ => ?_) fun other ne i bound => ?_,
      fun k mem token at_ => ?_⟩
    · rw [requiredCounts, List.getElem?_map] at at_
      obtain ⟨k, there, rfl⟩ := Option.map_eq_some_iff.mp at_
      unfold lanesOf
      rw [there]
      dsimp only
      rw [withoutBinding_key distinct (List.mem_iff_getElem?.mpr ⟨i, there⟩), occurrences_removeNamed]
    · obtain ⟨k, there⟩ := bound_of_getElem? bound
      unfold lanesOf
      rw [there]
      dsimp only
      rw [withoutBinding_key distinct (List.mem_iff_getElem?.mpr ⟨i, there⟩), occurrences_removeNamed_of_ne ne]
    · dsimp only at at_
      rw [withoutBinding_key distinct mem] at at_
      exact h.projected k mem token (removeNamed_subset _ _ at_)

theorem Faithful.consume (h : Faithful t ms s) (distinct : (ms.keys.map MatchKey.place).Nodup) :
    Faithful t ms (s.consume t ms) := by
  have represents := h.represents.consume distinct
  refine ⟨represents.rep, represents.projected, fun k mem token at_ => ?_⟩
  unfold Mirror.consume at at_
  split at at_
  next => exact h.safe k mem token at_
  next name best =>
    dsimp only at at_
    rw [withoutBinding_key distinct mem] at at_
    exact h.safe k mem token (removeNamed_subset _ _ at_)

/-- A search over the queues finds what the matcher names. -/
theorem Faithful.findBinding_eq (h : Faithful t ms s) (matched : t.matchSpec = some ms)
    (some_key : ms.keys ≠ []) : findBinding t s.queue = .ok s.matcher.best := by
  obtain ⟨perPlace, indexed, length, describes⟩ := exists_indexes h.projected
  have ne : requiredCounts t ms ≠ [] := by simpa [requiredCounts] using some_key
  have sameLength : perPlace.length = (requiredCounts t ms).length := by
    rw [length, requiredCounts, List.length_map]
  have selects : Selects (requiredCounts t ms) (lanesOf ms s.queue)
      (selectMatchName perPlace (requiredCounts t ms)) :=
    selectMatchName_selects sameLength ne requiredCounts_pos (fun j index required at_ => ?_)
      fun i bound e mem => ?_
  · unfold findBinding
    rw [matched]
    dsimp only
    rw [indexed]
    exact congrArg Except.ok (selects.unique h.rep.best_selects)
  · obtain ⟨index_at, required_at⟩ := List.getElem?_zip_eq_some.mp at_
    refine ⟨requiredCounts_pos required (List.mem_iff_getElem?.mpr ⟨j, required_at⟩), fun name => ?_⟩
    obtain ⟨k, there⟩ := bound_of_getElem? (List.getElem?_eq_some_iff.mp required_at).1
    rw [Nat.zero_add, lanesOf, there]
    exact buildNameIndex_get? (describes j k index there index_at) name
  · obtain ⟨k, there⟩ := bound_of_getElem? bound
    rw [lanesOf, there] at mem
    obtain ⟨token, queued, carried_⟩ := List.mem_filterMap.mp mem
    have stamp : e.2 = token.createdAt := by
      cases found : k.key token.value with
      | error _ => rw [found] at carried_; cases carried_
      | ok name =>
        cases name with
        | none => rw [found] at carried_; cases carried_
        | some name => rw [found] at carried_; exact (Option.some.inj carried_) ▸ rfl
    rw [stamp]
    exact h.safe k (List.mem_iff_getElem?.mpr ⟨i, there⟩) token queued

end Invariant

/-! ## Seeding -/

section Seeding

variable {t : Transition V N} {ms : MatchSpec V N} {queue : PlaceName → List (Token V)}

theorem Rep.seedCache {key : KeyFn V N} {i : Nat} {tokens : List (Token V)}
    {cache cache' : IncrementalMatcher N} {requireds : List Nat} {lanes : Nat → List (N × Ms)}
    (pos : ∀ required ∈ requireds, 1 ≤ required) (h : Rep cache requireds lanes)
    (seeded : Executor.seedCache key i tokens cache = .ok cache') :
    Rep cache' requireds (Function.update lanes i (lanes i ++ carried key tokens)) ∧
      ∀ token ∈ tokens, ∃ name, key token.value = .ok name := by
  induction tokens generalizing cache lanes with
  | nil =>
    obtain rfl := Except.ok.inj seeded
    refine ⟨?_, (fun _ mem => by cases mem)⟩
    rw [carried, List.filterMap_nil, List.append_nil, Function.update_eq_self]
    exact h
  | cons token tokens ih =>
    obtain ⟨found, projected, seeded⟩ := exists_of_bind_eq_ok seeded
    have all {P : Token V → Prop} (here : P token) (later : ∀ token ∈ tokens, P token) :
        ∀ token' ∈ token :: tokens, P token' := List.forall_mem_cons.mpr ⟨here, later⟩
    have split : carried key (token :: tokens) = carried key [token] ++ carried key tokens :=
      carried_append key [token] tokens
    cases found with
    | none =>
      obtain ⟨rep, later⟩ := ih h seeded
      refine ⟨?_, all ⟨none, projected⟩ later⟩
      rw [split]
      simpa [carried, projected] using rep
    | some name =>
      obtain ⟨rep, later⟩ := ih (h.add pos name token.createdAt) seeded
      refine ⟨?_, all ⟨some name, projected⟩ later⟩
      rw [Function.update_self, Function.update_idem, List.append_assoc] at rep
      rw [split]
      simpa [carried, projected] using rep

variable (queue) in
/-- The caches of the keys from `n` on. -/
theorem Rep.seedCaches {n : Nat} {keys : List (MatchKey V N)} {cache cache' : IncrementalMatcher N}
    (split : ms.keys.drop n = keys)
    (h : Rep cache (requiredCounts t ms) fun i => if i < n then lanesOf ms queue i else [])
    (seeded : Executor.seedCaches queue n keys cache = .ok cache') :
    Rep cache' (requiredCounts t ms) (lanesOf ms queue) ∧
      ∀ k ∈ keys, ∀ token ∈ queue k.place, ∃ name, k.key token.value = .ok name := by
  induction keys generalizing n cache with
  | nil =>
    obtain rfl := Except.ok.inj seeded
    refine ⟨h.congr fun i bound name => ?_, (fun _ mem => by cases mem)⟩
    have past : ms.keys.length ≤ n := List.drop_eq_nil_iff.mp split
    rw [requiredCounts, List.length_map] at bound
    rw [if_pos (bound.trans_le past)]
  | cons k keys ih =>
    obtain ⟨between, first, rest⟩ := exists_of_bind_eq_ok seeded
    obtain ⟨rep, projected⟩ := h.seedCache requiredCounts_pos first
    have at_ : ms.keys[n]? = some k := by
      rw [← List.head?_drop, split]
      rfl
    have rest_keys : ms.keys.drop (n + 1) = keys := by
      rw [← List.drop_drop, split, List.drop_one, List.tail_cons]
    have started : Rep between (requiredCounts t ms)
        fun i => if i < n + 1 then lanesOf ms queue i else [] := by
      refine rep.congr fun i bound name => ?_
      by_cases here : i = n
      · subst here
        simp [lanesOf, at_]
      · rw [Function.update_of_ne here]
        have : i < n + 1 ↔ i < n := by omega
        simp only [this]
    obtain ⟨rep, later⟩ := ih rest_keys started rest
    exact ⟨rep, List.forall_mem_cons.mpr ⟨projected, later⟩⟩

theorem faithful_seeded (some_key : ms.keys ≠ []) {matcher : IncrementalMatcher N}
    (seeded : Executor.seedCaches queue 0 ms.keys (.new (requiredCounts t ms)) = .ok matcher)
    (safe : ∀ p, ∀ token ∈ queue p, token.createdAt ≤ MAX_SAFE_INTEGER) :
    Faithful t ms ⟨matcher, queue⟩ := by
  have ne : requiredCounts t ms ≠ [] := by simpa [requiredCounts] using some_key
  obtain ⟨rep, projected⟩ := Rep.seedCaches queue List.drop_zero
    ((Rep.new ne requiredCounts_pos).congr fun i _ name => by simp) seeded
  exact ⟨rep, projected, fun k _ => safe k.place⟩

end Seeding

/-! ## Runs -/

section Runs

variable {t : Transition V N} {ms : MatchSpec V N}

/-- The token of an addition carries a safe timestamp. -/
def MatcherOp.Safe : MatcherOp V → Prop
  | .add _ token => token.createdAt ≤ MAX_SAFE_INTEGER
  | .consume => True

theorem Faithful.step {s : Mirror V N} (h : Faithful t ms s)
    (distinct : (ms.keys.map MatchKey.place).Nodup) {op : MatcherOp V} (safe : op.Safe) :
    Faithful t ms (s.step t ms op) := by
  cases op with
  | add place token => exact h.add distinct safe
  | consume => exact h.consume distinct

theorem Faithful.run {s : Mirror V N} (h : Faithful t ms s)
    (distinct : (ms.keys.map MatchKey.place).Nodup) {ops : List (MatcherOp V)}
    (safe : ∀ op ∈ ops, op.Safe) : Faithful t ms (ops.foldl (Mirror.step t ms) s) := by
  induction ops generalizing s with
  | nil => exact h
  | cons op ops ih =>
    exact ih (h.step distinct (safe op List.mem_cons_self))
      fun op mem => safe op (List.mem_cons_of_mem _ mem)

/-- A match without keys binds nothing. -/
theorem best_of_no_keys (no_key : ms.keys = []) {s : Mirror V N} (start : s.matcher = .new [])
    (ops : List (MatcherOp V)) :
    (ops.foldl (Mirror.step t ms) s).matcher = .new [] := by
  induction ops generalizing s with
  | nil => exact start
  | cons op ops ih =>
    refine ih ?_
    cases op with
    | add place token => simp [Mirror.step, Mirror.add, no_key, start]
    | consume =>
      have none_ : s.matcher.best = none := by
        rw [start]
        rfl
      rw [Mirror.step, Mirror.consume, none_]
      exact start

/-- Whatever tokens the queues hold at first, come later, or leave with a binding: the matcher names what a
search over the queues finds. -/
theorem incremental_best (matched : t.matchSpec = some ms) {queue : PlaceName → List (Token V)}
    {matcher : IncrementalMatcher N}
    (seeded : Executor.seedCaches queue 0 ms.keys (.new (requiredCounts t ms)) = .ok matcher)
    (safe : ∀ p, ∀ token ∈ queue p, token.createdAt ≤ MAX_SAFE_INTEGER)
    {ops : List (MatcherOp V)} (safeOps : ∀ op ∈ ops, op.Safe) :
    findBinding t (ops.foldl (Mirror.step t ms) ⟨matcher, queue⟩).queue =
      .ok (ops.foldl (Mirror.step t ms) ⟨matcher, queue⟩).matcher.best := by
  by_cases no_key : ms.keys = []
  · have start : matcher = .new [] := by
      rw [requiredCounts, no_key] at seeded
      exact (Except.ok.inj seeded).symm
    rw [best_of_no_keys no_key start, findBinding, matched]
    dsimp only
    rw [no_key]
    rfl
  · have faithful := (faithful_seeded no_key seeded safe).run (t.keys_nodup ms matched) safeOps
    exact faithful.findBinding_eq matched no_key

end Runs

/-! ## A join -/

/-- The name a token is. -/
def ownName : KeyFn Nat Nat := fun name => .ok (some name)

def joinKeys : MatchSpec Nat Nat := ⟨[⟨"a", ownName⟩, ⟨"b", ownName⟩], []⟩

theorem join_inputs_nodup : ([In.one "a", In.one "b"].map In.place).Nodup := by decide

theorem join_required_pos : ∀ spec ∈ [In.one "a", In.one "b"], 1 ≤ spec.requiredCount := by decide

theorem join_keys_nodup : ∀ ms ∈ some joinKeys, (ms.keys.map MatchKey.place).Nodup := by
  intro ms mem
  obtain rfl := Option.mem_some_iff.mp mem
  exact join_inputs_nodup

theorem join_keys_inputs : ∀ ms ∈ some joinKeys, ∀ k ∈ ms.keys,
    k.place ∈ [In.one "a", In.one "b"].map In.place := by
  intro ms mem k key
  obtain rfl := Option.mem_some_iff.mp mem
  exact List.mem_map_of_mem key

/-- Joins a token of `a` with the token of `b` of the same name. -/
def joinTransition : Transition Nat Nat where
  name := "join"
  inputSpecs := [.one "a", .one "b"]
  outputSpec := none
  inhibitors := []
  reads := []
  resets := []
  timing := .immediate
  priority := 0
  placeAlias := []
  matchSpec := some joinKeys
  inputs_nodup := join_inputs_nodup
  required_pos := join_required_pos
  timing_valid := trivial
  keys_nodup := join_keys_nodup
  keys_inputs := join_keys_inputs

/-- Two names become ready, the younger one first, and one of them is bound. -/
def joinOps : List (MatcherOp Nat) :=
  [.add "a" ⟨1, 5⟩, .add "b" ⟨1, 5⟩, .add "a" ⟨2, 3⟩, .add "b" ⟨2, 4⟩, .consume]

theorem incremental_best_join :
    findBinding joinTransition
        (joinOps.foldl (Mirror.step joinTransition joinKeys) ⟨.new [1, 1], fun _ => []⟩).queue =
      .ok (joinOps.foldl (Mirror.step joinTransition joinKeys)
        ⟨.new [1, 1], fun _ => []⟩).matcher.best := by
  refine incremental_best rfl rfl (fun _ _ mem => by cases mem) ?_
  simp only [joinOps, List.forall_mem_cons, MatcherOp.Safe, MAX_SAFE_INTEGER]
  norm_num

end LibPetri.Verified

import LibPetri.Runtime.BitmapNetExecutor
import LibPetri.Runtime.PrecompiledNetExecutor

/-! # What the operations of a store do

Tokens and flights are seen through `queue` and `flight?` alone.  `Lawful` says what each operation
does to both, for the places of the net.  The stores of both executors are lawful, so what is proved
from the laws is proved of both.
-/

namespace LibPetri.Verified

open LibPetri.Basis LibPetri.Core LibPetri.Runtime CompiledNet

variable {V N : Type} {cfg : Setting V N} {S : Type}

/-- The queue without the token that was found. -/
def withoutFound (found : Except Thrown (Option (Nat × Token V))) (queue : List (Token V)) :
    List (Token V) :=
  match found with
  | .ok (some (index, _)) => queue.eraseIdx index
  | _ => queue

/-- No flight has changed. -/
def SameFlights (ops : StoreOps cfg S) (s s' : S) : Prop :=
  (∀ tid, ops.flight? tid s' = ops.flight? tid s) ∧ ops.inFlightSize s' = ops.inFlightSize s

structure Lawful (ops : StoreOps cfg S) : Prop where
  removeFirst : ∀ {p}, p ∈ placesById cfg.net → ∀ s, (ops.removeFirst p s).1 = (ops.queue p s).head?
  queue_removeFirst : ∀ {p}, p ∈ placesById cfg.net → ∀ s q,
    ops.queue q (ops.removeFirst p s).2 = if q = p then (ops.queue p s).tail else ops.queue q s
  flights_removeFirst : ∀ p s, SameFlights ops s (ops.removeFirst p s).2
  removeFirstMatching : ∀ {p}, p ∈ placesById cfg.net → ∀ predicate s,
    (ops.removeFirstMatching p predicate s).1 = findFirst predicate 0 (ops.queue p s)
  queue_removeFirstMatching : ∀ {p}, p ∈ placesById cfg.net → ∀ predicate s q,
    ops.queue q (ops.removeFirstMatching p predicate s).2 =
      if q = p then withoutFound (findFirst predicate 0 (ops.queue p s)) (ops.queue p s)
      else ops.queue q s
  flights_removeFirstMatching : ∀ p predicate s,
    SameFlights ops s (ops.removeFirstMatching p predicate s).2
  countMatching : ∀ {p}, p ∈ placesById cfg.net → ∀ predicate s,
    ops.countMatching p predicate s = countIf predicate (ops.queue p s)
  removeAll : ∀ {p}, p ∈ placesById cfg.net → ∀ s, (ops.removeAll p s).1 = ops.queue p s
  queue_removeAll : ∀ {p}, p ∈ placesById cfg.net → ∀ s q,
    ops.queue q (ops.removeAll p s).2 = if q = p then [] else ops.queue q s
  flights_removeAll : ∀ p s, SameFlights ops s (ops.removeAll p s).2
  flight?_register : ∀ tid flight s other,
    ops.flight? other (ops.register tid flight s) =
      if other = tid then some flight else ops.flight? other s
  queue_register : ∀ tid flight s q, ops.queue q (ops.register tid flight s) = ops.queue q s
  size_register : ∀ tid flight s, ops.flight? tid s = none →
    ops.inFlightSize (ops.register tid flight s) = ops.inFlightSize s + 1
  flight?_update : ∀ tid flight s other,
    ops.flight? other (ops.update tid flight s) =
      if other = tid then some flight else ops.flight? other s
  queue_update : ∀ tid flight s q, ops.queue q (ops.update tid flight s) = ops.queue q s
  size_update : ∀ tid flight s, (ops.flight? tid s).isSome →
    ops.inFlightSize (ops.update tid flight s) = ops.inFlightSize s
  flight?_unregister : ∀ tid s other,
    ops.flight? other (ops.unregister tid s) = if other = tid then none else ops.flight? other s
  queue_unregister : ∀ tid s q, ops.queue q (ops.unregister tid s) = ops.queue q s
  size_unregister : ∀ tid s, (ops.flight? tid s).isSome →
    ops.inFlightSize (ops.unregister tid s) = ops.inFlightSize s - 1

/-! ## The bitmap executor -/

section

variable (m : Marking V) (p q : PlaceName) (predicate : V → Except Thrown Bool)

theorem marking_removeFirst : (m.removeFirst p).1 = (m.peekTokens p).head? := by
  unfold Marking.removeFirst
  cases m.peekTokens p <;> rfl

theorem peekTokens_removeFirst : (m.removeFirst p).2.peekTokens q =
    if q = p then (m.peekTokens p).tail else m.peekTokens q := by
  unfold Marking.removeFirst
  cases h : m.peekTokens p with
  | nil =>
    by_cases same : q = p
    · subst same
      rw [if_pos rfl]
      exact h
    · rw [if_neg same]
  | cons token rest => exact Marking.peekTokens_set _ _ _ _

theorem marking_removeAll : (m.removeAll p).1 = m.peekTokens p := by
  unfold Marking.removeAll
  cases m.peekTokens p <;> rfl

theorem peekTokens_removeAll : (m.removeAll p).2.peekTokens q =
    if q = p then [] else m.peekTokens q := by
  unfold Marking.removeAll
  cases h : m.peekTokens p with
  | nil =>
    by_cases same : q = p
    · subst same
      rw [if_pos rfl]
      exact h
    · rw [if_neg same]
  | cons token rest => exact Marking.peekTokens_set _ _ _ _

theorem marking_removeFirstMatching : (m.removeFirstMatching p predicate).1 =
    findFirst predicate 0 (m.peekTokens p) := by
  unfold Marking.removeFirstMatching
  rcases findFirst predicate 0 (m.peekTokens p) with e | _ | ⟨i, token⟩ <;> rfl

theorem peekTokens_removeFirstMatching : (m.removeFirstMatching p predicate).2.peekTokens q =
    if q = p then withoutFound (findFirst predicate 0 (m.peekTokens p)) (m.peekTokens p)
    else m.peekTokens q := by
  have unchanged : m.peekTokens q = if q = p then m.peekTokens p else m.peekTokens q := by
    split
    next same => rw [same]
    next => rfl
  unfold Marking.removeFirstMatching
  rcases findFirst predicate 0 (m.peekTokens p) with e | _ | ⟨i, token⟩
  · exact unchanged
  · exact unchanged
  · exact Marking.peekTokens_set _ _ _ _

end

theorem BitmapNetExecutor.lawful (cfg : Setting V N) : Lawful (BitmapNetExecutor.storeOps cfg) where
  removeFirst _ _ := marking_removeFirst _ _
  queue_removeFirst _ _ _ := peekTokens_removeFirst _ _ _
  flights_removeFirst _ _ := ⟨fun _ => rfl, rfl⟩
  removeFirstMatching _ _ _ := marking_removeFirstMatching _ _ _
  queue_removeFirstMatching _ _ _ _ := peekTokens_removeFirstMatching _ _ _ _
  flights_removeFirstMatching _ _ _ := ⟨fun _ => rfl, rfl⟩
  countMatching _ _ _ := rfl
  removeAll _ _ := marking_removeAll _ _
  queue_removeAll _ _ _ := peekTokens_removeAll _ _ _
  flights_removeAll _ _ := ⟨fun _ => rfl, rfl⟩
  flight?_register _ _ _ _ := OrderedMap.get?_set _ _ _ _
  queue_register _ _ _ _ := rfl
  size_register _ _ _ absent := OrderedMap.size_set_of_absent _ _ absent
  flight?_update _ _ _ _ := OrderedMap.get?_set _ _ _ _
  queue_update _ _ _ _ := rfl
  size_update _ _ _ present := OrderedMap.size_set_of_present _ _ present
  flight?_unregister _ _ _ := OrderedMap.get?_delete _ _ _
  queue_unregister _ _ _ := rfl
  size_unregister tid s present := by
    obtain ⟨flight, h⟩ := Option.isSome_iff_exists.mp present
    have := OrderedMap.size_delete_of_present s.inFlight h
    show (s.inFlight.delete tid).size = s.inFlight.size - 1
    omega

/-! ## The precompiled executor -/

section

open PrecompiledNetExecutor

variable (s : PrecompiledStore cfg) {p : PlaceName}

theorem queueOf_known (known : p ∈ placesById cfg.net) :
    queueOf p s = s.tokenQueues (placeId cfg.net p) := by
  rw [queueOf, tryPlaceId_eq, if_pos known]

theorem queueOf_setQueue (known : p ∈ placesById cfg.net) (queue : List (Token V)) (q : PlaceName) :
    queueOf q (setQueue (placeId cfg.net p) queue s) = if q = p then queue else queueOf q s := by
  by_cases hq : q ∈ placesById cfg.net
  · rw [queueOf_known _ hq, queueOf_known _ hq]
    show Function.update s.tokenQueues _ queue _ = _
    rw [Function.update_apply]
    simp only [placeId_inj hq known]
  · have other : q ≠ p := fun same => hq (same ▸ known)
    rw [if_neg other, queueOf, queueOf, tryPlaceId_eq, if_neg hq]
    rfl

theorem queueOf_unchanged (q : PlaceName) :
    queueOf q s = if q = p then queueOf p s else queueOf q s := by
  split
  next same => rw [same]
  next => rfl

theorem shift_fst (known : p ∈ placesById cfg.net) :
    (shift (placeId cfg.net p) s).1 = (queueOf p s).head? := by
  rw [queueOf_known s known, shift]
  cases s.tokenQueues (placeId cfg.net p) <;> rfl

theorem queueOf_shift (known : p ∈ placesById cfg.net) (q : PlaceName) :
    queueOf q (shift (placeId cfg.net p) s).2 =
      if q = p then (queueOf p s).tail else queueOf q s := by
  have here := queueOf_known s known
  unfold shift
  cases h : s.tokenQueues (placeId cfg.net p) with
  | nil =>
    have same := queueOf_unchanged s (p := p) q
    rw [here, h] at same ⊢
    exact same
  | cons token rest =>
    rw [here, h]
    exact queueOf_setQueue s known rest q

variable (predicate : V → Except Thrown Bool)

theorem removeFirstMatching_fst (known : p ∈ placesById cfg.net) :
    (removeFirstMatching (placeId cfg.net p) predicate s).1 =
      findFirst predicate 0 (queueOf p s) := by
  rw [queueOf_known s known, removeFirstMatching]
  rcases findFirst predicate 0 (s.tokenQueues (placeId cfg.net p)) with e | _ | ⟨i, token⟩ <;> rfl

theorem queueOf_removeFirstMatching (known : p ∈ placesById cfg.net) (q : PlaceName) :
    queueOf q (removeFirstMatching (placeId cfg.net p) predicate s).2 =
      if q = p then withoutFound (findFirst predicate 0 (queueOf p s)) (queueOf p s)
      else queueOf q s := by
  have here := queueOf_known s known
  unfold removeFirstMatching
  rw [here]
  rcases findFirst predicate 0 (s.tokenQueues (placeId cfg.net p)) with e | _ | ⟨i, token⟩
  · rw [← here]
    exact queueOf_unchanged s q
  · rw [← here]
    exact queueOf_unchanged s q
  · exact queueOf_setQueue s known _ q

end

theorem PrecompiledNetExecutor.lawful (cfg : Setting V N) :
    Lawful (PrecompiledNetExecutor.storeOps cfg) where
  removeFirst known s := shift_fst s known
  queue_removeFirst known s q := queueOf_shift s known q
  flights_removeFirst p s := by
    show SameFlights _ s (PrecompiledNetExecutor.shift (placeId cfg.net p) s).2
    unfold PrecompiledNetExecutor.shift
    cases s.tokenQueues (placeId cfg.net p) <;> exact ⟨fun _ => rfl, rfl⟩
  removeFirstMatching known predicate s := removeFirstMatching_fst s predicate known
  queue_removeFirstMatching known predicate s q := queueOf_removeFirstMatching s predicate known q
  flights_removeFirstMatching p predicate s := by
    show SameFlights _ s (PrecompiledNetExecutor.removeFirstMatching (placeId cfg.net p) predicate s).2
    unfold PrecompiledNetExecutor.removeFirstMatching
    rcases findFirst predicate 0 (s.tokenQueues (placeId cfg.net p)) with e | _ | ⟨i, token⟩ <;>
      exact ⟨fun _ => rfl, rfl⟩
  countMatching known predicate s := congrArg (countIf predicate) (queueOf_known s known).symm
  removeAll known s := (queueOf_known s known).symm
  queue_removeAll known s q := queueOf_setQueue s known [] q
  flights_removeAll _ _ := ⟨fun _ => rfl, rfl⟩
  flight?_register _ _ s _ := Function.update_apply s.inFlight _ _ _
  queue_register _ _ _ _ := rfl
  size_register _ _ _ _ := rfl
  flight?_update _ _ s _ := Function.update_apply s.inFlight _ _ _
  queue_update _ _ _ _ := rfl
  size_update _ _ _ _ := rfl
  flight?_unregister _ s _ := Function.update_apply s.inFlight _ _ _
  queue_unregister _ _ _ := rfl
  size_unregister _ _ _ := rfl

end LibPetri.Verified

import LibPetri.Verified.Coherence
import LibPetri.Verified.ExactConsumption

/-! # What an enabled transition finds

The check of a transition passes only if its inputs hold what they demand, and, of a join, if one name does so
in every correlated input.  A cache says the same of its queues as long as it mirrors them.
-/

namespace LibPetri.Verified

open LibPetri.Basis LibPetri.Core LibPetri.Runtime CompiledNet Executor

variable {V N : Type} [LinearOrder N]

/-! ## Names -/

section Names

variable {t : Transition V N} {ms : MatchSpec V N} {queue : PlaceName → List (Token V)} {name : N}

variable (t ms queue name) in
/-- Every correlated input holds the name as often as it requires. -/
def BoundBy : Prop := ∀ k ∈ ms.keys, requiredFor t k.place ≤ (queue k.place).countP (carries k.key name)

omit [LinearOrder N] in
variable (ms queue) in
/-- Every projection answers on every token of its input. -/
def Projected : Prop := ∀ k ∈ ms.keys, ∀ token ∈ queue k.place, ∃ found, k.key token.value = .ok found

variable (t ms queue) in
/-- The cache stands for its queues. -/
structure CacheMirrors (cache : IncrementalMatcher N) : Prop where
  bare : ms.keys = [] → cache = .new []
  rep : ms.keys ≠ [] → Rep cache (requiredCounts t ms) (lanesOf ms queue)
  projected : Projected ms queue

theorem CacheMirrors.represents {cache : IncrementalMatcher N} (h : CacheMirrors t ms queue cache)
    (some_key : ms.keys ≠ []) : Represents t ms ⟨cache, queue⟩ := ⟨h.rep some_key, h.projected⟩

theorem length_occurrences_carried (key : KeyFn V N) (name : N) (tokens : List (Token V)) :
    (occurrences (carried key tokens) name).length = tokens.countP (carries key name) := by
  induction tokens with
  | nil => rfl
  | cons token tokens ih =>
    rw [occurrences_carried_cons, List.countP_cons]
    split
    next => rw [List.length_cons, ih]
    next => rw [ih, Nat.add_zero]

theorem boundBy_of_satisfied (h : Satisfied (requiredCounts t ms) (lanesOf ms queue) name) :
    BoundBy t ms queue name := by
  intro k mem
  obtain ⟨i, at_⟩ := List.mem_iff_getElem?.mp mem
  have enough := h i (requiredFor t k.place) (by rw [requiredCounts, List.getElem?_map, at_]; rfl)
  rw [lanesOf, at_] at enough
  rwa [length_occurrences_carried] at enough

/-- What a cache names is bound. -/
theorem CacheMirrors.boundBy {cache : IncrementalMatcher N} (h : CacheMirrors t ms queue cache)
    (best : cache.best = some name) : BoundBy t ms queue name := by
  by_cases no_key : ms.keys = []
  · rw [h.bare no_key] at best
    cases best
  · have selects := (h.rep no_key).best_selects
    rw [best] at selects
    exact boundBy_of_satisfied selects.1

theorem projected_of_buildNameIndexFrom {key : KeyFn V N} {tokens : List (Token V)}
    {index index' : OrderedMap N NameStat} (built : buildNameIndexFrom key tokens index = .ok index') :
    ∀ token ∈ tokens, ∃ found, key token.value = .ok found := by
  induction tokens generalizing index with
  | nil => exact fun _ mem => by cases mem
  | cons token tokens ih =>
    obtain ⟨found, here, rest⟩ := exists_of_bind_eq_ok built
    refine List.forall_mem_cons.mpr ⟨⟨found, here⟩, ?_⟩
    cases found with
    | none => exact ih rest
    | some name => exact ih rest

theorem ok_of_mapM {α β ε : Type} {f : α → Except ε β} {l : List α} {bs : List β} (all : l.mapM f = .ok bs) :
    ∀ a ∈ l, ∃ b, f a = .ok b := by
  induction l generalizing bs with
  | nil => exact fun _ mem => by cases mem
  | cons a l ih =>
    rw [List.mapM_cons] at all
    obtain ⟨b, first, all⟩ := exists_of_bind_eq_ok all
    obtain ⟨rest, all, _⟩ := exists_of_bind_eq_ok all
    exact List.forall_mem_cons.mpr ⟨⟨b, first⟩, ih all⟩

/-- A search that answers has projected every token. -/
theorem projected_of_findBinding (matched : t.matchSpec = some ms) {found : Option N}
    (searched : findBinding t queue = .ok found) : Projected ms queue := by
  rw [findBinding, matched] at searched
  obtain ⟨indexes, indexed, _⟩ := exists_of_bind_eq_ok searched
  intro k mem
  obtain ⟨index, built⟩ := ok_of_mapM indexed k mem
  exact projected_of_buildNameIndexFrom built

/-- What a search finds is bound. -/
theorem boundBy_of_findBinding (matched : t.matchSpec = some ms) (searched : findBinding t queue = .ok (some name)) :
    BoundBy t ms queue name := by
  obtain ⟨indexes, indexed, length, describes⟩ := exists_indexes (projected_of_findBinding matched searched)
  rw [findBinding, matched] at searched
  dsimp only at searched
  rw [indexed] at searched
  have found : selectMatchName indexes (requiredCounts t ms) = some name := Except.ok.inj searched
  have sameLength : indexes.length = (requiredCounts t ms).length := by
    rw [length, requiredCounts, List.length_map]
  have d : Describes (indexes.zip (requiredCounts t ms)) (lanesOf ms queue) 0 := by
    intro j index required at_
    obtain ⟨index_at, required_at⟩ := List.getElem?_zip_eq_some.mp at_
    refine ⟨requiredCounts_pos required (List.mem_iff_getElem?.mpr ⟨j, required_at⟩), fun other => ?_⟩
    obtain ⟨k, there⟩ := bound_of_getElem? (List.getElem?_eq_some_iff.mp required_at).1
    rw [Nat.zero_add, lanesOf, there]
    exact buildNameIndex_get? (describes j k index there index_at) other
  exact boundBy_of_satisfied ((holds_zip_iff sameLength name).mp (holds_of_selectMatchName d found))

end Names

/-! ## The check -/

variable {cfg : Setting V N} {S : Type} {B : Backend cfg S} {tid : Tid cfg.net} {x : Exec cfg S}

/-- What the check of a transition asks of the state. -/
structure PassesTests (B : Backend cfg S) (tid : Tid cfg.net) (x : Exec cfg S) : Prop where
  inputs : ∀ spec ∈ (transition tid).inputSpecs, spec.requiredCount ≤ (B.queue spec.place x.store).length
  reads : ∀ p ∈ (transition tid).reads, B.queue p x.store ≠ []
  inhibitors : ∀ p ∈ (transition tid).inhibitors, B.queue p x.store = []
  binding : ∀ ms ∈ (transition tid).matchSpec, ∃ name, bindingOf B.toStoreOps tid x = .ok (some name)

theorem nonempty_of_bit {p : PlaceName} (marked : Marked B x p)
    (bit : x.ctl.markingBitmap.testBit (placeId cfg.net p) = true) : B.queue p x.store ≠ [] := by
  intro empty
  rw [marked, empty] at bit
  cases bit

theorem passesTests_of_canEnable (masks : ByMasks B) (marked : ∀ p ∈ placesById cfg.net, Marked B x p)
    (can : canEnable B tid x.ctl.markingBitmap x = .ok true) : PassesTests B tid x := by
  unfold canEnable at can
  split at can
  · cases can
  next mask =>
  split at can
  · cases can
  next cardinality =>
  simp only [Bool.not_eq_true, Bool.not_eq_false', masks tid] at mask cardinality
  obtain ⟨needed, inhibited⟩ := (canEnableBitmap_iff tid _).mp mask
  have filled {p : PlaceName} (mem : p ∈ (transition tid).inputSpecs.map In.place ∨ p ∈ (transition tid).reads)
      (known : p ∈ placesById cfg.net) : B.queue p x.store ≠ [] := nonempty_of_bit (marked p known) (needed p mem)
  refine ⟨fun spec hspec => ?_, fun p hp => filled (.inr hp) (known_of_read hp), fun p hp => ?_, fun ms matched => ?_⟩
  · by_cases counts : (transition tid).inputSpecs.any In.needsCardinality = true
    · exact (hasCardinality_iff B tid x).mp cardinality counts spec hspec
    -- every input is a plain `one`, and its bit is set
    · have plain : spec.requiredCount = 1 := by
        rw [List.any_eq_true] at counts
        cases spec with
        | one p => rfl
        | exactly _ _ => exact absurd ⟨_, hspec, rfl⟩ counts
        | all _ => exact absurd ⟨_, hspec, rfl⟩ counts
        | atLeast _ _ => exact absurd ⟨_, hspec, rfl⟩ counts
      have some_token := filled (.inl (List.mem_map_of_mem hspec)) (known_of_input hspec)
      have length := List.length_pos_iff.mpr some_token
      omega
  · have bit := inhibited p hp
    rw [marked p (known_of_inhibitor hp)] at bit
    simpa using bit
  · rw [if_pos (by rw [hasMatch, matched]; rfl)] at can
    cases binding : bindingOf B.toStoreOps tid x with
    | error e =>
      rw [binding] at can
      cases can
    | ok found =>
      rw [binding] at can
      have some_name : found.isSome = true := Except.ok.inj can
      obtain ⟨name, rfl⟩ := Option.isSome_iff_exists.mp some_name
      exact ⟨name, rfl⟩

/-- Every live cache is one of a join that may keep one, and mirrors its queues. -/
def CachesMirror (B : Backend cfg S) (x : Exec cfg S) : Prop :=
  ∀ tid cache, x.ctl.matchCaches tid = some cache → (cacheRequireds tid).isSome = true ∧
    ∀ ms ∈ (transition tid).matchSpec, CacheMirrors (transition tid) ms (fun p => B.queue p x.store) cache

/-- The binding of a transition that passes. -/
theorem boundBy_of_binding (mirror : CachesMirror B x) {ms : MatchSpec V N}
    (matched : (transition tid).matchSpec = some ms) {name : N}
    (binding : bindingOf B.toStoreOps tid x = .ok (some name)) :
    BoundBy (transition tid) ms (fun p => B.queue p x.store) name ∧ Projected ms fun p => B.queue p x.store := by
  unfold bindingOf at binding
  split at binding
  next cache live =>
    have mirrors := (mirror tid cache live).2 ms matched
    exact ⟨mirrors.boundBy (Except.ok.inj binding), mirrors.projected⟩
  next => exact ⟨boundBy_of_findBinding matched binding, projected_of_findBinding matched binding⟩

omit [LinearOrder N] in
theorem requiredFor_place {t : Transition V N} {spec : In} (mem : spec ∈ t.inputSpecs) :
    requiredFor t spec.place = spec.requiredCount := by
  unfold requiredFor
  cases found : t.inputSpecs.find? fun other => other.place = spec.place with
  | none =>
    have := List.find?_eq_none.mp found spec mem
    simp at this
  | some other =>
    have same : other.place = spec.place := by simpa using List.find?_some found
    rw [List.inj_on_of_nodup_map t.inputs_nodup (List.mem_of_find?_eq_some found) mem same]
    rfl

/-- A transition that passes is supplied with what it chooses. -/
theorem PassesTests.supplied (passes : PassesTests B tid x) (mirror : CachesMirror B x) : ∃ chosen,
    bindingOf B.toStoreOps tid x = .ok chosen ∧
      Supplied (transition tid) chosen fun p => B.queue p x.store := by
  have plain {chosen : Option N} {spec : In} (mem : spec ∈ (transition tid).inputSpecs)
      (free : correlated (transition tid) spec.place = none) :
      Takeable (transition tid) chosen spec (B.queue spec.place x.store) := by
    refine ⟨?_, fun key keyed => ?_⟩
    · rw [eligible_of_free (.inl free), List.countP_true]
      exact passes.inputs spec mem
    · rw [free] at keyed
      cases keyed
  cases matched : (transition tid).matchSpec with
  | none =>
    have uncached : x.ctl.matchCaches tid = none := by
      refine Option.eq_none_iff_forall_not_mem.mpr fun cache live => ?_
      have may := (mirror tid cache live).1
      rw [cacheRequireds, matched] at may
      cases may
    refine ⟨none, ?_, by rw [matched]; rfl, fun spec mem => plain mem ?_⟩
    · rw [bindingOf, uncached, findBinding, matched]
    · rw [correlated, matched]
      rfl
  | some ms =>
    obtain ⟨name, binding⟩ := passes.binding ms matched
    obtain ⟨bound, projected⟩ := boundBy_of_binding mirror matched binding
    refine ⟨some name, binding, by rw [matched]; rfl, fun spec mem => ?_⟩
    cases keyed : correlated (transition tid) spec.place with
    | none => exact plain mem keyed
    | some key =>
      have found : keyForPlace ms spec.place = some key := by
        rw [correlated, matched] at keyed
        exact keyed
      obtain ⟨k, hk, same, rfl⟩ := keyForPlace_eq_some found
      have enough := bound k hk
      have answers := projected k hk
      rw [same] at enough answers
      refine ⟨?_, fun key' keyed' => ?_⟩
      · rw [eligible_of_named keyed rfl, ← requiredFor_place mem]
        exact enough
      · obtain rfl := Option.some.inj (keyed.symm.trans keyed')
        exact answers

end LibPetri.Verified

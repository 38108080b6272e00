import LibPetri.Verified.LawfulStore
import LibPetri.Verified.HostCalls

/-! # Construction

A constructed executor has its seed in its queues, its caches seeded from them, and nothing else: no
flight, no flag, no event, no call.
-/

namespace LibPetri.Verified

open LibPetri.Basis LibPetri.Core LibPetri.Runtime CompiledNet Executor

variable {V N : Type} [LinearOrder N] {cfg : Setting V N} {S : Type}

/-! ## Warnings nobody can answer -/

/-- The second state differs by warnings alone, and by its store. -/
structure Unheard (x y : Exec cfg S) : Prop where
  ctl : y.ctl = x.ctl
  io : ∃ reads appends, y.io = { x.io with epochReads := reads, appends := appends }
  history : ∃ events : List (NetEvent V), y.history = events.map .appended ++ x.history

theorem Unheard.refl (x : Exec cfg S) : Unheard x x := ⟨rfl, ⟨_, _, rfl⟩, [], rfl⟩

theorem Unheard.trans {x y z : Exec cfg S} (h : Unheard x y) (h' : Unheard y z) : Unheard x z := by
  obtain ⟨_, _, io⟩ := h.io
  obtain ⟨reads, appends, io'⟩ := h'.io
  obtain ⟨events, history⟩ := h.history
  obtain ⟨events', history'⟩ := h'.history
  refine ⟨h'.ctl.trans h.ctl, ⟨reads, appends, by rw [io', io]⟩, events' ++ events, ?_⟩
  rw [history', history, List.map_append, List.append_assoc]

theorem unheard_warnUnheard (message transitionName : String) (x : Exec cfg S) :
    Unheard x (warnUnheard message transitionName x) := by
  unfold warnUnheard
  cases cfg.eventStoreEnabled with
  | true => exact ⟨rfl, ⟨_, _, rfl⟩, [_], rfl⟩
  | false => exact ⟨rfl, ⟨_, _, rfl⟩, [], rfl⟩

theorem store_warnUnheard (message transitionName : String) (x : Exec cfg S) :
    (warnUnheard message transitionName x).store = x.store := by
  unfold warnUnheard
  cases cfg.eventStoreEnabled <;> rfl

theorem unheard_foldl {α : Type} {f : Exec cfg S → α → Exec cfg S} (step : ∀ x a, Unheard x (f x a))
    (l : List α) (x : Exec cfg S) : Unheard x (l.foldl f x) := by
  induction l generalizing x with
  | nil => exact Unheard.refl x
  | cons a l ih => exact (step x a).trans (ih _)

theorem unheard_warnDeadArcs (x : Exec cfg S) : Unheard x (warnDeadArcs x) :=
  unheard_foldl (fun _ _ => unheard_warnUnheard _ _ _) _ x

theorem store_warnDeadArcs (x : Exec cfg S) : (warnDeadArcs x).store = x.store := by
  unfold warnDeadArcs
  exact List.foldlRecOn (motive := fun y : Exec cfg S => y.store = x.store) _ _ rfl
    fun _ hy _ _ => (store_warnUnheard _ _ _).trans hy

/-! ## What a constructed executor is -/

/-- The effects of the seed, newest first. -/
def seeds (cfg : Setting V N) : List (Effect cfg.net) :=
  (cfg.initialTokens.flatMap fun e => e.2.map (.seeded e.1)).reverse

structure Built (B : Backend cfg S) (x : Exec cfg S) : Prop where
  ctl : ∃ caches, initMatchCaches (fun p => B.queue p x.store) (List.finRange _) = .ok caches ∧
    x.ctl = { (constructed x.store : Exec cfg S).ctl with matchCaches := caches }
  io : ∃ reads appends, x.io =
    { (constructed x.store : Exec cfg S).io with epochReads := reads, appends := appends }
  history : ∃ events : List (NetEvent V), x.history = events.map .appended ++ seeds cfg
  flights : ∀ tid, B.flight? tid x.store = none
  size : B.inFlightSize x.store = 0

theorem Built.of_unheard {B : Backend cfg S} {s : S} {x : Exec cfg S} {caches : Tid cfg.net → Option (IncrementalMatcher N)}
    (h : Unheard (constructed s) x)
    (seeded : initMatchCaches (fun p => B.queue p x.store) (List.finRange _) = .ok caches)
    (flights : ∀ tid, B.flight? tid x.store = none) (size : B.inFlightSize x.store = 0) :
    Built B { x with ctl := { x.ctl with matchCaches := caches } } where
  ctl := ⟨caches, seeded, by rw [h.ctl]; rfl⟩
  io := h.io
  history := h.history
  flights := flights
  size := size

variable [Value V] [ToString N]

theorem BitmapNetExecutor.built {x : Exec cfg (BitmapStore cfg)}
    (h : BitmapNetExecutor.new cfg = .ok x) : Built (BitmapNetExecutor.backend cfg) x ∧
      x.store.marking = Marking.ofInitial cfg.initialTokens := by
  let start : Exec cfg (BitmapStore cfg) := constructed
    { marking := Marking.ofInitial cfg.initialTokens, inFlight := OrderedMap.empty, warnedUnknownPlaces := [] }
  -- the warnings about undeclared places leave the marking alone
  have warned : Unheard start (BitmapNetExecutor.warnUnknownSeeds start) ∧
      (BitmapNetExecutor.warnUnknownSeeds start).store.marking = start.store.marking ∧
      (BitmapNetExecutor.warnUnknownSeeds start).store.inFlight = OrderedMap.empty := by
    unfold BitmapNetExecutor.warnUnknownSeeds
    refine List.foldlRecOn (motive := fun y => Unheard start y ∧ y.store.marking = start.store.marking ∧
      y.store.inFlight = OrderedMap.empty) _ _ ⟨Unheard.refl _, rfl, rfl⟩ fun y hy e _ => ?_
    split
    · exact hy
    · have said := unheard_warnUnheard (unknownPlaceMessage e.1) ""
        { y with store := { y.store with
          warnedUnknownPlaces := y.store.warnedUnknownPlaces ++ [e.1] } }
      refine ⟨hy.1.trans ⟨said.ctl, said.io, said.history⟩, ?_, ?_⟩
      · rw [store_warnUnheard]
        exact hy.2.1
      · rw [store_warnUnheard]
        exact hy.2.2
  let loaded := warnDeadArcs (BitmapNetExecutor.warnUnknownSeeds start)
  have quiet : Unheard start loaded := warned.1.trans (unheard_warnDeadArcs _)
  have store : loaded.store = (BitmapNetExecutor.warnUnknownSeeds start).store := store_warnDeadArcs _
  have marking : loaded.store.marking = Marking.ofInitial cfg.initialTokens := by
    rw [store, warned.2.1]
    rfl
  have idle : loaded.store.inFlight = OrderedMap.empty := by rw [store, warned.2.2]
  have built : BitmapNetExecutor.new cfg =
      initMatchCaches (Marking.ofInitial cfg.initialTokens).peekTokens (List.finRange _) >>= fun caches =>
        pure { loaded with ctl := { loaded.ctl with matchCaches := caches } } := rfl
  cases seeded : @initMatchCaches V N _ cfg (Marking.ofInitial cfg.initialTokens).peekTokens
      (List.finRange _) with
  | error e =>
    rw [built, seeded] at h
    cases h
  | ok caches =>
    rw [built, seeded] at h
    cases h
    refine ⟨Built.of_unheard quiet ?_ (fun tid => ?_) ?_, marking⟩
    · rw [← seeded, ← marking]
      rfl
    · show loaded.store.inFlight.get? tid = none
      rw [idle]
      rfl
    · show loaded.store.inFlight.size = 0
      rw [idle]
      rfl

/-- The state with the seed loaded. -/
def loadSeed (cfg : Setting V N) : Exec cfg (PrecompiledStore cfg) :=
  cfg.initialTokens.foldl (fun x e => e.2.foldl (PrecompiledNetExecutor.loadToken e.1) x)
    (constructed { tokenQueues := fun _ => [], unknownPlaceTokens := OrderedMap.empty
                   inFlight := fun _ => none, inFlightCount := 0 })

omit [Value V] [ToString N] in
theorem unheard_loadToken (p : PlaceName) (x : Exec cfg (PrecompiledStore cfg)) (token : Token V) :
    Unheard x (PrecompiledNetExecutor.loadToken p x token) ∧
      (PrecompiledNetExecutor.loadToken p x token).store.inFlight = x.store.inFlight ∧
      (PrecompiledNetExecutor.loadToken p x token).store.inFlightCount = x.store.inFlightCount := by
  unfold PrecompiledNetExecutor.loadToken
  split
  · exact ⟨⟨rfl, ⟨_, _, rfl⟩, [], rfl⟩, rfl, rfl⟩
  · dsimp only
    split
    · exact ⟨⟨rfl, ⟨_, _, rfl⟩, [], rfl⟩, rfl, rfl⟩
    · rw [store_warnUnheard]
      have said := unheard_warnUnheard (unknownPlaceMessage p) ""
        { x with store := { x.store with
          unknownPlaceTokens := x.store.unknownPlaceTokens.set p
            ((x.store.unknownPlaceTokens.get? p).getD [] ++ [token]) } }
      exact ⟨⟨said.ctl, said.io, said.history⟩, rfl, rfl⟩

theorem PrecompiledNetExecutor.built {x : Exec cfg (PrecompiledStore cfg)}
    (h : PrecompiledNetExecutor.new cfg = .ok x) : Built (PrecompiledNetExecutor.backend cfg) x ∧
      x.store = (loadSeed cfg).store := by
  have seed : Unheard (constructed (loadSeed cfg).store) (loadSeed cfg) ∧
      (loadSeed cfg).store.inFlight = (fun _ => none) ∧ (loadSeed cfg).store.inFlightCount = 0 := by
    let start : Exec cfg (PrecompiledStore cfg) := constructed
      { tokenQueues := fun _ => [], unknownPlaceTokens := OrderedMap.empty
        inFlight := fun _ => none, inFlightCount := 0 }
    have kept : Unheard start (loadSeed cfg) ∧ (loadSeed cfg).store.inFlight = start.store.inFlight ∧
        (loadSeed cfg).store.inFlightCount = start.store.inFlightCount := by
      unfold loadSeed
      refine List.foldlRecOn (motive := fun y => Unheard start y ∧
        y.store.inFlight = start.store.inFlight ∧ y.store.inFlightCount = start.store.inFlightCount)
        _ _ ⟨Unheard.refl _, rfl, rfl⟩ fun y hy e _ => ?_
      refine List.foldlRecOn (motive := fun y => Unheard start y ∧
        y.store.inFlight = start.store.inFlight ∧ y.store.inFlightCount = start.store.inFlightCount)
        _ _ hy fun z hz token _ => ?_
      obtain ⟨said, flights, count⟩ := unheard_loadToken e.1 z token
      exact ⟨hz.1.trans said, flights.trans hz.2.1, count.trans hz.2.2⟩
    exact ⟨⟨kept.1.ctl, kept.1.io, kept.1.history⟩, kept.2⟩
  let loaded := warnDeadArcs (loadSeed cfg)
  have quiet : Unheard (constructed (loadSeed cfg).store) loaded := seed.1.trans (unheard_warnDeadArcs _)
  have store : loaded.store = (loadSeed cfg).store := store_warnDeadArcs _
  have built : PrecompiledNetExecutor.new cfg =
      initMatchCaches (fun p => PrecompiledNetExecutor.queueOf p loaded.store) (List.finRange _) >>=
        fun caches => pure { loaded with ctl := { loaded.ctl with matchCaches := caches } } := rfl
  cases seeded : @initMatchCaches V N _ cfg (fun p => PrecompiledNetExecutor.queueOf p loaded.store)
      (List.finRange _) with
  | error e =>
    rw [built, seeded] at h
    cases h
  | ok caches =>
    rw [built, seeded] at h
    cases h
    refine ⟨Built.of_unheard quiet seeded (fun tid => ?_) ?_, store⟩
    · show loaded.store.inFlight tid = none
      rw [store, seed.2.1]
    · show loaded.store.inFlightCount = 0
      rw [store, seed.2.2]

end LibPetri.Verified

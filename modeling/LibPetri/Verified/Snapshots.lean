import LibPetri.Verified.EventPromises
import LibPetri.Verified.TokenConservation

/-! # Snapshots

The host may take a snapshot wherever an event is appended, also in the middle of a firing, a completion or an
admission.  One that reports nothing in flight shows a state of the token machine in which no firing runs and no event
waits, so an executor seeded with it starts where the first one stood.
-/

namespace LibPetri.Verified

open LibPetri.Basis LibPetri.Core LibPetri.Runtime CompiledNet Executor

variable {V N : Type}

/-! ## Seeding with a snapshot -/

theorem seedTokens_eq_nil {initial : List (PlaceName × List (Token V))} {p : PlaceName}
    (absent : ∀ e ∈ initial, e.1 ≠ p) : seedTokens initial p = [] :=
  List.flatMap_eq_nil_iff.mpr fun e mem => if_neg (absent e mem)

theorem seedTokens_eq_of_mem {initial : List (PlaceName × List (Token V))} {p : PlaceName} {queue : List (Token V)}
    (nodup : (initial.map Prod.fst).Nodup) (mem : (p, queue) ∈ initial) : seedTokens initial p = queue := by
  induction initial with
  | nil => cases mem
  | cons e initial ih =>
    obtain ⟨new, nodup⟩ := List.nodup_cons.mp nodup
    have split : seedTokens (e :: initial) p = (if e.1 = p then e.2 else []) ++ seedTokens initial p := rfl
    rw [split]
    cases mem with
    | head =>
      have later : seedTokens initial p = [] :=
        seedTokens_eq_nil fun e' mem' same => new (List.mem_map.mpr ⟨e', mem', same⟩)
      rw [if_pos rfl, later, List.append_nil]
    | tail _ mem =>
      have apart : e.1 ≠ p := fun same => new (same ▸ List.mem_map_of_mem (f := Prod.fst) mem)
      rw [if_neg apart, List.nil_append, ih nodup mem]

theorem seededOnce_of_nodup {initial : List (PlaceName × List (Token V))} (nodup : (initial.map Prod.fst).Nodup) :
    SeededOnce initial :=
  (List.pairwise_map.mp nodup).imp fun apart same => absurd same apart

theorem nodup_sortByName {α : Type} {entries : List (PlaceName × α)} (nodup : (entries.map Prod.fst).Nodup) :
    ((sortByName entries).map Prod.fst).Nodup :=
  ((List.perm_insertionSort _ entries).map Prod.fst).nodup_iff.mpr nodup

theorem nodup_snapshot (m : Marking V) : (m.snapshot.map Prod.fst).Nodup :=
  nodup_sortByName ((List.Sublist.map _ List.filter_sublist).nodup m.tokens.nodup)

/-- Seeding with the snapshot of a marking gives each place its queue again. -/
theorem seedTokens_snapshot (m : Marking V) (p : PlaceName) : seedTokens m.snapshot p = m.peekTokens p := by
  have listed (e : PlaceName × List (Token V)) : e ∈ m.snapshot ↔ e ∈ m.tokens.entries ∧ e.2 ≠ [] := by
    rw [Marking.snapshot, sortByName, (List.perm_insertionSort _ _).mem_iff, List.mem_filter]
    simp
  by_cases empty : m.peekTokens p = []
  · rw [empty]
    refine seedTokens_eq_nil fun e mem same => ?_
    obtain ⟨entry, nonempty⟩ := (listed e).mp mem
    have found : m.tokens.get? p = some e.2 := (OrderedMap.get?_eq_some_iff _).mpr (same ▸ entry)
    rw [Marking.peekTokens, found] at empty
    exact nonempty empty
  · cases found : m.tokens.get? p with
    | none => exact absurd (by rw [Marking.peekTokens, found]; rfl) empty
    | some queue =>
      have held : m.peekTokens p = queue := by rw [Marking.peekTokens, found]; rfl
      rw [held] at empty ⊢
      exact seedTokens_eq_of_mem (nodup_snapshot m) ((listed _).mpr ⟨(OrderedMap.get?_eq_some_iff _).mp found, empty⟩)

variable [LinearOrder N] {cfg : Setting V N} {S : Type}

/-- A snapshot shows every queue, and an executor that counts no flight has none. -/
structure Snapshots (ops : StoreOps cfg S) : Prop where
  seeded : ∀ s p, seedTokens (ops.snapshot s) p = ops.queue p s
  once : ∀ s, SeededOnce (ops.snapshot s)
  idle : ∀ s, ops.inFlightSize s = 0 → ∀ tid, ops.flight? tid s = none

omit [LinearOrder N] in
theorem BitmapNetExecutor.snapshots [Value V] [ToString N] : Snapshots (BitmapNetExecutor.storeOps cfg) where
  seeded s p := seedTokens_snapshot s.marking p
  once s := seededOnce_of_nodup (nodup_snapshot s.marking)
  idle s none_runs := (OrderedMap.size_eq_zero_iff s.inFlight).mp none_runs

/-! ## Whole snapshots -/

/-- The snapshot shows the tokens of a machine in which no firing runs. -/
structure WholeSnapshot (cfg : Setting V N) (start : PlaceName → List (Token V)) (marking : List (PlaceName × List (Token V)))
    (older : List (Effect cfg.net)) : Prop where
  shows : ∃ tokens, TokenRun cfg start (older.filter booked) tokens ∧ (∀ tid, tokens.flight tid = none) ∧
    ∀ p, seedTokens marking p = tokens.queue p
  once : SeededOnce marking

/-- Every snapshot that reports nothing in flight is whole. -/
def WholeSnapshots (cfg : Setting V N) (start : PlaceName → List (Token V)) : List (Effect cfg.net) → Prop
  | [] => True
  | .snapshotTaken marking false :: older => WholeSnapshot cfg start marking older ∧ WholeSnapshots cfg start older
  | _ :: older => WholeSnapshots cfg start older

def isSnapshot {net : PetriNet V N} : Effect net → Bool
  | .snapshotTaken _ _ => true
  | _ => false

variable {start : PlaceName → List (Token V)} {B : Backend cfg S} {x y : Exec cfg S} {tid : Tid cfg.net}

theorem wholeSnapshots_cons {e : Effect cfg.net} {older : List (Effect cfg.net)} (other : isSnapshot e = false) :
    WholeSnapshots cfg start (e :: older) ↔ WholeSnapshots cfg start older := by
  cases e with
  | snapshotTaken => cases other
  | _ => exact Iff.rfl

theorem wholeSnapshots_of_none {history : List (Effect cfg.net)} (none_taken : ∀ e ∈ history, isSnapshot e = false) :
    WholeSnapshots cfg start history := by
  induction history with
  | nil => trivial
  | cons e history ih =>
    obtain ⟨here, older⟩ := List.forall_mem_cons.mp none_taken
    exact (wholeSnapshots_cons here).mpr (ih older)

theorem WholeSnapshots.whole {history later older : List (Effect cfg.net)}
    {marking : List (PlaceName × List (Token V))} (h : WholeSnapshots cfg start history)
    (split : history = later ++ .snapshotTaken marking false :: older) : WholeSnapshot cfg start marking older := by
  subst split
  induction later with
  | nil => exact h.1
  | cons e later ih =>
    refine ih ?_
    cases e with
    | snapshotTaken _ inFlight =>
      cases inFlight with
      | true => exact h
      | false => exact h.2
    | _ => exact h

/-- Nobody is at work on tokens, or the flag says so. -/
def Watched (B : Backend cfg S) (start : PlaceName → List (Token V)) (x : Exec cfg S) : Prop :=
  x.ctl.unsettled = true ∨ Plays B start x

theorem wholeSnapshots_snapshot (snaps : Snapshots B.toStoreOps) (watched : Watched B start x)
    (h : WholeSnapshots cfg start x.history) : WholeSnapshots cfg start (snapshot B.toStoreOps x).history := by
  unfold Executor.snapshot
  split
  · exact h
  · cases flag : actionInFlight B.toStoreOps x with
    | true => exact h
    | false =>
      unfold actionInFlight at flag
      simp only [Bool.or_eq_false_iff, decide_eq_false_iff_not, Nat.not_lt, Nat.le_zero] at flag
      have plays : Plays B start x := watched.resolve_left fun on => by
        rw [flag.1.2] at on
        exact Bool.false_ne_true on
      have idle (tid : Tid cfg.net) : (tokensOf B x).flight tid = none :=
        congrArg (Option.map consumptionIn) (snaps.idle _ flag.1.1 tid)
      exact ⟨⟨⟨_, plays.run, idle, fun p => snaps.seeded _ p⟩, snaps.once _⟩, h⟩

theorem wholeSnapshots_hostCall (snaps : Snapshots B.toStoreOps) (watched : Watched B start x)
    (h : WholeSnapshots cfg start x.history) (call : HostCall V) :
    WholeSnapshots cfg start (hostCall B.toStoreOps x call).history := by
  have injected (place : PlaceName) (token : Token V) (y : Exec cfg S) (h : WholeSnapshots cfg start y.history) :
      WholeSnapshots cfg start (inject place token y).history := by
    unfold inject
    split
    · exact h
    · split <;> exact h
  cases call with
  | inject place token => exact injected _ _ _ h
  | injectValue place value => exact injected _ _ _ h
  | injectNoAwait place value =>
    have shown : hostCall B.toStoreOps x (.injectNoAwait place value) = injectNoAwait place value x := rfl
    rw [shown, injectNoAwait]
    split
    · exact injected _ _ _ h
    · exact injected _ _ (mint value x).2 h
  | snapshot => exact wholeSnapshots_snapshot snaps watched h
  | drain => exact h
  | close => exact h
  | expireBudget closing =>
    have shown : hostCall B.toStoreOps x (.expireBudget closing) = expireBudget closing x := rfl
    have stopped : WholeSnapshots cfg start (if x.io.reason = .running then
        { x with io := { x.io with reason := .stopped } } else x).history := by
      split <;> exact h
    rw [shown, expireBudget]
    cases closing with
    | true => exact stopped
    | false => exact stopped

/-! ## While nobody is at work, and while the flag is up -/

section Watch

variable (snaps : Snapshots B.toStoreOps)
include snaps

/-- What the host cannot break, it cannot break beside its snapshots. -/
theorem hostStable_whole {I : Exec cfg S → Prop} (stable : HostStable B.toStoreOps I)
    (watched : ∀ x, I x → Watched B start x) :
    HostStable B.toStoreOps fun x => I x ∧ WholeSnapshots cfg start x.history where
  call x call h := ⟨stable.call x call h.1, wholeSnapshots_hostCall snaps (watched x h.1) h.2 call⟩
  appended x event h := ⟨stable.appended x event h.1, h.2⟩
  epoch x h := ⟨stable.epoch x h.1, h.2⟩

theorem aloof_whole {I : Exec cfg S → Prop} (aloof : Aloof B I) (watched : ∀ x, I x → Watched B start x) :
    Aloof B fun x => I x ∧ WholeSnapshots cfg start x.history :=
  { hostStable_whole snaps aloof.toHostStable watched with
    bookkeeping := fun x c caches terminal unsettled h =>
      ⟨aloof.bookkeeping x c caches terminal unsettled h.1, h.2⟩
    clock := fun x n h => ⟨aloof.clock x n h.1, h.2⟩
    starts := fun x n h => ⟨aloof.starts x n h.1, h.2⟩
    reaped := fun x tid h => ⟨aloof.reaped x tid h.1, h.2⟩ }

theorem calm_plays : Calm B fun x => Plays B start x ∧ WholeSnapshots cfg start x.history :=
  have calm : Calm B (Plays B start) := plays_ofStock.calm
  { hostStable_whole snaps calm.toHostStable fun _ => .inr with
    moved := fun x y store caches record h => ⟨calm.moved x y store caches record h.1, record ▸ h.2⟩
    noted := fun x e inside unbooked h => by
      have other : isSnapshot e = false := by
        cases e <;> first | rfl | cases inside
      exact ⟨calm.noted x e inside unbooked h.1, (wholeSnapshots_cons other).mpr h.2⟩ }

omit snaps in
/-- The flag is up. -/
theorem aloof_unsettled {I : Exec cfg S → Prop} (aloof : Aloof B I) :
    Aloof B fun x => I x ∧ x.ctl.unsettled = true :=
  { aloof.toHostStable.and (HostStable.of_internals fun i => i.ctl.unsettled = true) with
    bookkeeping := fun x c caches terminal same h =>
      ⟨aloof.bookkeeping x c caches terminal same h.1, same.trans h.2⟩
    clock := fun x n h => ⟨aloof.clock x n h.1, h.2⟩
    starts := fun x n h => ⟨aloof.starts x n h.1, h.2⟩
    reaped := fun x tid h => ⟨aloof.reaped x tid h.1, h.2⟩ }

/-- While the flag is up, no snapshot claims to be whole. -/
def Busy (start : PlaceName → List (Token V)) (x : Exec cfg S) : Prop :=
  x.ctl.unsettled = true ∧ WholeSnapshots cfg start x.history

theorem busy_hostStable : HostStable B.toStoreOps (Busy start : Exec cfg S → Prop) :=
  hostStable_whole snaps (HostStable.of_internals fun i => i.ctl.unsettled = true) fun _ => .inl

theorem busy_consuming (tid : Tid cfg.net) :
    Consuming B.toStoreOps tid (Busy start) (fun _ => Busy start) fun _ => Busy start where
  stable _ := busy_hostStable snaps
  first spec _ c x h := by
    rcases B.removeFirst spec.place x.store with ⟨_ | token, s⟩
    · exact h
    · exact h
  matching spec _ key _ name c x h := by
    rcases B.removeFirstMatching spec.place (named key name) x.store with ⟨e | _ | ⟨index, token⟩, s⟩
    · exact h
    · exact h
    · exact h
  counting spec _ key name c x e h _ := h
  reset p _ c x h := h
  unmatched _ h := h
  matched x _ h _ := h
  unbound _ _ h _ := h
  reads _ _ _ h := h
  dry _ _ _ h := h

end Watch

/-! ## The turns -/

section Turns

variable {verdict : Tid cfg.net → Flight V N → Except Thrown Unit} {chosen : Option N} (conforms : Conforms B verdict)
  (snaps : Snapshots B.toStoreOps)
include conforms snaps

/-- A firing, with the snapshots taken meanwhile. -/
theorem stagedFiring_whole (exact_ : ConsumesExactly B) (plays : Plays B start x)
    (whole : WholeSnapshots cfg start x.history) (idle : B.flight? tid x.store = none)
    (binding : bindingOf B.toStoreOps tid x = .ok chosen)
    (fireable : Fireable (transition tid) chosen fun p => B.queue p x.store) :
    StagedFiring B tid x (fun c y => (TookAt B tid chosen x c y ∧ y.ctl.unsettled = true) ∧ WholeSnapshots cfg start y.history)
      (fun _ y => (∃ c, TookAt B tid chosen x c y) ∧ WholeSnapshots cfg start y.history)
      (fun y => Plays B start y ∧ WholeSnapshots cfg start y.history)
      (fun y => Plays B start y ∧ WholeSnapshots cfg start y.history)
      (fun y => Plays B start y ∧ WholeSnapshots cfg start y.history) := by
  have rule := stagedFiring_plays conforms.lawful exact_ plays idle binding fireable
  have busy : Consuming B.toStoreOps tid (Busy start) (fun _ => Busy start) fun _ => Busy start := busy_consuming snaps tid
  have consumes := rule.consume.and (conforms.consume tid busy)
  exact
    { consume := consumes.conseq
        (fun y (same : y = recorded (.began tid) (unsettled true x)) => ⟨same, same ▸ ⟨rfl, whole⟩⟩)
        (fun c y h => ⟨⟨h.1, h.2.1⟩, h.2.2⟩) fun e y h => ⟨h.1, h.2.2⟩
      aloof := fun c => aloof_whole snaps (aloof_unsettled (rule.aloof c)) fun _ h => .inl h.2
      throws := fun c e y h => ⟨rule.throws c e y h.1.1, h.2⟩
      launches := fun c flight y h absent starts => ⟨rule.launches c flight y h.1.1 absent starts, h.2⟩
      contains := fun e y h => ⟨rule.contains e y h.1, h.2⟩
      aloofR := (calm_plays snaps).aloof
      forgets := fun y h => ⟨rule.forgets y h.1, h.2⟩
      aloofQ := (calm_plays snaps).aloof
      crashes := fun y h => h.elim id id }

/-- A completion, with the snapshots taken meanwhile. -/
theorem completionRule_whole {flight : Flight V N} (plays : Plays B start x)
    (whole : WholeSnapshots cfg start x.history) (held : B.flight? tid x.store = some flight) :
    CompletionRule B tid flight x
      (fun done y => (LandingAt B tid flight.entries x done y ∧ y.ctl.unsettled = true) ∧ WholeSnapshots cfg start y.history)
      (fun y => Plays B start y ∧ WholeSnapshots cfg start y.history)
      (fun y => Plays B start y ∧ WholeSnapshots cfg start y.history)
      (fun y => Plays B start y ∧ WholeSnapshots cfg start y.history) := by
  have rule := completionRule_plays conforms.lawful plays held
  exact
    { start := ⟨⟨rule.start, rfl⟩, whole⟩
      aloof := fun done => aloof_whole snaps (aloof_unsettled (rule.aloof done)) fun _ h => .inl h.2
      deposit := fun done entry rest y z split h projects d io history =>
        ⟨⟨rule.deposit done entry rest y z split h.1.1 projects d io history, d.unsettled.trans h.1.2⟩, history ▸ h.2⟩
      lands := fun y h => ⟨rule.lands y h.1.1, h.2⟩
      aloofQ := (calm_plays snaps).aloof
      refused := fun y h => ⟨rule.refused y h.1.1, h.2⟩
      failed := ⟨rule.failed, whole⟩
      aloofF := (calm_plays snaps).aloof
      fails := fun _ h => h
      crashes := fun _ h => h }

theorem steady_whole (exact_ : ConsumesExactly B) :
    Steady B verdict ⟨fun x => Plays B start x ∧ WholeSnapshots cfg start x.history,
      fun x => Plays B start x ∧ WholeSnapshots cfg start x.history,
      fun x => Plays B start x ∧ WholeSnapshots cfg start x.history,
      fun x => Plays B start x ∧ WholeSnapshots cfg start x.history⟩ := by
  refine (calm_plays snaps).steady (fun x tid flight flight' h held same => ⟨h.1.update conforms.lawful held same, h.2⟩)
    (fun tid x h coherent on can => ?_) (fun tid flight x h _ held lands => ?_) fun i event x h _ projects => ?_
  · have passes := passesTests_of_canEnable conforms.masks coherent.marked can
    obtain ⟨chosen, binding, supplied⟩ := passes.supplied h.1.mirror
    have rule := stagedFiring_whole conforms snaps exact_ h.1 h.2 (idle_of_enabled coherent on).2 binding
      (passes.fireable h.1.mirror binding supplied)
    exact rule.fireTransitionContained conforms coherent on
  · exact (completionRule_whole conforms snaps h.1 h.2 held).completeTransition conforms held lands
  · refine admitEvent_rule conforms (A := fun x => Plays B start x ∧ WholeSnapshots cfg start x.history) projects
      (calm_plays snaps).toHostStable (fun y d _ history => ⟨h.1.admitted d projects, ?_⟩)
      fun y h => (calm_plays snaps).noted y _ rfl rfl h
    rw [history]
    exact h.2

end Turns

/-! ## Along a run -/

omit [LinearOrder N] in
theorem SnapshotsDrained.drained {net : PetriNet V N} {history later older : List (Effect net)}
    {marking : List (PlaceName × List (Token V))} (h : SnapshotsDrained history)
    (split : history = later ++ .snapshotTaken marking false :: older) :
    ∃ dropped, acceptedOn older = admittedOn older ++ dropped ∧
      ∀ event ∈ dropped, (event.id, some false) ∈ answersOn older := by
  subst split
  induction later with
  | nil => exact h.1
  | cons e later ih =>
    refine ih ?_
    cases e with
    | snapshotTaken _ inFlight =>
      cases inFlight with
      | true => exact h
      | false => exact h.2
    | _ => exact h

theorem drained_of_eventsAt {Fine : Option Bool → Prop} {phase : Phase cfg.net} (h : EventsAt Fine phase x)
    (runs : ∀ e, phase ≠ .crashed e) : SnapshotsDrained x.history := by
  cases phase with
  | crashed e => exact absurd rfl (runs e)
  | ended =>
    obtain ⟨dropped, accounted⟩ := h.accounted
    exact accounted.drained
  | created => exact h.1.drained
  | admitting i len => exact h.1.accounted.drained
  | exit => exact h.1.accounted.drained
  | _ => exact h.accounted.drained

variable [Value V] [ToString N]

/-- What a snapshot keeps of the record before it: a state of the token machine in which no firing runs and no event
waits, where every executor seeded with it starts. -/
structure Restores (cfg : Setting V N) (marking : List (PlaceName × List (Token V))) (older : List (Effect cfg.net)) :
    Prop where
  tokens : ∃ tokens, TokenRun cfg (seedTokens cfg.initialTokens) (older.filter booked) tokens ∧
    (∀ tid, tokens.flight tid = none) ∧
    ∀ x, BitmapNetExecutor.new { cfg with initialTokens := marking } = .ok x →
      ∀ p, (BitmapNetExecutor.backend { cfg with initialTokens := marking }).queue p x.store = tokens.queue p
  events : ∃ dropped, acceptedOn older = admittedOn older ++ dropped ∧
    ∀ event ∈ dropped, (event.id, some false) ∈ answersOn older

theorem WholeSnapshot.restored {marking : List (PlaceName × List (Token V))} {older : List (Effect cfg.net)}
    (whole : WholeSnapshot cfg (seedTokens cfg.initialTokens) marking older) :
    ∃ tokens, TokenRun cfg (seedTokens cfg.initialTokens) (older.filter booked) tokens ∧
      (∀ tid, tokens.flight tid = none) ∧
      ∀ x, BitmapNetExecutor.new { cfg with initialTokens := marking } = .ok x →
        ∀ p, (BitmapNetExecutor.backend { cfg with initialTokens := marking }).queue p x.store = tokens.queue p := by
  obtain ⟨tokens, run, idle, shown⟩ := whole.shows
  refine ⟨tokens, run, idle, fun x made p => ?_⟩
  rw [← shown]
  refine (BitmapNetExecutor.seeded ?_ made).2 p
  exact whole.once

theorem wholeSnapshots_reachable {m : Machine cfg (BitmapStore cfg)} (once : SeededOnce cfg.initialTokens)
    (run : ReachableBy (BitmapNetExecutor.backend cfg) (BitmapNetExecutor.new cfg)
      (CleanDeposits (BitmapNetExecutor.backend cfg) BitmapNetExecutor.verdict) m) :
    WholeSnapshots cfg (seedTokens cfg.initialTokens) m.exec.history := by
  have begins (x : Exec cfg (BitmapStore cfg)) (made : BitmapNetExecutor.new cfg = .ok x) :
      Plays (BitmapNetExecutor.backend cfg) (seedTokens cfg.initialTokens) x ∧
        WholeSnapshots cfg (seedTokens cfg.initialTokens) x.history := by
    obtain ⟨built, queues⟩ := BitmapNetExecutor.seeded once made
    obtain ⟨events, history⟩ := built.history
    refine ⟨?_, ?_⟩
    · have plays := plays_built built
      rwa [funext queues] at plays
    · -- nobody has taken a snapshot yet
      have none_taken : ∀ e ∈ x.history, isSnapshot e = false := by
        rw [history]
        refine List.forall_mem_append.mpr ⟨fun e mem => ?_, fun e mem => ?_⟩
        · obtain ⟨_, -, rfl⟩ := List.mem_map.mp mem
          rfl
        · obtain ⟨entry, -, mem⟩ := List.mem_flatMap.mp (List.mem_reverse.mp mem)
          obtain ⟨token, -, rfl⟩ := List.mem_map.mp mem
          rfl
      exact wholeSnapshots_of_none none_taken
  have reached := (steady_whole BitmapNetExecutor.conforms BitmapNetExecutor.snapshots
    BitmapNetExecutor.consumesExactly).reachable BitmapNetExecutor.conforms (fun x made => (BitmapNetExecutor.built made).1)
    begins run
  exact (at_uniform reached.1).2

/-- The pair is taken, its action completes, and the host takes a snapshot of what is left. -/
def parting : List (Label pairSetting) :=
  List.replicate 15 .tick ++ [.settle ⟨0, by decide⟩ none, .deliver ⟨0, by decide⟩] ++ List.replicate 8 .tick ++
    [.call .snapshot]

end LibPetri.Verified

import LibPetri.Basis.Runs
import LibPetri.Debug.DebugProtocolHandler

/-! # The checkpoint cache

A snapshot belongs to a prefix of the event list.  As long as the front of the list stays where it is, the
cached snapshots are those of the list's prefixes, and the state at any index is that of recomputing it.
-/

namespace LibPetri.Verified

open LibPetri.Basis LibPetri.Core LibPetri.Runtime LibPetri.Debug

variable {V I : Type}

/-! ## Snapshots of prefixes -/

section Snapshots

variable {tokenInfo : Token V → I} {events : List (NetEvent V)} {snapshots : List (ComputedState I)}

/-- Each snapshot is the state after the events before it. -/
structure SnapshotsOf (tokenInfo : Token V → I) (events : List (NetEvent V))
    (snapshots : List (ComputedState I)) : Prop where
  within : snapshots.length * SNAPSHOT_INTERVAL ≤ events.length
  state : ∀ k s, snapshots[k]? = some s →
    s = computeState tokenInfo (events.take ((k + 1) * SNAPSHOT_INTERVAL))

theorem SnapshotsOf.nil : SnapshotsOf tokenInfo events [] :=
  ⟨by simp, nofun⟩

theorem SnapshotsOf.append (h : SnapshotsOf tokenInfo events snapshots) (later : List (NetEvent V)) :
    SnapshotsOf tokenInfo (events ++ later) snapshots where
  within := by
    rw [List.length_append]
    exact h.within.trans (Nat.le_add_right _ _)
  state := by
    intro k s at_
    have lt := (List.getElem?_eq_some_iff.mp at_).1
    have inside : (k + 1) * SNAPSHOT_INTERVAL ≤ events.length :=
      (Nat.mul_le_mul_right _ lt).trans h.within
    rw [h.state k s at_, List.take_append_of_le_length inside]

/-- Replaying from an earlier prefix. -/
theorem replay_slice {first last : Nat} (le : first ≤ last) :
    applyEvents tokenInfo (computeState tokenInfo (events.take first)) (slice events first last) =
      computeState tokenInfo (events.take last) := by
  have split : events.take last = events.take first ++ slice events first last := by
    have front : (events.take last).take first = events.take first := by
      rw [List.take_take, Nat.min_eq_left le]
    rw [slice, ← front, List.take_append_drop]
  rw [split, computeState, applyEvents, applyEvents, computeState, applyEvents, List.foldl_append]

theorem slice_zero (last : Nat) : slice events 0 last = events.take last := List.drop_zero

theorem SnapshotsOf.extend (h : SnapshotsOf tokenInfo events snapshots) (missing : Nat) :
    SnapshotsOf tokenInfo events (extendSnapshots tokenInfo events missing snapshots) := by
  induction missing generalizing snapshots with
  | zero => exact h
  | succ missing ih =>
    rw [extendSnapshots]
    split
    next => exact h
    next enough =>
      have enough := Nat.le_of_not_lt enough
      -- One more snapshot, of the next prefix.
      have push (s : ComputedState I)
          (next : s = computeState tokenInfo (events.take ((snapshots.length + 1) * SNAPSHOT_INTERVAL))) :
          SnapshotsOf tokenInfo events (snapshots ++ [s]) := by
        refine ⟨by rwa [List.length_append], fun k s' at_ => ?_⟩
        by_cases lt : k < snapshots.length
        · rw [List.getElem?_append_left lt] at at_
          exact h.state k s' at_
        · rw [List.getElem?_append_right (Nat.le_of_not_lt lt), List.getElem?_singleton] at at_
          split at at_
          next zero =>
            obtain rfl : k = snapshots.length := by omega
            rw [← Option.some.inj at_, next]
          next => cases at_
      cases last : snapshots.getLast? with
      | none =>
        obtain rfl := List.getLast?_eq_none_iff.mp last
        refine ih ?_
        rw [slice_zero]
        exact push _ rfl
      | some previous =>
        refine ih (push _ ?_)
        rw [List.getLast?_eq_getElem?] at last
        have positive := (List.getElem?_eq_some_iff.mp last).1
        rw [h.state _ previous last, Nat.sub_add_cancel (Nat.one_le_of_lt positive)]
        exact replay_slice (Nat.mul_le_mul_right _ (Nat.le_succ _))

/-- The state at an index is that of recomputing it, and the snapshots cached on the way are right too. -/
theorem SnapshotsOf.computeAt (h : SnapshotsOf tokenInfo events snapshots) (targetIndex : Nat) :
    (computeAt tokenInfo snapshots events targetIndex).1 =
        computeState tokenInfo (events.take targetIndex) ∧
      SnapshotsOf tokenInfo events (computeAt tokenInfo snapshots events targetIndex).2 := by
  rw [LibPetri.Debug.computeAt]
  split
  next zero => exact ⟨by rw [zero, List.take_zero], h⟩
  next =>
    have extended := h.extend (targetIndex / SNAPSHOT_INTERVAL - snapshots.length)
    rw [← ensureCachedUpTo] at extended
    dsimp only
    split
    next => exact ⟨by rw [slice_zero], extended⟩
    next snapshotSlot slot =>
      split
      next => exact ⟨by rw [slice_zero], extended⟩
      next snapshot at_ =>
        have state := extended.state snapshotSlot snapshot at_
        have le : (snapshotSlot + 1) * SNAPSHOT_INTERVAL ≤ targetIndex := by
          have cached := min_le_left (targetIndex / SNAPSHOT_INTERVAL)
            (ensureCachedUpTo tokenInfo events targetIndex snapshots).length
          rw [slot] at cached
          exact (Nat.mul_le_mul_right _ cached).trans (Nat.div_mul_le_self _ _)
        split
        next same => exact ⟨by rw [state, same], extended⟩
        next => exact ⟨by rw [state, replay_slice le], extended⟩

end Snapshots

/-! ## The store -/

section Store

variable {E : Type}

theorem evict_eq (maxEvents : Nat) (events : List E) (evicted : Nat) :
    DebugEventStore.evict maxEvents events evicted =
      (events.drop (events.length - maxEvents), evicted + (events.length - maxEvents)) := by
  induction events generalizing evicted with
  | nil => simp [DebugEventStore.evict]
  | cons e events ih =>
    rw [DebugEventStore.evict]
    split
    next more =>
      rw [List.length_cons] at more
      have split : (e :: events).length - maxEvents = events.length - maxEvents + 1 := by
        rw [List.length_cons]
        omega
      rw [ih, split, List.drop_succ_cons, Prod.mk.injEq]
      exact ⟨rfl, by omega⟩
    next fits =>
      rw [Nat.sub_eq_zero_of_le (Nat.le_of_not_lt fits)]
      rfl

theorem append_events_of_room {store : DebugEventStore E} (room : store.events.length < store.maxEvents)
    (event : E) : (store.append event).events = store.events ++ [event] := by
  have fits : (store.events ++ [event]).length - store.maxEvents = 0 := by
    rw [List.length_append, List.length_singleton]
    omega
  rw [DebugEventStore.append, evict_eq, fits, List.drop_zero]

end Store

/-! ## Runs -/

section Runs

variable {tokenInfo : Token V → I}

/-- The snapshots a session has cached, if there is one. -/
def cachedSnapshots (d : Debugger V I) : Option (List (ComputedState I)) := d.session.map (·.markingCache)

/-- Whatever the session has cached are snapshots of the store's events. -/
def CacheValid (tokenInfo : Token V → I) (d : Debugger V I) : Prop :=
  ∀ snapshots, cachedSnapshots d = some snapshots → SnapshotsOf tokenInfo d.store.events snapshots

theorem CacheValid.frame {d d' : Debugger V I} (h : CacheValid tokenInfo d)
    (events : d'.store.events = d.store.events) (cached : cachedSnapshots d' = cachedSnapshots d) :
    CacheValid tokenInfo d' := by
  intro snapshots some_
  rw [events]
  exact h snapshots (cached ▸ some_)

theorem cached_map (d : Debugger V I) (f : SessionSubscription V I → SessionSubscription V I)
    (keeps : ∀ sub, (f sub).markingCache = sub.markingCache) :
    (d.session.map f).map (·.markingCache) = cachedSnapshots d := by
  rw [Option.map_map, cachedSnapshots]
  exact congrArg (d.session.map ·) (funext keeps)

theorem CacheValid.fresh {d : Debugger V I} (h : cachedSnapshots d = some []) : CacheValid tokenInfo d := by
  intro snapshots some_
  rw [← Option.some.inj (h.symm.trans some_)]
  exact SnapshotsOf.nil

theorem CacheValid.sendStateAt {d : Debugger V I} (h : CacheValid tokenInfo d) (targetIndex : Nat) :
    CacheValid tokenInfo (d.sendStateAt tokenInfo targetIndex) := by
  rw [Debugger.sendStateAt]
  split
  next => exact h
  next sub here =>
    intro snapshots some_
    have valid := h sub.markingCache (by rw [cachedSnapshots, here]; rfl)
    rw [← Option.some.inj some_]
    exact (valid.computeAt targetIndex).2

theorem notify_frame (event : NetEvent V) (d : Debugger V I) (listener : Nat) :
    (d.notify event listener).store = d.store ∧
      cachedSnapshots (d.notify event listener) = cachedSnapshots d := by
  rw [Debugger.notify]
  split
  next =>
    dsimp only
    split
    next => exact ⟨rfl, rfl⟩
    next => exact ⟨rfl, cached_map _ _ fun _ => rfl⟩
  next => exact ⟨rfl, rfl⟩

theorem CacheValid.notify {d : Debugger V I} (h : CacheValid tokenInfo d) (event : NetEvent V)
    (listeners : List Nat) : CacheValid tokenInfo (listeners.foldl (Debugger.notify event) d) := by
  induction listeners generalizing d with
  | nil => exact h
  | cons listener listeners ih =>
    have frame := notify_frame event d listener
    exact ih (h.frame (by rw [frame.1]) frame.2)

/-- An append that leaves the front of the list where it is, or finds no snapshot cached. -/
def KeepsFront (d : Debugger V I) : Debugger.Action V → Prop
  | .append _ => d.store.events.length < d.store.maxEvents ∨ (cachedSnapshots d).getD [] = []
  | _ => True

theorem CacheValid.step {d : Debugger V I} (h : CacheValid tokenInfo d) (action : Debugger.Action V)
    (keeps : KeepsFront d action) : CacheValid tokenInfo (d.step tokenInfo action) := by
  cases action with
  | append event =>
    have frame : (d.append event).store = d.store.append event ∧ (d.append event).session = d.session := by
      rw [Debugger.append]
      dsimp only
      split
      next => exact ⟨rfl, rfl⟩
      next => exact ⟨rfl, rfl⟩
    intro snapshots some_
    have cached : cachedSnapshots d = some snapshots := by
      rw [cachedSnapshots, ← frame.2]
      exact some_
    have valid := h snapshots cached
    change SnapshotsOf tokenInfo (d.append event).store.events snapshots
    rw [frame.1]
    rcases keeps with room | nothing
    · rw [append_events_of_room room]
      exact valid.append _
    · rw [cached, Option.getD_some] at nothing
      rw [nothing]
      exact SnapshotsOf.nil
  | microtask =>
    change CacheValid tokenInfo d.runMicrotask
    rw [Debugger.runMicrotask]
    split
    next => exact h
    next event listeners microtasks _ => exact CacheValid.notify (d := { d with microtasks }) h event listeners
  | subscribe live fromIndex =>
    apply CacheValid.fresh
    change cachedSnapshots (d.handleSubscribe tokenInfo live fromIndex) = some []
    rw [Debugger.handleSubscribe]
    split
    next =>
      rw [Debugger.subscribeLive]
      split
      next => rfl
      next => rfl
    next => rfl
  | unsubscribe =>
    intro snapshots some_
    change cachedSnapshots d.cancel = some snapshots at some_
    rw [Debugger.cancel] at some_
    split at some_
    next none_ => rw [cachedSnapshots, none_] at some_; cases some_
    next => split at some_ <;> cases some_
  | seek targetTs =>
    refine CacheValid.sendStateAt (h.frame ?_ ?_) _
    · rfl
    · exact cached_map _ _ fun _ => rfl
  | stepForward =>
    change CacheValid tokenInfo d.handleStepForward
    rw [Debugger.handleStepForward]
    split
    next => exact h
    next => exact h.frame rfl (cached_map d _ fun _ => rfl)
  | stepBackward =>
    change CacheValid tokenInfo (d.handleStepBackward tokenInfo)
    rw [Debugger.handleStepBackward]
    split
    next => exact h
    next currentIndex _ =>
      have moved : cachedSnapshots (d.setEventIndex currentIndex) = cachedSnapshots d :=
        cached_map d (fun sub => { sub with eventIndex := currentIndex }) fun _ => rfl
      have valid : CacheValid tokenInfo (d.setEventIndex currentIndex) := h.frame rfl moved
      exact valid.sendStateAt _
  | pause => exact h.frame rfl (cached_map _ _ fun _ => rfl)
  | resume => exact h.frame rfl (cached_map _ _ fun _ => rfl)
  | filter filter => exact h.frame rfl (cached_map _ _ fun _ => rfl)
  | setBreakpoint bp => exact h.frame rfl (cached_map _ _ fun _ => rfl)
  | clearBreakpoint id => exact h.frame rfl (cached_map _ _ fun _ => rfl)

/-- While no append moves the front of the list under a cached snapshot, the session's cache agrees with
recomputing. -/
theorem computeAt_agrees {maxEvents : Nat} (positive : 0 < maxEvents) {d : Debugger V I}
    (run : Reaches (Debugger.step tokenInfo) KeepsFront
      (Debugger.start (DebugEventStore.create maxEvents positive)) d)
    {sub : SessionSubscription V I} (session : d.session = some sub) (i : Nat) :
    (computeAt tokenInfo sub.markingCache d.store.events i).1 =
      computeState tokenInfo (d.store.events.take i) := by
  have valid : CacheValid tokenInfo d :=
    run.invariant (I := CacheValid tokenInfo) (fun _ none_ => by cases none_)
      fun _ action h keeps => h.step action keeps
  exact (valid sub.markingCache (by rw [cachedSnapshots, session]; rfl)).computeAt i |>.1

theorem computeAt_agrees_at_one :
    (computeAt Token.value [] [NetEvent.tokenAdded 0 "p" ⟨7, 0⟩] 1).1 =
      computeState Token.value [.tokenAdded 0 "p" ⟨(7 : Nat), 0⟩] := by
  let created : Debugger Nat Nat := Debugger.start (DebugEventStore.create 2 (by decide))
  have subscribed : Reaches (Debugger.step Token.value) KeepsFront created
      (created.step Token.value (.subscribe true 0)) :=
    .step (Debugger.Action.subscribe true 0) .start trivial
  have appended := Reaches.step (Debugger.Action.append (.tokenAdded 0 "p" ⟨7, 0⟩)) subscribed (.inl (by decide))
  exact computeAt_agrees (by decide) (.step (Debugger.Action.seek none) appended trivial) rfl 1

/-- A session of a store for 256 events: the checkpoint at 256 is cached, then the event that added the one
token is evicted. -/
def evictedUnderCheckpoint : Debugger Nat Nat :=
  let quiet : Debugger.Action Nat := .append (.transitionClockRestarted 0 "t")
  let actions : List (Debugger.Action Nat) :=
    [.subscribe true 0, .append (.tokenAdded 0 "p" ⟨7, 0⟩)] ++ List.replicate 255 quiet ++ [.seek none, quiet]
  actions.foldl (Debugger.step Token.value) (Debugger.start (DebugEventStore.create 256 (by decide)))

theorem evicted_under_checkpoint : evictedUnderCheckpoint.session.isSome = true ∧
    ∀ sub ∈ evictedUnderCheckpoint.session,
      (computeAt Token.value sub.markingCache evictedUnderCheckpoint.store.events 256).1 ≠
        computeState Token.value (evictedUnderCheckpoint.store.events.take 256) := by
  decide +kernel

end Runs

end LibPetri.Verified

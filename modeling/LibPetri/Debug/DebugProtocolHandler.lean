import LibPetri.Debug.DebugEventStore
import LibPetri.Runtime.ExecutorSupport

/-! # The debug protocol

One client of the debugger and the session it watches: the state computed from a list of events, its
checkpoints, and the commands that subscribe, seek, step, pause and filter.  A live subscription is told of
an event by a microtask queued when the event is appended.
-/

namespace LibPetri.Debug

open LibPetri.Basis LibPetri.Core LibPetri.Runtime

variable {V I : Type}

def timestamp : NetEvent V → Ms
  | .executionStarted timestamp _ _ => timestamp
  | .markingSnapshot timestamp _ => timestamp
  | .transitionEnabled timestamp _ => timestamp
  | .transitionClockRestarted timestamp _ => timestamp
  | .transitionStarted timestamp _ _ => timestamp
  | .transitionCompleted timestamp _ _ _ => timestamp
  | .transitionFailed timestamp _ _ _ => timestamp
  | .transitionTimedOut timestamp _ _ _ => timestamp
  | .actionTimedOut timestamp _ _ => timestamp
  | .tokenAdded timestamp _ _ => timestamp
  | .tokenRemoved timestamp _ _ => timestamp
  | .logMessage timestamp _ _ _ _ _ _ => timestamp
  | .executionCompleted timestamp _ _ _ => timestamp

/-! ## The computed state -/

structure ComputedState (I : Type) where
  marking : OrderedMap PlaceName (List I)
  enabledTransitions : List String
  inFlightTransitions : List String
  deriving DecidableEq

def ComputedState.empty : ComputedState I := ⟨OrderedMap.empty, [], []⟩

/-- `set.add(…)`. -/
def setAdd (names : List String) (name : String) : List String :=
  if name ∈ names then names else names ++ [name]

/-- `set.delete(…)`. -/
def setDelete (names : List String) (name : String) : List String := names.filter fun n => n ≠ name

/-- The array index a property key is, if it is one. -/
def arrayIndex? (key : String) : Option Nat :=
  let n := key.toList.foldl (fun n c => 10 * n + (c.toNat - '0'.toNat)) 0
  if toString n = key ∧ n < 4294967295 then some n else none

/-- `Object.entries(…)`: array indices first, in ascending order. -/
def objectEntries {α : Type} (m : OrderedMap String α) : List (String × α) :=
  (m.entries.filter fun e => (arrayIndex? e.1).isSome).insertionSort
      (fun a b => (arrayIndex? a.1).getD 0 ≤ (arrayIndex? b.1).getD 0) ++
    m.entries.filter fun e => (arrayIndex? e.1).isNone

section State

variable (tokenInfo : Token V → I)

def convertMarking (marking : List (PlaceName × List (Token V))) : OrderedMap PlaceName (List I) :=
  marking.foldl (fun result e => result.set e.1 (e.2.map tokenInfo)) OrderedMap.empty

/-- The marking a snapshot event restores. -/
def snapshotMarking (marking : List (PlaceName × List (Token V))) : OrderedMap PlaceName (List I) :=
  (objectEntries (convertMarking tokenInfo marking)).foldl (fun m e => m.set e.1 e.2) OrderedMap.empty

def applyEvent (s : ComputedState I) : NetEvent V → ComputedState I
  | .tokenAdded _ placeName token =>
    { s with marking :=
        s.marking.set placeName ((s.marking.get? placeName).getD [] ++ [tokenInfo token]) }
  | .tokenRemoved _ placeName _ =>
    match s.marking.get? placeName with
    | none => s
    | some tokens => { s with marking := s.marking.set placeName tokens.tail }
  | .markingSnapshot _ marking =>
    { s with marking := snapshotMarking tokenInfo marking }
  | .transitionEnabled _ transitionName =>
    { s with enabledTransitions := setAdd s.enabledTransitions transitionName }
  | .transitionStarted _ transitionName _ =>
    { s with
      enabledTransitions := setDelete s.enabledTransitions transitionName
      inFlightTransitions := setAdd s.inFlightTransitions transitionName }
  | .transitionCompleted _ transitionName _ _ =>
    { s with inFlightTransitions := setDelete s.inFlightTransitions transitionName }
  | .transitionFailed _ transitionName _ _ =>
    { s with inFlightTransitions := setDelete s.inFlightTransitions transitionName }
  | .transitionTimedOut _ transitionName _ _ =>
    { s with inFlightTransitions := setDelete s.inFlightTransitions transitionName }
  | .actionTimedOut _ transitionName _ =>
    { s with inFlightTransitions := setDelete s.inFlightTransitions transitionName }
  | .executionStarted _ _ _ => s
  | .transitionClockRestarted _ _ => s
  | .logMessage _ _ _ _ _ _ _ => s
  | .executionCompleted _ _ _ _ => s

def applyEvents (s : ComputedState I) (events : List (NetEvent V)) : ComputedState I :=
  events.foldl (applyEvent tokenInfo) s

def computeState (events : List (NetEvent V)) : ComputedState I :=
  applyEvents tokenInfo ComputedState.empty events

/-! ## Checkpoints -/

/-- The number of events between cached snapshots. -/
def SNAPSHOT_INTERVAL : Nat := 256

/-- `events.slice(start, end)`. -/
def slice {E : Type} (events : List E) (first last : Nat) : List E := (events.take last).drop first

/-- Up to `missing` further snapshots, as far as the events go. -/
def extendSnapshots (events : List (NetEvent V)) :
    Nat → List (ComputedState I) → List (ComputedState I)
  | 0, snapshots => snapshots
  | missing + 1, snapshots =>
    let nextSnapshotIndex := (snapshots.length + 1) * SNAPSHOT_INTERVAL
    if events.length < nextSnapshotIndex then snapshots
    else
      match snapshots.getLast? with
      | none =>
        extendSnapshots events missing [computeState tokenInfo (slice events 0 nextSnapshotIndex)]
      | some previous =>
        extendSnapshots events missing (snapshots ++ [applyEvents tokenInfo previous
          (slice events (snapshots.length * SNAPSHOT_INTERVAL) nextSnapshotIndex)])

def ensureCachedUpTo (events : List (NetEvent V)) (targetIndex : Nat)
    (snapshots : List (ComputedState I)) : List (ComputedState I) :=
  extendSnapshots tokenInfo events (targetIndex / SNAPSHOT_INTERVAL - snapshots.length) snapshots

/-- The state at an index, with the snapshots then cached. -/
def computeAt (snapshots : List (ComputedState I)) (events : List (NetEvent V)) (targetIndex : Nat) :
    ComputedState I × List (ComputedState I) :=
  if targetIndex = 0 then (computeState tokenInfo [], snapshots)
  else
    let snapshots := ensureCachedUpTo tokenInfo events targetIndex snapshots
    match min (targetIndex / SNAPSHOT_INTERVAL) snapshots.length with
    | 0 => (computeState tokenInfo (slice events 0 targetIndex), snapshots)
    | snapshotSlot + 1 =>
      match snapshots[snapshotSlot]? with
      | none => (computeState tokenInfo (slice events 0 targetIndex), snapshots)
      | some snapshot =>
        let snapshotEventIndex := (snapshotSlot + 1) * SNAPSHOT_INTERVAL
        if snapshotEventIndex = targetIndex then (snapshot, snapshots)
        else (applyEvents tokenInfo snapshot (slice events snapshotEventIndex targetIndex), snapshots)

end State

/-! ## A client -/

structure Breakpoint (E : Type) where
  id : String
  enabled : Bool
  matchesEvent : E → Bool

structure SessionSubscription (V I : Type) where
  /-- The listener of a live subscription. -/
  subscription : Option Nat
  eventIndex : Nat
  markingCache : List (ComputedState I)
  breakpoints : List (Breakpoint (NetEvent V))
  paused : Bool
  filter : Option (NetEvent V → Bool)

inductive Response (V I : Type)
  | subscribed (state : ComputedState I) (eventCount : Nat) (live : Bool)
  | unsubscribed
  | eventBatch (startIndex : Nat) (events : List (NetEvent V)) (hasMore : Bool)
  | event (index : Nat) (event : NetEvent V)
  | breakpointHit (breakpointId : String) (event : NetEvent V) (eventIndex : Nat)
  | markingSnapshot (state : ComputedState I)
  | playbackStateChanged (paused : Bool) (currentIndex : Nat)

/-- A client, the session it watches, and what waits to be delivered to its listeners. -/
structure Debugger (V I : Type) where
  store : DebugEventStore (NetEvent V)
  subscribers : List Nat
  /-- The `eventIndex` each listener so far has captured. -/
  counters : List Nat
  microtasks : List (NetEvent V × List Nat)
  session : Option (SessionSubscription V I)
  sent : List (Response V I)

namespace Debugger

def start (store : DebugEventStore (NetEvent V)) : Debugger V I := ⟨store, [], [], [], none, []⟩

def send (d : Debugger V I) (response : Response V I) : Debugger V I :=
  { d with sent := d.sent ++ [response] }

def isPaused (d : Debugger V I) : Bool := (d.session.map (·.paused)).getD false

def setPaused (paused : Bool) (d : Debugger V I) : Debugger V I :=
  { d with session := d.session.map fun sub => { sub with paused } }

def getEventIndex (d : Debugger V I) : Nat := (d.session.map (·.eventIndex)).getD 0

def setEventIndex (index : Nat) (d : Debugger V I) : Debugger V I :=
  { d with session := d.session.map fun sub => { sub with eventIndex := index } }

def matchesFilter (d : Debugger V I) (event : NetEvent V) : Bool :=
  match d.session.bind (·.filter) with
  | none => true
  | some filter => filter event

def checkBreakpoints (d : Debugger V I) (event : NetEvent V) : Option (Breakpoint (NetEvent V)) :=
  d.session.bind fun sub => sub.breakpoints.find? fun bp => bp.enabled && bp.matchesEvent event

/-- `client.subscriptions.cancel(sessionId)`. -/
def cancel (d : Debugger V I) : Debugger V I :=
  match d.session with
  | none => d
  | some sub =>
    match sub.subscription with
    | none => { d with session := none }
    | some listener =>
      { d with session := none, subscribers := d.subscribers.filter fun l => l ≠ listener }

def addSubscription (subscription : Option Nat) (eventIndex : Nat) (d : Debugger V I) : Debugger V I :=
  { d with session := some ⟨subscription, eventIndex, [], [], false, none⟩ }

/-! ### Events -/

def append (event : NetEvent V) (d : Debugger V I) : Debugger V I :=
  let d := { d with store := d.store.append event }
  if d.subscribers = [] then d else { d with microtasks := d.microtasks ++ [(event, d.subscribers)] }

/-- A listener is told of an event. -/
def notify (event : NetEvent V) (d : Debugger V I) (listener : Nat) : Debugger V I :=
  if d.isPaused = false ∧ d.matchesFilter event = true then
    let idx := (d.counters[listener]?).getD 0
    let d := { d with counters := d.counters.set listener (idx + 1) }
    let d := match d.checkBreakpoints event with
      | none => d
      | some bp => (d.setPaused true).send (.breakpointHit bp.id event idx)
    d.send (.event idx event)
  else d

def runMicrotask (d : Debugger V I) : Debugger V I :=
  match d.microtasks with
  | [] => d
  | (event, listeners) :: microtasks => listeners.foldl (notify event) { d with microtasks }

/-! ### Subscribing -/

def BATCH_SIZE : Nat := 500

theorem drop_batch_lt {E : Type} {events : List E} (more : ¬ events.length ≤ BATCH_SIZE) :
    (events.drop BATCH_SIZE).length < events.length := by
  rw [List.length_drop]
  simp only [BATCH_SIZE] at more ⊢
  omega

def batches (startIndex : Nat) (events : List (NetEvent V)) : List (Response V I) :=
  if events.length ≤ BATCH_SIZE then [.eventBatch startIndex events false]
  else
    .eventBatch startIndex (events.take BATCH_SIZE) true ::
      batches (startIndex + BATCH_SIZE) (events.drop BATCH_SIZE)
termination_by events.length
decreasing_by exact drop_batch_lt (by assumption)

def sendInBatches (startIndex : Nat) (events : List (NetEvent V)) (d : Debugger V I) : Debugger V I :=
  { d with sent := d.sent ++ batches startIndex events }

/-- `eventStore.subscribe(…)` of a listener that counts from `eventIndex`. -/
def listen (eventIndex : Nat) (d : Debugger V I) : Debugger V I :=
  { d with
    subscribers := d.subscribers ++ [d.counters.length]
    counters := d.counters ++ [eventIndex] }

def subscribeLive (fromIndex : Nat) (d : Debugger V I) : Debugger V I :=
  let historicalEvents := d.store.eventsFrom fromIndex
  let listener := d.counters.length
  if historicalEvents = [] then (d.listen fromIndex).addSubscription (some listener) fromIndex
  else
    let filtered := historicalEvents.filter d.matchesFilter
    let eventIndex := fromIndex + historicalEvents.length
    ((d.sendInBatches fromIndex filtered).listen eventIndex).addSubscription (some listener) eventIndex

def subscribeReplay (fromIndex : Nat) (d : Debugger V I) : Debugger V I :=
  let events := d.store.eventsFrom fromIndex
  setPaused true
    ((d.sendInBatches fromIndex events).addSubscription none (fromIndex + events.length))

section Commands

variable (tokenInfo : Token V → I)

def handleSubscribe (live : Bool) (fromIndex : Nat) (d : Debugger V I) : Debugger V I :=
  let d := d.cancel
  let d := d.send (.subscribed (computeState tokenInfo d.store.events) d.store.eventCount live)
  if live then d.subscribeLive fromIndex else d.subscribeReplay fromIndex

def handleUnsubscribe (d : Debugger V I) : Debugger V I := d.cancel.send .unsubscribed

/-! ### Seeking and stepping -/

/-- `client.subscriptions.computeStateAt(…)`, sent to the client. -/
def sendStateAt (targetIndex : Nat) (d : Debugger V I) : Debugger V I :=
  match d.session with
  | none =>
    d.send (.markingSnapshot (computeState tokenInfo (slice d.store.events 0 targetIndex)))
  | some sub =>
    let computed := computeAt tokenInfo sub.markingCache d.store.events targetIndex
    send { d with session := some { sub with markingCache := computed.2 } } (.markingSnapshot computed.1)

/-- To the first event at or after a time, or past the last one; `none` is a time that is no date. -/
def handleSeek (targetTs : Option Ms) (d : Debugger V I) : Debugger V I :=
  let targetIndex := d.store.events.findIdx fun event =>
    match targetTs with
    | none => false
    | some targetTs => decide (targetTs ≤ timestamp event)
  (d.setEventIndex targetIndex).sendStateAt tokenInfo targetIndex

def handleStepForward (d : Debugger V I) : Debugger V I :=
  let currentIndex := d.getEventIndex
  match d.store.events[currentIndex]? with
  | none => d
  | some event => (d.send (.event currentIndex event)).setEventIndex (currentIndex + 1)

def handleStepBackward (d : Debugger V I) : Debugger V I :=
  match d.getEventIndex with
  | 0 => d
  | currentIndex + 1 => (d.setEventIndex currentIndex).sendStateAt tokenInfo currentIndex

end Commands

def handlePaused (paused : Bool) (d : Debugger V I) : Debugger V I :=
  let d := d.setPaused paused
  d.send (.playbackStateChanged paused d.getEventIndex)

def handleSetFilter (filter : NetEvent V → Bool) (d : Debugger V I) : Debugger V I :=
  { d with session := d.session.map fun sub => { sub with filter := some filter } }

def handleSetBreakpoint (bp : Breakpoint (NetEvent V)) (d : Debugger V I) : Debugger V I :=
  { d with session := d.session.map fun sub =>
      { sub with breakpoints := sub.breakpoints.filter (fun b => b.id ≠ bp.id) ++ [bp] } }

def handleClearBreakpoint (id : String) (d : Debugger V I) : Debugger V I :=
  { d with session := d.session.map fun sub =>
      { sub with breakpoints := sub.breakpoints.filter fun b => b.id ≠ id } }

/-- What can happen next: an event is appended, the oldest microtask runs, or the client sends a
command. -/
inductive Action (V : Type)
  | append (event : NetEvent V)
  | microtask
  | subscribe (live : Bool) (fromIndex : Nat)
  | unsubscribe
  | seek (targetTs : Option Ms)
  | stepForward
  | stepBackward
  | pause
  | resume
  | filter (filter : NetEvent V → Bool)
  | setBreakpoint (bp : Breakpoint (NetEvent V))
  | clearBreakpoint (id : String)

def step (tokenInfo : Token V → I) (d : Debugger V I) : Action V → Debugger V I
  | .append event => d.append event
  | .microtask => d.runMicrotask
  | .subscribe live fromIndex => d.handleSubscribe tokenInfo live fromIndex
  | .unsubscribe => d.handleUnsubscribe
  | .seek targetTs => d.handleSeek tokenInfo targetTs
  | .stepForward => d.handleStepForward
  | .stepBackward => d.handleStepBackward tokenInfo
  | .pause => d.handlePaused true
  | .resume => d.handlePaused false
  | .filter filter => d.handleSetFilter filter
  | .setBreakpoint bp => d.handleSetBreakpoint bp
  | .clearBreakpoint id => d.handleClearBreakpoint id

end Debugger

end LibPetri.Debug

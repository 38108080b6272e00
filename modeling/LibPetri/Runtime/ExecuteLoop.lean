import LibPetri.Runtime.Executor

/-! # The loop of an executor

The text the two executors share: the dirty scan, deadlines, firing, completions, external events and
the wait.  What they implement each their own way is a `Backend`.  `executeLoop` is the loop as a
machine: a `Phase` is a program point, and one step runs to the next.  Between two steps the state is
what the source holds at the end of one of its operations.
-/

namespace LibPetri.Runtime

open LibPetri.Basis LibPetri.Core CompiledNet

variable {V N : Type} [LinearOrder N]

/-- What a firing has consumed and what its action may read. -/
structure Consumption (V N : Type) where
  inputs : List (PlaceName × Token V)
  consumed : List (Token V)
  matchedName : Option N

namespace Executor

variable {cfg : Setting V N} {S : Type}

/-! ## Consumption -/

/-- The name a join would match: read off its cache, or found from scratch. -/
def bindingOf (ops : StoreOps cfg S) (tid : Tid cfg.net) (x : Exec cfg S) : Except Thrown (Option N) :=
  match x.ctl.matchCaches tid with
  | some cache => .ok cache.best
  | none => findBinding (transition tid) fun p => ops.queue p x.store

/-- Takes up to `n` tokens from a place, one event for each. -/
def takeTokens (ops : StoreOps cfg S) (p : PlaceName) (next : Method cfg S (Option (Nat × Token V))) :
    Nat → Consumption V N → Method cfg S (Consumption V N)
  | 0, c => pure c
  | n + 1, c => do
    match ← next with
    | none => pure c
    | some (index, token) =>
      record (.took p index token)
      emitEvent ops fun ts => .tokenRemoved ts p token
      takeTokens ops p next n
        { c with inputs := c.inputs ++ [(p, token)], consumed := c.consumed ++ [token] }

/-- Empties a place a reset arc names, one event for each token. -/
def resetPlace (ops : StoreOps cfg S) (p : PlaceName) (c : Consumption V N) :
    Method cfg S (Consumption V N) := do
  let removed ← onStore fun s => (.ok (ops.removeAll p s).1, (ops.removeAll p s).2)
  record (.reset p removed)
  Prog.each removed fun token => emitEvent ops fun ts => .tokenRemoved ts p token
  pure { c with consumed := c.consumed ++ removed }

/-- The name a firing matches, mirrored into its cache before any token leaves. -/
def chooseBinding (ops : StoreOps cfg S) (tid : Tid cfg.net) : Method cfg S (Option N) := do
  let x ← Prog.gets id
  let chosen ← Prog.lift (bindingOf ops tid x)
  match x.ctl.matchCaches tid, chosen with
  | some cache, some name =>
    setCtl fun c => { c with
      matchCaches := Function.update c.matchCaches tid (some (cache.consume name)) }
  | _, _ => pure ()
  pure chosen

/-- Consumes from one input: the tokens of the chosen name where the input is correlated, the oldest
tokens elsewhere. -/
def consumeInput (ops : StoreOps cfg S) (t : Transition V N) (chosen : Option N) (spec : In)
    (c : Consumption V N) : Method cfg S (Consumption V N) :=
  match t.matchSpec.bind fun ms => keyForPlace ms spec.place, chosen with
  | some keyFn, some name => do
    let predicate (v : V) : Except Thrown Bool := (keyFn v).map fun found => found = some name
    let toConsume ← match spec with
      | .one _ => pure 1
      | .exactly count _ => pure count
      | .all p | .atLeast _ p => do
        let x ← Prog.gets id
        Prog.lift (ops.countMatching p predicate x.store)
    takeTokens ops spec.place (onStore (ops.removeFirstMatching spec.place predicate)) toConsume c
  | _, _ => do
    let toConsume ← match spec with
      | .one _ => pure 1
      | .exactly count _ => pure count
      | .all p | .atLeast _ p => Prog.gets fun x => (ops.queue p x.store).length
    takeTokens ops spec.place
      (onStore fun s =>
        (.ok ((ops.removeFirst spec.place s).1.map fun token => (0, token)),
          (ops.removeFirst spec.place s).2))
      toConsume c

def consumeInputs (ops : StoreOps cfg S) (t : Transition V N) (chosen : Option N) :
    List In → Consumption V N → Method cfg S (Consumption V N)
  | [], c => pure c
  | spec :: specs, c => do
    let c ← consumeInput ops t chosen spec c
    consumeInputs ops t chosen specs c

def resetPlaces (ops : StoreOps cfg S) : List PlaceName → Consumption V N →
    Method cfg S (Consumption V N)
  | [], c => pure c
  | p :: places, c => do
    let c ← resetPlace ops p c
    resetPlaces ops places c

/-- Adds the front token of each read place to what the action may read. -/
def peekReads (queue : PlaceName → List (Token V)) (reads : List PlaceName) (c : Consumption V N) :
    Consumption V N :=
  { c with inputs := c.inputs ++ reads.filterMap fun p => (queue p).head?.map fun token => (p, token) }

/-- Reports a firing that wrote several tokens to a place its specification names once. -/
def warnMultiplicity (ops : StoreOps cfg S) (transitionName : String)
    (entries : List (PlaceName × Token V)) (claim : List PlaceName) : Method cfg S Unit := do
  let warned ← Prog.gets fun x => x.ctl.warnedMultiplicity
  let repeated := repeatedPlaces entries claim
  if transitionName ∈ warned || repeated.isEmpty then pure ()
  else do
    setCtl fun c => { c with warnedMultiplicity := c.warnedMultiplicity ++ [transitionName] }
    warn ops (multiplicityMessage transitionName repeated) transitionName

end Executor

/-! ## Backends, phases -/

/-- The parts of the executors that differ in their text. -/
structure Backend (cfg : Setting V N) (S : Type) extends StoreOps cfg S where
  /-- Presence of every needed place, absence of every inhibitor. -/
  maskAllows : Tid cfg.net → Bitset (placeCount cfg.net) → Bool
  priority : Tid cfg.net → Int
  /-- The consumption stage of a firing: inputs, read arcs, resets. -/
  consume : Tid cfg.net → Method cfg S (Consumption V N)
  /-- Forgets the flight of a contained firing, if it was registered. -/
  discard : Tid cfg.net → Method cfg S Unit
  /-- Validates the output of a completed firing. -/
  validateOutput : Tid cfg.net → Flight V N → Method cfg S Unit
  /-- Puts a token into a place, on behalf of a transition (or of the environment, as `""`). -/
  produceToken : PlaceName → Token V → String → Method cfg S Unit

/-- What a parked loop waits on. -/
structure Race (net : PetriNet V N) where
  flights : List (Tid net)
  wakeUp : Bool
  /-- The timer, or the sleep of the injected clock; `⊤` is a sleep without end. -/
  timer : Option (WithTop Ms)
  deriving DecidableEq

/-- The program points of `executeLoop`. -/
inductive Phase (net : PetriNet V N)
  | created
  /-- The loop condition. -/
  | head
  | completing (i len : Nat)
  | external
  | admitting (i len : Nat)
  | scan
  | deadlines
  | firingImmediate (rest : List (Tid net))
  | firingGeneral (rest : List (Tid net)) (freshSnap : Bitset (placeCount net))
  | fired
  /-- The microtask flush of `awaitWork`. -/
  | flush
  | parked (race : Race net)
  /-- The continuation of `await this.awaitWork()`. -/
  | resuming
  | exit
  | ended
  /-- An exception has left the loop. -/
  | crashed (e : Thrown)
  deriving DecidableEq

namespace Executor

variable {cfg : Setting V N} {S : Type} (B : Backend cfg S)

/-! ## Enablement -/

/-- The cardinality check. -/
def hasCardinality (tid : Tid cfg.net) (x : Exec cfg S) : Bool :=
  match cardinalityCheck tid with
  | none => true
  | some checks => checks.all fun c => c.2 ≤ (B.queue (place cfg.net c.1) x.store).length

def canEnable (tid : Tid cfg.net) (markingSnap : Bitset (placeCount cfg.net)) (x : Exec cfg S) :
    Except Thrown Bool :=
  if !B.maskAllows tid markingSnap then .ok false
  else if !hasCardinality B tid x then .ok false
  else if hasMatch tid then (bindingOf B.toStoreOps tid x).map Option.isSome
  else .ok true

def checkEnabled (tid : Tid cfg.net) (markingSnap : Bitset (placeCount cfg.net)) : Method cfg S Bool :=
  ⟨fun x => (canEnable B tid markingSnap x, x)⟩

/-- A transition number below the count. -/
def toTid? (n : Nat) : Option (Tid cfg.net) :=
  if h : n < transitionCount cfg.net then some ⟨n, h⟩ else none

/-- The body of the dirty scan. -/
def scanTransition (now : Ms) (markingSnap : Bitset (placeCount cfg.net)) (tid : Tid cfg.net) :
    Method cfg S Unit := do
  if ← Prog.gets fun x => x.ctl.inFlightFlags tid then pure ()
  else
    let wasEnabled ← Prog.gets fun x => x.ctl.enabledFlags tid
    let canNow ← checkEnabled B tid markingSnap
    let restart ← Prog.gets fun x =>
      x.ctl.anyRestartPending && x.ctl.restartPendingWords.testBit tid
    if canNow && !wasEnabled then do
      setCtl (enable tid now)
      emitEvent B.toStoreOps fun ts => .transitionEnabled ts (transition tid).name
    else if !canNow && wasEnabled then setCtl (disable tid)
    else if canNow && wasEnabled && restart then do
      setCtl fun c => { c with enabledAtMs := Function.update c.enabledAtMs tid (some now) }
      emitEvent B.toStoreOps fun ts => .transitionClockRestarted ts (transition tid).name
    else pure ()

def updateDirtyTransitions : Method cfg S Unit := do
  let now ← nowMs
  let markingSnap ← Prog.gets fun x => x.ctl.markingBitmap
  let dirtySnap ← Prog.gets fun x => x.ctl.dirtySet
  setCtl fun c => { c with dirtySet := Bitset.empty }
  Prog.each (dirtySnap.toList.filterMap toTid?) (scanTransition B now markingSnap)
  if ← Prog.gets fun x => x.ctl.anyRestartPending then
    setCtl fun c => { c with restartPendingWords := Bitset.empty, anyRestartPending := false }
  else pure ()

/-! ## Deadlines -/

/-- `now - enabledAtMs[tid]`. -/
def elapsedSince (now : Ms) : Option Ms → WithTop Ms
  | none => ⊤
  | some enabledAt => ((now - enabledAt : Ms) : WithTop Ms)

/-- The body of the deadline pass. -/
def enforceDeadline (now : Ms) (tid : Tid cfg.net) : Method cfg S Unit := do
  let timing := (transition tid).timing
  let c ← Prog.gets fun x => x.ctl
  let elapsed := elapsedSince now (c.enabledAtMs tid)
  if timing.hasDeadline && !timing.isExact && c.enabledFlags tid && !c.inFlightFlags tid &&
      ((timing.latest + cfg.deadlineToleranceMs : Ms) : WithTop Ms) < elapsed then do
    setCtl (disable tid)
    record (.reaped tid)
    emitEvent B.toStoreOps fun ts =>
      .transitionTimedOut ts (transition tid).name timing.latest elapsed
  else pure ()

def enforceDeadlines (now : Ms) : Method cfg S Unit :=
  Prog.each (List.finRange _) (enforceDeadline B now)

variable (cfg) in
def hasAnyDeadlines : Bool := cfg.net.transitions.any fun t => t.timing.hasDeadline

variable (cfg) in
def hasEnvironmentPlaces : Bool := !cfg.environmentPlaces.isEmpty

def shouldTerminate (x : Exec cfg S) : Bool :=
  let idle := B.inFlightSize x.store = 0 && x.io.completionQueue.isEmpty
  if x.io.closed then idle
  else if hasEnvironmentPlaces cfg then
    x.io.draining && x.ctl.enabledTransitionCount = 0 && idle
  else x.ctl.enabledTransitionCount = 0 && idle

/-! ## Firing -/

/-- Flags each other transition a firing of `tid` has just disabled through `pid`. -/
def flagIntermediateDisablements (tid : Tid cfg.net) (pid : Nat) : Method cfg S Unit :=
  Prog.each (affectedTransitions pid) fun other => do
    let c ← Prog.gets fun x => x.ctl
    if other = tid || !c.enabledFlags other || c.inFlightFlags other ||
        c.restartPendingWords.testBit other then pure ()
    else if ← checkEnabled B other c.markingBitmap then pure ()
    else setCtl fun c => { c with
      restartPendingWords := c.restartPendingWords.setBit other, anyRestartPending := true }

def updateBitmapAfterConsumption (tid : Tid cfg.net) : Method cfg S Unit :=
  Prog.each (consumptionPlaceIds tid) fun pid => do
    let left ← Prog.gets fun x => (B.queue (place cfg.net pid) x.store).length
    if left = 0 then setCtl fun c => { c with markingBitmap := c.markingBitmap.clearBit pid }
    else pure ()
    markDirty pid
    if (left : WithTop Nat) < restartThreshold cfg.net pid then flagIntermediateDisablements B tid pid
    else pure ()

/-- One step of an action, on what it has written. -/
def actionStep (ops : StoreOps cfg S) (t : Transition V N) (detached : Bool)
    (entries : List (PlaceName × Token V)) : ActionStep V → Method cfg S (List (PlaceName × Token V))
  | .output p value =>
    if detached then pure entries
    else do
      let ts ← epochMs
      pure (entries ++ [(p, ⟨value, ts⟩)])
  | .outputToken p token => pure (if detached then entries else entries ++ [(p, token)])
  | .log level message error errorMessage => do
    emitEvent ops fun ts => .logMessage ts t.name t.name level message error errorMessage
    pure entries
  | .call call => do
    Prog.modify fun x => hostCall ops x call
    pure entries

/-- The synchronous prefix of an action. -/
def executeAction (ops : StoreOps cfg S) (t : Transition V N) :
    List (ActionStep V) → List (PlaceName × Token V) → Method cfg S (List (PlaceName × Token V))
  | [], entries => pure entries
  | step :: steps, entries => do
    let entries ← actionStep ops t false entries step
    executeAction ops t steps entries

/-- Registers a flight, and takes its transition from enabled to in flight. -/
def launch (tid : Tid cfg.net) (flight : Flight V N) : Method cfg S Unit := do
  setStore (B.register tid flight)
  setCtl fun c => disable tid { c with inFlightFlags := Function.update c.inFlightFlags tid true }
  record (.launched tid flight.inputs flight.consumed flight.matchedName)

def fireTransition (tid : Tid cfg.net) : Method cfg S Unit := do
  let t := transition tid
  record (.began tid)
  let c ← B.consume tid
  updateBitmapAfterConsumption B tid
  emitEvent B.toStoreOps fun ts => .transitionStarted ts t.name c.consumed
  let start ← Prog.gets fun x => cfg.start x.io.firings
  setIo fun io => { io with firings := io.firings + 1 }
  match start.provider with
  | some e => Prog.throw e
  | none => pure ()
  let entries ← executeAction B.toStoreOps t start.syncSteps []
  let startMs ← nowMs
  launch B tid
    { inputs := c.inputs, entries := entries, detached := false, consumed := c.consumed
      startMs := startMs, status := .running, error := none, matchedName := c.matchedName }

/-- What containment does with a throw. -/
def containFiring (tid : Tid cfg.net) (e : Thrown) : Method cfg S Unit := do
  setCtl fun c => { c with unsettled := false }
  record (.aborted tid)
  if ← Prog.gets fun x => x.ctl.enabledFlags tid then setCtl (disable tid) else pure ()
  B.discard tid
  updateBitmapAfterConsumption B tid
  setCtl fun c => { c with matchCaches := Function.update c.matchCaches tid none }
  let err ← Prog.lift (asError e)
  emitFailed B.toStoreOps (transition tid).name err
  markTransitionDirty tid

def fireTransitionContained (tid : Tid cfg.net) : Method cfg S Unit := do
  setCtl fun c => { c with unsettled := true }
  Prog.tryCatch
    (do
      fireTransition B tid
      setCtl fun c => { c with unsettled := false })
    (containFiring B tid)

/-- The body of `fireReadyImmediate`. -/
def fireImmediate (tid : Tid cfg.net) : Method cfg S Unit := do
  let c ← Prog.gets fun x => x.ctl
  if !c.enabledFlags tid || c.inFlightFlags tid then pure ()
  else if ← checkEnabled B tid c.markingBitmap then fireTransitionContained B tid
  else setCtl (disable tid)

/-- The body of the firing loop of `fireReadyGeneral`: the snapshot the next entry is checked
against. -/
def fireReady (freshSnap : Bitset (placeCount cfg.net)) (tid : Tid cfg.net) :
    Method cfg S (Bitset (placeCount cfg.net)) := do
  let enabled ← Prog.gets fun x => x.ctl.enabledFlags tid
  let fires ← if enabled then checkEnabled B tid freshSnap else pure false
  if fires then do
    fireTransitionContained B tid
    Prog.gets fun x => x.ctl.markingBitmap
  else do
    setCtl (disable tid)
    pure freshSnap

/-- `-Infinity` comes first. -/
def enablementOrder : Option Ms → WithBot Ms
  | none => ⊥
  | some enabledAt => enabledAt

/-- Sorted before: higher priority, then earlier enablement.  The sort is stable. -/
def firesBefore (c : Control cfg.net) (a b : Tid cfg.net) : Prop :=
  B.priority b < B.priority a ∨
    B.priority b = B.priority a ∧
      enablementOrder (c.enabledAtMs a) ≤ enablementOrder (c.enabledAtMs b)

instance (c : Control cfg.net) (a b : Tid cfg.net) : Decidable (firesBefore B c a b) :=
  inferInstanceAs (Decidable (_ ∨ _))

/-- The transitions whose earliest bound has been reached, in firing order. -/
def readyTransitions (now : Ms) (c : Control cfg.net) : List (Tid cfg.net) :=
  ((List.finRange _).filter fun tid =>
    c.enabledFlags tid && !c.inFlightFlags tid &&
      (((transition tid).timing.earliest : Ms) : WithTop Ms) ≤ elapsedSince now (c.enabledAtMs tid)
    ).insertionSort (firesBefore B c)

variable (cfg) in
def allImmediate : Bool := cfg.net.transitions.all fun t => t.timing.isImmediate

variable (cfg) in
def allSamePriority : Bool :=
  match cfg.net.transitions with
  | [] => true
  | first :: rest => rest.all fun t => t.priority = first.priority

/-! ## Completions -/

/-- Deposits one output and reports it. -/
def depositEntry (transitionName : String) (entry : PlaceName × Token V) : Method cfg S Unit := do
  B.produceToken entry.1 entry.2 transitionName
  emitEvent B.toStoreOps fun ts => .tokenAdded ts entry.1 entry.2

/-- The `try` block of a completion. -/
def depositOutputs (tid : Tid cfg.net) (flight : Flight V N) : Method cfg S Unit := do
  B.validateOutput tid flight
  Prog.each flight.entries (depositEntry B (transition tid).name)
  markTransitionDirty tid
  setCtl fun c => { c with unsettled := false }
  record (.landed tid)
  let now ← nowMs
  emitEvent B.toStoreOps fun ts =>
    .transitionCompleted ts (transition tid).name (flight.entries.map Prod.snd) (now - flight.startMs)

/-- Fails a completion. -/
def failCompletion (tid : Tid cfg.net) (e : Thrown) : Method cfg S Unit := do
  record (.failed tid)
  let err ← Prog.lift (asError e)
  emitFailed B.toStoreOps (transition tid).name err
  markTransitionDirty tid

/-- The body of `processCompletedTransitions` for one transition. -/
def completeTransition (tid : Tid cfg.net) : Method cfg S Unit := do
  match ← Prog.gets fun x => B.flight? tid x.store with
  | none => pure ()
  | some flight =>
    record (.settled tid flight.entries)
    setStore (B.unregister tid)
    setCtl fun c => { c with inFlightFlags := Function.update c.inFlightFlags tid false }
    match flight.error.filter Thrown.truthy with
    | some e => failCompletion B tid e
    | none =>
      setCtl fun c => { c with unsettled := true }
      Prog.tryCatch (depositOutputs B tid flight) fun e => do
        setCtl fun c => { c with unsettled := false }
        failCompletion B tid e

/-! ## External events -/

/-- The body of `processExternalEvents` for one event. -/
def admitEvent (i : Nat) (event : ExternalEvent V) : Method cfg S Unit := do
  setIo fun io => { io with externalCursor := i + 1 }
  record (.admitting event)
  Prog.tryCatch
    (do
      B.produceToken event.place event.token ""
      emitEvent B.toStoreOps fun ts => .tokenAdded ts event.place event.token
      record (.resolved event.id true))
    fun e => do
      let _ ← Prog.lift (asError e)
      record (.rejected event.id)

/-- Drops what this pass has deposited. -/
def dropDeposited {net : PetriNet V N} (io : Io net) : Io net :=
  { io with externalQueue := io.externalQueue.drop io.externalCursor, externalCursor := 0 }

def drainPendingExternalEvents : Method cfg S Unit := do
  let pending ← Prog.gets fun x => x.io.externalQueue
  setIo fun io => { io with externalQueue := [] }
  Prog.each pending fun event => record (.resolved event.id false)

/-! ## The wait -/

/-- The wait a transition asks for: until its earliest bound, and until its deadline. -/
def boundariesOf (timing : Timing) (elapsed : WithTop Ms) : List (WithTop Ms) :=
  match elapsed with
  | ⊤ => [0]
  | (elapsed : Ms) =>
    ((timing.earliest - elapsed : Ms) : WithTop Ms) ::
      if timing.hasDeadline then [((timing.latest - elapsed : Ms) : WithTop Ms)] else []

/-- The loop of `millisUntilNextTimedTransition`: 0 at the first boundary that is due. -/
def leastBoundary : List (WithTop Ms) → WithTop Ms → WithTop Ms
  | [], minWaitMs => minWaitMs
  | boundary :: rest, minWaitMs =>
    if boundary ≤ 0 then 0 else leastBoundary rest (min minWaitMs boundary)

def millisUntilNextTimedTransition (now : Ms) (c : Control cfg.net) : WithTop Ms :=
  leastBoundary
    ((List.finRange _).flatMap fun tid =>
      if c.enabledFlags tid then
        boundariesOf (transition tid).timing (elapsedSince now (c.enabledAtMs tid))
      else [])
    ⊤

/-- `isWorkReady`. -/
def isWorkReady {net : PetriNet V N} (io : Io net) : Bool :=
  !io.completionQueue.isEmpty || (!io.closed && !io.externalQueue.isEmpty)

/-- `awaitWork` past its flush: parks on a race, or returns. -/
def parkOrResume : Method cfg S (Phase cfg.net) := do
  let x ← Prog.gets id
  if x.io.wakeUpPending then do
    setIo fun io => { io with wakeUpPending := false }
    pure .resuming
  else if isWorkReady x.io then pure .resuming
  else if x.io.closed && B.inFlightSize x.store = 0 then pure .resuming
  else
    let flights := if 0 < B.inFlightSize x.store then B.racing x.store else []
    if x.io.closed then do
      setIo fun io => { io with raceSettled := false }
      pure (.parked { flights := flights, wakeUp := false, timer := none })
    else do
      let now ← nowMs
      let timerMs := millisUntilNextTimedTransition now x.ctl
      if timerMs = 0 && flights.isEmpty then pure .resuming
      else do
        setIo fun io => { io with parkedOnWakeUp := true, raceSettled := false }
        let timer :=
          if 0 < timerMs then
            if cfg.hasClock then some timerMs else if timerMs < ⊤ then some timerMs else none
          else none
        pure (.parked { flights := flights, wakeUp := true, timer := timer })

/-! ## The machine -/

/-- `snapshotMarking()`: the non-empty declared places, by name. -/
def snapshotMarking (x : Exec cfg S) : List (PlaceName × List (Token V)) :=
  sortByName (((List.range (placeCount cfg.net)).map fun pid =>
    (place cfg.net pid, B.queue (place cfg.net pid) x.store)).filter fun e =>
      !e.2.isEmpty)

/-- The bits of the places that hold a token. -/
def initializeMarkingBitmap (x : Exec cfg S) : Bitset (placeCount cfg.net) :=
  (List.range (placeCount cfg.net)).foldl (fun bits pid =>
    if (B.queue (place cfg.net pid) x.store).isEmpty then bits else bits.setBit pid)
    x.ctl.markingBitmap

/-- `checkInitialTerminals()`, where the net has terminals. -/
def checkInitialTerminals (x : Exec cfg S) : Bool :=
  (List.range (placeCount cfg.net)).any fun pid =>
    terminalFlag cfg.net pid && !(B.queue (place cfg.net pid) x.store).isEmpty

/-- `executeLoop`, up to its loop. -/
def startLoop : Method cfg S Unit := do
  setIo fun io => { io with running := true }
  emitEvent B.toStoreOps fun ts => .executionStarted ts cfg.net.name cfg.executionId
  Prog.modify fun x =>
    { x with ctl := { x.ctl with
        markingBitmap := initializeMarkingBitmap B x
        dirtySet := Bitset.full
        terminalReached := x.ctl.terminalReached || checkInitialTerminals B x } }
  let marking ← Prog.gets (snapshotMarking B)
  emitEvent B.toStoreOps fun ts => .markingSnapshot ts marking

/-- `executeLoop`, past its loop. -/
def finishLoop : Method cfg S Unit := do
  setIo fun io => { io with running := false }
  drainPendingExternalEvents
  Prog.modify fun x =>
    { x with io := { x.io with
        reason := if x.io.reason = .running then
            if x.ctl.terminalReached then .terminal
            else if x.io.closed then .closed
            else .quiescent
          else x.io.reason } }
  let marking ← Prog.gets (snapshotMarking B)
  emitEvent B.toStoreOps fun ts => .markingSnapshot ts marking
  let now ← nowMs
  let startMs ← Prog.gets fun x => x.io.startMs
  emitEvent B.toStoreOps fun ts =>
    .executionCompleted ts cfg.net.name cfg.executionId (now - startMs)
  record .ended

/-- `if (this.terminalReached) break`. -/
def unlessTerminal (next : Phase cfg.net) : Method cfg S (Phase cfg.net) := do
  if ← Prog.gets fun x => x.ctl.terminalReached then pure .exit else pure next

/-- Runs from one program point to the next. -/
def executeLoop : Phase cfg.net → Method cfg S (Phase cfg.net)
  | .created => do
    startLoop B
    pure .head
  | .head => do
    let x ← Prog.gets id
    if x.io.running && !x.ctl.terminalReached then
      if x.io.completionQueue.isEmpty then pure .external
      else pure (.completing 0 x.io.completionQueue.length)
    else pure .exit
  | .completing i len => do
    match ← Prog.gets fun x => x.io.completionQueue[i]? with
    | some tid => completeTransition B tid
    | none => pure ()
    let terminal ← Prog.gets fun x => x.ctl.terminalReached
    if terminal || len ≤ i + 1 then do
      setIo fun io => { io with completionQueue := [] }
      unlessTerminal .external
    else pure (.completing (i + 1) len)
  | .external => do
    let x ← Prog.gets id
    if x.io.externalQueue.isEmpty || x.io.closed then unlessTerminal .scan
    else pure (.admitting 0 x.io.externalQueue.length)
  | .admitting i len => do
    match ← Prog.gets fun x => x.io.externalQueue[i]? with
    | some event => admitEvent B i event
    | none => pure ()
    let terminal ← Prog.gets fun x => x.ctl.terminalReached
    if terminal || len ≤ i + 1 then do
      setIo dropDeposited
      unlessTerminal .scan
    else pure (.admitting (i + 1) len)
  | .scan => do
    updateDirtyTransitions B
    pure .deadlines
  | .deadlines => do
    let cycleNowMs ← nowMs
    if hasAnyDeadlines cfg then enforceDeadlines B cycleNowMs else pure ()
    let x ← Prog.gets id
    if shouldTerminate B x then pure .exit
    else if allImmediate cfg && allSamePriority cfg then
      pure (.firingImmediate (List.finRange _))
    else pure (.firingGeneral (readyTransitions B cycleNowMs x.ctl) x.ctl.markingBitmap)
  | .firingImmediate rest =>
    match rest with
    | [] => pure .fired
    | tid :: rest => do
      fireImmediate B tid
      pure (.firingImmediate rest)
  | .firingGeneral rest freshSnap =>
    match rest with
    | [] => pure .fired
    | tid :: rest => do
      let freshSnap ← fireReady B freshSnap tid
      pure (.firingGeneral rest freshSnap)
  | .fired => do
    let x ← Prog.gets id
    if x.ctl.dirtySet.anyBit then pure .head
    else if isWorkReady x.io then pure .resuming
    else pure .flush
  | .flush => parkOrResume B
  | .parked race => do
    if ← Prog.gets fun x => x.io.raceSettled then do
      setIo fun io => { io with parkedOnWakeUp := false, raceSettled := false }
      pure .resuming
    else pure (.parked race)
  | .resuming => pure .head
  | .exit => do
    finishLoop B
    pure .ended
  | .ended => pure .ended
  | .crashed e => pure (.crashed e)

/-- Host code and microtasks run here. -/
def yields {net : PetriNet V N} : Phase net → Bool
  | .created | .flush | .parked _ | .resuming | .ended | .crashed _ => true
  | _ => false

/-- An executor at a program point. -/
structure Machine (cfg : Setting V N) (S : Type) where
  exec : Exec cfg S
  phase : Phase cfg.net

/-- What makes the machine move: the loop itself, or at a yield point a host call, a step of a
running action, the settling of an action, its timeout, the callback of a settled action, or the
timer of the race. -/
inductive Label (cfg : Setting V N)
  | tick
  | call (call : HostCall V)
  | act (tid : Tid cfg.net) (step : ActionStep V)
  | settle (tid : Tid cfg.net) (error : Option Thrown)
  | timeOut (tid : Tid cfg.net)
  | deliver (tid : Tid cfg.net)
  | timer

/-- Updates the flight of a transition that is in flight. -/
def withFlight (tid : Tid cfg.net)
    (f : Flight V N → Method cfg S (Flight V N)) : Method cfg S Unit := do
  match ← Prog.gets fun x => B.flight? tid x.store with
  | none => pure ()
  | some flight => do
    let flight ← f flight
    setStore (B.update tid flight)

/-- A step of an action past its synchronous prefix.  What it writes once its flight is gone goes
nowhere. -/
def actLater (tid : Tid cfg.net) (step : ActionStep V) : Method cfg S Unit := do
  match ← Prog.gets fun x => B.flight? tid x.store with
  | none => do
    let _ ← actionStep B.toStoreOps (transition tid) true [] step
    pure ()
  | some flight => do
    let entries ← actionStep B.toStoreOps (transition tid) flight.detached flight.entries step
    setStore (B.update tid { flight with entries := entries })

/-- The promise of an action settles. -/
def settleAction (tid : Tid cfg.net) (error : Option Thrown) : Method cfg S Unit :=
  withFlight B tid fun flight =>
    match flight.status with
    | .running => pure { flight with status := .settled error }
    | _ => pure flight

/-- The action timeout fires first: its branch is written in place of what the action wrote. -/
def timeOutAction [Value V] (tid : Tid cfg.net) : Method cfg S Unit :=
  withFlight B tid fun flight =>
    match flight.status, (transition tid).actionTimeout with
    | .running, some (afterMs, child) => do
      let reads ← Prog.gets fun x => x.io.epochReads
      let harvest := (produceTimeoutOutput (transition tid) cfg.epochNow flight.inputs child).run
        ⟨reads, []⟩
      setIo fun io => { io with epochReads := harvest.2.epochReads }
      let flight := { flight with detached := true, entries := harvest.2.entries }
      match harvest.1 with
      | .ok _ => do
        emitEvent B.toStoreOps fun ts => .actionTimedOut ts (transition tid).name afterMs
        pure { flight with status := .settled none }
      | .error e => pure { flight with status := .settled (some e) }
    | _, _ => pure flight

/-- The callback of a settled action: queues the completion and wakes the loop. -/
def deliverCompletion (race : Option (Race cfg.net)) (tid : Tid cfg.net) : Method cfg S Unit := do
  match ← Prog.gets fun x => B.flight? tid x.store with
  | none => pure ()
  | some flight =>
    match flight.status with
    | .settled error => do
      setStore (B.update tid { flight with status := .delivered, error := error })
      setIo fun io =>
        let io := wakeUp { io with completionQueue := io.completionQueue ++ [tid] }
        if (race.any fun race => tid ∈ race.flights) then { io with raceSettled := true } else io
    | _ => pure ()

/-- The race the loop is parked on. -/
def raceOf {net : PetriNet V N} : Phase net → Option (Race net)
  | .parked race => some race
  | _ => none

/-- What a label runs. -/
def perform [Value V] (phase : Phase cfg.net) : Label cfg → Method cfg S (Phase cfg.net)
  | .tick => executeLoop B phase
  | label =>
    if yields phase then do
      match label with
      | .tick => pure ()
      | .call call => Prog.modify fun x => hostCall B.toStoreOps x call
      | .act tid step => actLater B tid step
      | .settle tid error => settleAction B tid error
      | .timeOut tid => timeOutAction B tid
      | .deliver tid => deliverCompletion B (raceOf phase) tid
      | .timer =>
        if (raceOf phase).any fun race => race.timer.isSome then
          setIo fun io => { io with raceSettled := true }
        else pure ()
      pure phase
    else pure phase

/-- One step of the machine.  An exception nobody catches leaves the loop. -/
def step [Value V] (m : Machine cfg S) (label : Label cfg) : Machine cfg S :=
  match (perform B m.phase label).run m.exec with
  | (.ok phase, exec) => ⟨exec, phase⟩
  | (.error e, exec) => ⟨exec, .crashed e⟩

def run [Value V] (m : Machine cfg S) (labels : List (Label cfg)) : Machine cfg S :=
  labels.foldl (step B) m

end Executor

end LibPetri.Runtime

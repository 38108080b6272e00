import LibPetri.Runtime.CompiledNet
import LibPetri.Runtime.ExecutorSupport
import LibPetri.Runtime.MatchEngine

/-! # The state of an executor

What both executors hold, what happens around them, and the calls a host makes on them.  A `Setting`
fixes an executor's construction together with everything its environment will answer: the clocks by
reading, the calls made from inside each `EventStore.append`, and the start of each firing's action.
`history` is a history variable: the executors write it, newest entry first, and never read it.
-/

namespace LibPetri.Runtime

open LibPetri.Basis LibPetri.Core CompiledNet

/-! ## The environment -/

/-- A call of the host on an executor. -/
inductive HostCall (V : Type)
  | inject (place : PlaceName) (token : Token V)
  | injectValue (place : PlaceName) (value : V)
  | injectNoAwait (place : PlaceName) (value : V)
  | snapshot
  | drain
  | close
  /-- The budget of `run(timeoutMs, onTimeout)` expires, under the policy `'close'` or not. -/
  | expireBudget (closing : Bool)

/-- One step of a running action. -/
inductive ActionStep (V : Type)
  | output (place : PlaceName) (value : V)
  | outputToken (place : PlaceName) (token : Token V)
  | log (level message : String) (error errorMessage : Option String)
  | call (call : HostCall V)

/-- How a firing's action starts: what the execution-context provider throws, if it does, and what
the action does before it first yields. -/
structure ActionStart (V : Type) where
  provider : Option Thrown
  syncSteps : List (ActionStep V)

/-- The construction of an executor, and its environment. -/
structure Setting (V N : Type) where
  net : PetriNet V N
  initialTokens : List (PlaceName × List (Token V))
  environmentPlaces : List PlaceName
  deadlineToleranceMs : Ms
  tolerance_nonneg : 0 ≤ deadlineToleranceMs
  /-- Whether the options carry a clock. -/
  hasClock : Bool
  eventStoreEnabled : Bool
  executionId : String
  /-- An option of the precompiled executor alone. -/
  skipOutputValidation : Bool
  /-- The readings of the firing clock. -/
  now : Nat → Ms
  /-- The readings of the epoch clock. -/
  epochNow : Nat → Ms
  /-- The calls made from inside each append, in order. -/
  respond : Nat → List (HostCall V)
  /-- The start of the action of each firing. -/
  start : Nat → ActionStart V

/-! ## Firings and events in flight -/

/-- The promise of an action, seen from its firing. -/
inductive FlightStatus
  | running
  /-- Settled, with its callback still to run. -/
  | settled (error : Option Thrown)
  | delivered

structure Flight (V N : Type) where
  /-- `context.rawInput`. -/
  inputs : List (PlaceName × Token V)
  /-- `context.rawOutput().entries()`. -/
  entries : List (PlaceName × Token V)
  /-- The action writes to a collector a timeout has severed. -/
  detached : Bool
  consumed : List (Token V)
  startMs : Ms
  status : FlightStatus
  error : Option Thrown
  matchedName : Option N

/-- An accepted external event, with the number of the call that injected it. -/
structure ExternalEvent (V : Type) where
  place : PlaceName
  token : Token V
  id : Nat
  deriving DecidableEq

inductive TerminationReason
  | running
  | quiescent
  | terminal
  | closed
  | stopped
  deriving DecidableEq, Repr

/-! ## Control -/

variable {V N : Type} [LinearOrder N]

/-- The bookkeeping of the loop. -/
structure Control (net : PetriNet V N) where
  markingBitmap : Bitset (placeCount net)
  dirtySet : Bitset (transitionCount net)
  /-- `none` is `-Infinity`. -/
  enabledAtMs : Tid net → Option Ms
  inFlightFlags : Tid net → Bool
  enabledFlags : Tid net → Bool
  enabledTransitionCount : Int
  restartPendingWords : Bitset (transitionCount net)
  anyRestartPending : Bool
  matchCaches : Tid net → Option (IncrementalMatcher N)
  terminalReached : Bool
  unsettled : Bool
  warnedMultiplicity : List String

/-- Queues, wake-ups, lifecycle, and how often the environment was consulted. -/
structure Io (net : PetriNet V N) where
  completionQueue : List (Tid net)
  externalQueue : List (ExternalEvent V)
  externalCursor : Nat
  /-- `wakeUpResolve !== null`. -/
  parkedOnWakeUp : Bool
  /-- The race the loop is parked on has settled. -/
  raceSettled : Bool
  wakeUpPending : Bool
  running : Bool
  draining : Bool
  closed : Bool
  reason : TerminationReason
  startMs : Ms
  nowReads : Nat
  epochReads : Nat
  appends : Nat
  firings : Nat
  injections : Nat

/-- What happens to tokens, firings, events and promises. -/
inductive Effect (net : PetriNet V N)
  | appended (event : NetEvent V)
  | seeded (place : PlaceName) (token : Token V)
  /-- A firing starts to consume. -/
  | began (tid : Tid net)
  /-- It takes the token that stands at `index`. -/
  | took (place : PlaceName) (index : Nat) (token : Token V)
  /-- It empties a place a reset arc names. -/
  | reset (place : PlaceName) (tokens : List (Token V))
  /-- It is registered in flight. -/
  | launched (tid : Tid net) (inputs : List (PlaceName × Token V)) (consumed : List (Token V))
      (matchedName : Option N)
  /-- It threw, and is contained. -/
  | aborted (tid : Tid net)
  /-- A completed firing is unregistered; what its action wrote. -/
  | settled (tid : Tid net) (entries : List (PlaceName × Token V))
  /-- The completion in progress, or the event being admitted, puts a token into a place. -/
  | deposited (place : PlaceName) (token : Token V)
  /-- Every output has landed. -/
  | landed (tid : Tid net)
  /-- The completion failed. -/
  | failed (tid : Tid net)
  /-- An inject call, by its number: the place is not registered. -/
  | unregistered (id : Nat)
  /-- The call is answered `false`. -/
  | refused (id : Nat)
  | accepted (event : ExternalEvent V)
  /-- The event is taken from the queue, to be deposited. -/
  | admitting (event : ExternalEvent V)
  /-- Its promise resolves. -/
  | resolved (id : Nat) (value : Bool)
  /-- Its promise rejects. -/
  | rejected (id : Nat)
  | snapshotTaken (marking : List (PlaceName × List (Token V))) (actionInFlight : Bool)
  | snapshotRefused
  | drained
  | closed
  /-- Force-disabled by its deadline. -/
  | reaped (tid : Tid net)
  | ended
  deriving DecidableEq

/-- The state of an executor whose tokens and flights are kept in an `S`. -/
structure Exec (cfg : Setting V N) (S : Type) where
  store : S
  ctl : Control cfg.net
  io : Io cfg.net
  history : List (Effect cfg.net)

/-- A method of an executor. -/
abbrev Method (cfg : Setting V N) (S : Type) := Prog Thrown (Exec cfg S)

/-- The operations on tokens and flights the two executors implement each their own way. -/
structure StoreOps (cfg : Setting V N) (S : Type) where
  queue : PlaceName → S → List (Token V)
  removeFirst : PlaceName → S → Option (Token V) × S
  /-- The removed token comes with the index it stood at. -/
  removeFirstMatching : PlaceName → (V → Except Thrown Bool) → S →
    Except Thrown (Option (Nat × Token V)) × S
  countMatching : PlaceName → (V → Except Thrown Bool) → S → Except Thrown Nat
  removeAll : PlaceName → S → List (Token V) × S
  flight? : Tid cfg.net → S → Option (Flight V N)
  inFlightSize : S → Nat
  register : Tid cfg.net → Flight V N → S → S
  /-- Replaces the record of a flight that is registered. -/
  update : Tid cfg.net → Flight V N → S → S
  unregister : Tid cfg.net → S → S
  /-- The flights whose promises a race holds. -/
  racing : S → List (Tid cfg.net)
  /-- The marking in snapshot form. -/
  snapshot : S → List (PlaceName × List (Token V))

namespace Executor

variable {cfg : Setting V N} {S : Type}

/-! ## Primitive methods -/

def record (e : Effect cfg.net) : Method cfg S Unit :=
  Prog.modify fun x => { x with history := e :: x.history }

def setCtl (f : Control cfg.net → Control cfg.net) : Method cfg S Unit :=
  Prog.modify fun x => { x with ctl := f x.ctl }

def setIo (f : Io cfg.net → Io cfg.net) : Method cfg S Unit :=
  Prog.modify fun x => { x with io := f x.io }

def setStore (f : S → S) : Method cfg S Unit :=
  Prog.modify fun x => { x with store := f x.store }

/-- An operation on the store, with its answer. -/
def onStore {α : Type} (f : S → Except Thrown α × S) : Method cfg S α :=
  ⟨fun x => ((f x.store).1, { x with store := (f x.store).2 })⟩

def nowMs : Method cfg S Ms :=
  ⟨fun x => (.ok (cfg.now x.io.nowReads), { x with io := { x.io with nowReads := x.io.nowReads + 1 } })⟩

def epochMs : Method cfg S Ms :=
  ⟨fun x => (.ok (cfg.epochNow x.io.epochReads),
    { x with io := { x.io with epochReads := x.io.epochReads + 1 } })⟩

/-! ## Host calls -/

/-- Resolves the wait in progress, or latches the signal. -/
def wakeUp {net : PetriNet V N} (io : Io net) : Io net :=
  if io.parkedOnWakeUp then { io with raceSettled := true } else { io with wakeUpPending := true }

/-- The body of `inject` and `injectNoAwait`, past the mint of the token. -/
def inject (place : PlaceName) (token : Token V) (x : Exec cfg S) : Exec cfg S :=
  let id := x.io.injections
  let io := { x.io with injections := id + 1 }
  if place ∉ cfg.environmentPlaces then
    { x with io := io, history := .unregistered id :: x.history }
  else if x.io.closed || x.io.draining || x.ctl.terminalReached then
    { x with io := io, history := .refused id :: x.history }
  else
    { x with
      io := wakeUp { io with externalQueue := io.externalQueue ++ [⟨place, token, id⟩] }
      history := .accepted ⟨place, token, id⟩ :: x.history }

/-- Mints the token of an injected value. -/
def mint (value : V) (x : Exec cfg S) : Token V × Exec cfg S :=
  (⟨value, cfg.epochNow x.io.epochReads⟩,
    { x with io := { x.io with epochReads := x.io.epochReads + 1 } })

def injectNoAwait (place : PlaceName) (value : V) (x : Exec cfg S) : Exec cfg S :=
  if place ∉ cfg.environmentPlaces || x.io.closed || x.io.draining || x.ctl.terminalReached then
    inject place ⟨value, 0⟩ x
  else inject place (mint value x).1 (mint value x).2

/-- A token is in no place. -/
def actionInFlight (ops : StoreOps cfg S) (x : Exec cfg S) : Bool :=
  0 < ops.inFlightSize x.store || x.ctl.unsettled || x.io.externalCursor < x.io.externalQueue.length

def snapshot (ops : StoreOps cfg S) (x : Exec cfg S) : Exec cfg S :=
  if x.io.draining || x.io.closed then { x with history := .snapshotRefused :: x.history }
  else
    { x with
      history := .snapshotTaken (ops.snapshot x.store) (actionInFlight ops x) :: x.history }

def drain (x : Exec cfg S) : Exec cfg S :=
  { x with io := wakeUp { x.io with draining := true }, history := .drained :: x.history }

def close (x : Exec cfg S) : Exec cfg S :=
  { x with
    io := wakeUp { x.io with draining := true, closed := true }
    history := .closed :: x.history }

def expireBudget (closing : Bool) (x : Exec cfg S) : Exec cfg S :=
  let x := if x.io.reason = .running then { x with io := { x.io with reason := .stopped } } else x
  if closing then close x else x

def hostCall (ops : StoreOps cfg S) (x : Exec cfg S) : HostCall V → Exec cfg S
  | .inject place token => inject place token x
  | .injectValue place value => inject place (mint value x).1 (mint value x).2
  | .injectNoAwait place value => injectNoAwait place value x
  | .snapshot => snapshot ops x
  | .drain => drain x
  | .close => close x
  | .expireBudget closing => expireBudget closing x

/-! ## Events -/

/-- `eventStore.append(event)`: the host may call back. -/
def append (ops : StoreOps cfg S) (event : NetEvent V) (x : Exec cfg S) : Exec cfg S :=
  if cfg.eventStoreEnabled then
    (cfg.respond x.io.appends).foldl (hostCall ops)
      { x with
        io := { x.io with appends := x.io.appends + 1 }
        history := .appended event :: x.history }
  else x

/-- `emitEvent({ timestamp: epochMs(), … })`. -/
def emitEvent (ops : StoreOps cfg S) (event : Ms → NetEvent V) : Method cfg S Unit := do
  let timestamp ← epochMs
  Prog.modify (append ops (event timestamp))

/-- One `WARN` log message from `libpetri.runtime`. -/
def warn (ops : StoreOps cfg S) (message transitionName : String) : Method cfg S Unit :=
  emitEvent ops fun ts => .logMessage ts transitionName "libpetri.runtime" "WARN" message none none

/-- Reports a failure, and has the transition looked at again. -/
def emitFailed (ops : StoreOps cfg S) (transitionName : String) (err : String × String) :
    Method cfg S Unit :=
  emitEvent ops fun ts => .transitionFailed ts transitionName err.2 err.1

/-! ## Dirty set -/

def markTransitionDirty (tid : Tid cfg.net) : Method cfg S Unit :=
  setCtl fun c => { c with dirtySet := c.dirtySet.setBit tid }

def markDirty (pid : Nat) : Method cfg S Unit :=
  Prog.each (affectedTransitions pid) markTransitionDirty

/-- `enabledFlags[tid] = 0; enabledTransitionCount--; enabledAtMs[tid] = -Infinity`. -/
def disable {net : PetriNet V N} (tid : Tid net) (c : Control net) : Control net :=
  { c with
    enabledFlags := Function.update c.enabledFlags tid false
    enabledTransitionCount := c.enabledTransitionCount - 1
    enabledAtMs := Function.update c.enabledAtMs tid none }

def enable {net : PetriNet V N} (tid : Tid net) (now : Ms) (c : Control net) : Control net :=
  { c with
    enabledFlags := Function.update c.enabledFlags tid true
    enabledTransitionCount := c.enabledTransitionCount + 1
    enabledAtMs := Function.update c.enabledAtMs tid (some now) }

/-! ## Match caches -/

/-- The required counts of a join whose cache cannot desync: every correlated input is `one` or
`exactly`, no other transition consumes from it, and none resets it. -/
def cacheRequireds (tid : Tid cfg.net) : Option (List Nat) :=
  match (transition tid).matchSpec with
  | none => none
  | some ms =>
    ms.keys.mapM fun mk =>
      let pid := placeId cfg.net mk.place
      let required := match (transition tid).inputSpecs.find? fun spec => spec.place = mk.place with
        | some (.one _) => some 1
        | some (.exactly count _) => some count
        | _ => none
      let resetTarget := (List.finRange _).any fun other : Tid cfg.net =>
        pid ∈ (transition other).resets.map (placeId cfg.net)
      let consumers := (List.finRange _).flatMap fun other : Tid cfg.net =>
        (transition other).inputSpecs.filterMap fun spec =>
          if placeId cfg.net spec.place = pid then some other else none
      if resetTarget || consumers != [tid] then none else required

/-- The cached correlated inputs a place feeds: the transition, and the index of the key. -/
def placeMatchTargets (pid : Nat) : List (Tid cfg.net × Nat) :=
  (List.finRange _).flatMap fun tid =>
    match cacheRequireds tid, (transition tid).matchSpec with
    | some _, some ms =>
      (List.range ms.keys.length).filterMap fun keyIdx =>
        if (ms.keys[keyIdx]?.map fun mk => placeId cfg.net mk.place) = some pid then
          some (tid, keyIdx)
        else none
    | _, _ => []

/-- Mirrors one token into one cache. -/
def cacheAddTo (token : Token V) (target : Tid cfg.net × Nat) : Method cfg S Unit := do
  match ← Prog.gets fun x => x.ctl.matchCaches target.1 with
  | none => pure ()
  | some cache =>
    match (transition target.1).matchSpec.bind fun ms => ms.keys[target.2]? with
    | none => pure ()
    | some mk =>
      match ← Prog.lift (mk.key token.value) with
      | none => pure ()
      | some name =>
        setCtl fun c => { c with
          matchCaches := Function.update c.matchCaches target.1
            (some (cache.add target.2 name token.createdAt)) }

/-- Mirrors a token added to a place into every cache the place feeds. -/
def cacheAddToken (pid : Nat) (token : Token V) : Method cfg S Unit :=
  Prog.each (placeMatchTargets pid) (cacheAddTo token)

/-- Seeds one cache from the queue of one key. -/
def seedCache (key : KeyFn V N) (keyIdx : Nat) :
    List (Token V) → IncrementalMatcher N → Except Thrown (IncrementalMatcher N)
  | [], cache => .ok cache
  | token :: tokens, cache => do
    match ← key token.value with
    | none => seedCache key keyIdx tokens cache
    | some name => seedCache key keyIdx tokens (cache.add keyIdx name token.createdAt)

/-- Seeds one cache, key after key. -/
def seedCaches (queue : PlaceName → List (Token V)) :
    Nat → List (MatchKey V N) → IncrementalMatcher N → Except Thrown (IncrementalMatcher N)
  | _, [], cache => .ok cache
  | keyIdx, mk :: keys, cache => do
    seedCaches queue (keyIdx + 1) keys (← seedCache mk.key keyIdx (queue mk.place) cache)

/-- The cache a transition starts with. -/
def initialCache (queue : PlaceName → List (Token V)) (tid : Tid cfg.net) :
    Except Thrown (Option (IncrementalMatcher N)) :=
  match cacheRequireds tid, (transition tid).matchSpec with
  | some requireds, some ms => do
    pure (some (← seedCaches queue 0 ms.keys (IncrementalMatcher.new requireds)))
  | _, _ => .ok none

/-- `initMatchCaches`, transition after transition. -/
def initMatchCaches (queue : PlaceName → List (Token V)) :
    List (Tid cfg.net) → Except Thrown (Tid cfg.net → Option (IncrementalMatcher N))
  | [] => .ok fun _ => none
  | tid :: tids => do
    let cache ← initialCache queue tid
    let rest ← initMatchCaches queue tids
    pure (Function.update rest tid cache)

/-! ## Construction -/

/-- The fields of an executor whose constructor has loaded its store. -/
def constructed (store : S) : Exec cfg S where
  store := store
  ctl := {
    markingBitmap := Bitset.empty
    dirtySet := Bitset.empty
    enabledAtMs := fun _ => none
    inFlightFlags := fun _ => false
    enabledFlags := fun _ => false
    enabledTransitionCount := 0
    restartPendingWords := Bitset.empty
    anyRestartPending := false
    matchCaches := fun _ => none
    terminalReached := false
    unsettled := false
    warnedMultiplicity := [] }
  io := {
    completionQueue := []
    externalQueue := []
    externalCursor := 0
    parkedOnWakeUp := false
    raceSettled := false
    wakeUpPending := false
    running := false
    draining := false
    closed := false
    reason := .running
    startMs := cfg.now 0
    nowReads := 1
    epochReads := 0
    appends := 0
    firings := 0
    injections := 0 }
  history := (cfg.initialTokens.flatMap fun e => e.2.map (.seeded e.1)).reverse

/-- A warning of the constructor: no host has a reference to call back on yet. -/
def warnUnheard (message transitionName : String) (x : Exec cfg S) : Exec cfg S :=
  let io := { x.io with epochReads := x.io.epochReads + 1 }
  let event : NetEvent V := .logMessage (cfg.epochNow x.io.epochReads) transitionName
    "libpetri.runtime" "WARN" message none none
  if cfg.eventStoreEnabled then
    { x with io := { io with appends := io.appends + 1 }, history := .appended event :: x.history }
  else { x with io := io }

/-- Reports the arcs that can never have an effect. -/
def warnDeadArcs (x : Exec cfg S) : Exec cfg S :=
  (findDeadArcs cfg.net (fun p => cfg.initialTokens.any fun e => e.1 = p && !e.2.isEmpty)
    (fun p => p ∈ cfg.environmentPlaces)).foldl
    (fun x arc => warnUnheard (deadArcMessage arc) arc.transition x) x

end Executor

end LibPetri.Runtime

import LibPetri.Runtime.ExecuteLoop
import LibPetri.Runtime.Marking
import LibPetri.Runtime.PrecompiledNet

/-! # The precompiled executor

Tokens live in one queue per place id, flights in arrays by transition id.
-/

namespace LibPetri.Runtime

open LibPetri.Basis LibPetri.Core CompiledNet PrecompiledNet Executor

variable {V N : Type} [LinearOrder N] [Value V] [ToString N]

/-- What the precompiled executor keeps besides what both keep. -/
structure PrecompiledStore (cfg : Setting V N) where
  tokenQueues : Nat → List (Token V)
  unknownPlaceTokens : OrderedMap PlaceName (List (Token V))
  /-- The arrays `inFlightContexts`, `inFlightConsumed`, `inFlightMatched`, `inFlightStartMs` and
  `inFlightErrors`, which are filled and cleared together. -/
  inFlight : Tid cfg.net → Option (Flight V N)
  inFlightCount : Nat

namespace PrecompiledNetExecutor

variable {cfg : Setting V N}

/-- The tokens of a place, declared or not. -/
def queueOf (p : PlaceName) (s : PrecompiledStore cfg) : List (Token V) :=
  match tryPlaceId cfg.net p with
  | some pid => s.tokenQueues pid
  | none => (s.unknownPlaceTokens.get? p).getD []

def setQueue (pid : Nat) (queue : List (Token V)) (s : PrecompiledStore cfg) : PrecompiledStore cfg :=
  { s with tokenQueues := Function.update s.tokenQueues pid queue }

/-- `q.shift()`. -/
def shift (pid : Nat) (s : PrecompiledStore cfg) : Option (Token V) × PrecompiledStore cfg :=
  match s.tokenQueues pid with
  | [] => (none, s)
  | token :: rest => (some token, setQueue pid rest s)

def removeFirstMatching (pid : Nat) (predicate : V → Except Thrown Bool) (s : PrecompiledStore cfg) :
    Except Thrown (Option (Nat × Token V)) × PrecompiledStore cfg :=
  match findFirst predicate 0 (s.tokenQueues pid) with
  | .error e => (.error e, s)
  | .ok none => (.ok none, s)
  | .ok (some (i, token)) =>
    (.ok (some (i, token)), setQueue pid ((s.tokenQueues pid).eraseIdx i) s)

/-- `q.splice(0)`. -/
def spliceAll (pid : Nat) (s : PrecompiledStore cfg) : List (Token V) × PrecompiledStore cfg :=
  (s.tokenQueues pid, setQueue pid [] s)

/-- `syncMarkingFromQueues()`. -/
def syncMarkingFromQueues (s : PrecompiledStore cfg) : Marking V :=
  let declared := (List.range (placeCount cfg.net)).foldl (fun (m : Marking V) pid =>
    (s.tokenQueues pid).foldl (fun m token => m.addToken (place cfg.net pid) token) m)
    Marking.empty
  s.unknownPlaceTokens.entries.foldl (fun (m : Marking V) e =>
    e.2.foldl (fun m token => m.addToken e.1 token) m) declared

variable (cfg) in
def storeOps : StoreOps cfg (PrecompiledStore cfg) where
  queue := queueOf
  removeFirst := fun p => shift (placeId cfg.net p)
  removeFirstMatching := fun p => removeFirstMatching (placeId cfg.net p)
  countMatching := fun p predicate s => countIf predicate (s.tokenQueues (placeId cfg.net p))
  removeAll := fun p => spliceAll (placeId cfg.net p)
  flight? := fun tid s => s.inFlight tid
  inFlightSize := fun s => s.inFlightCount
  register := fun tid flight s =>
    { s with inFlight := Function.update s.inFlight tid (some flight)
             inFlightCount := s.inFlightCount + 1 }
  update := fun tid flight s => { s with inFlight := Function.update s.inFlight tid (some flight) }
  unregister := fun tid s =>
    { s with inFlight := Function.update s.inFlight tid none
             inFlightCount := s.inFlightCount - 1 }
  racing := fun s => (List.finRange _).filter fun tid => (s.inFlight tid).isSome
  snapshot := fun s => (syncMarkingFromQueues s).snapshot

/-- Retains a token on an undeclared place, and reports the place once. -/
def retainUnknownToken (p : PlaceName) (token : Token V) (transitionName : String) :
    Method cfg (PrecompiledStore cfg) Unit := do
  let retained ← Prog.gets fun x => x.store.unknownPlaceTokens.get? p
  setStore fun s => { s with
    unknownPlaceTokens := s.unknownPlaceTokens.set p (retained.getD [] ++ [token]) }
  record (.deposited p token)
  if retained.isSome then pure ()
  else warn (storeOps cfg) (unknownPlaceMessage p) transitionName

/-- The caches see the token before it enters its queue. -/
def produceToken (p : PlaceName) (token : Token V) (transitionName : String) :
    Method cfg (PrecompiledStore cfg) Unit :=
  match tryPlaceId cfg.net p with
  | none => retainUnknownToken p token transitionName
  | some pid => do
    cacheAddToken pid token
    setStore fun s => setQueue pid (s.tokenQueues pid ++ [token]) s
    record (.deposited p token)
    setCtl fun c => { c with markingBitmap := c.markingBitmap.setBit pid }
    markDirty pid
    if terminalFlag cfg.net pid then setCtl fun c => { c with terminalReached := true }
    else pure ()

/-! ## Consumption -/

/-- `this.tokenQueues[pid]!.shift()!`.  Enablement has checked that there is a token: without one the
firing stops here. -/
def shiftToken (pid : Nat) : Method cfg (PrecompiledStore cfg) (Option (Nat × Token V)) :=
  onStore fun s =>
    match shift pid s with
    | (some token, s) => (.ok (some (0, token)), s)
    | (none, s) => (.error (.error "TypeError" "token is undefined"), s)

/-- The input opcodes of a firing. -/
def runInputOps : List Nat → Consumption V N → Method cfg (PrecompiledStore cfg) (Consumption V N)
  | [], c => pure c
  | CONSUME_ONE :: pid :: ops, c => do
    let c ← takeTokens (storeOps cfg) (place cfg.net pid) (shiftToken pid) 1 c
    runInputOps ops c
  | CONSUME_N :: pid :: count :: ops, c => do
    let c ← takeTokens (storeOps cfg) (place cfg.net pid) (shiftToken pid) count c
    runInputOps ops c
  | CONSUME_ALL :: pid :: ops, c => do
    let count ← Prog.gets fun x => (x.store.tokenQueues pid).length
    let c ← takeTokens (storeOps cfg) (place cfg.net pid) (shiftToken pid) count c
    runInputOps ops c
  | CONSUME_ATLEAST :: pid :: _minimum :: ops, c => do
    let count ← Prog.gets fun x => (x.store.tokenQueues pid).length
    let c ← takeTokens (storeOps cfg) (place cfg.net pid) (shiftToken pid) count c
    runInputOps ops c
  | opcode :: _, _ => Prog.throw (.error "Error" s!"Unknown opcode: {opcode}")

/-- The reset opcodes of a firing. -/
def runResetOps : List Nat → Consumption V N → Method cfg (PrecompiledStore cfg) (Consumption V N)
  | [], c => pure c
  | RESET :: pid :: ops, c => do
    let c ← resetPlace (storeOps cfg) (place cfg.net pid) c
    runResetOps ops c
  | opcode :: _, _ => Prog.throw (.error "Error"
      s!"Unknown opcode: {opcode} (expected RESET past resetOpsStart)")

def peekReadArcs (tid : Tid cfg.net) (c : Consumption V N) :
    Method cfg (PrecompiledStore cfg) (Consumption V N) := do
  let s ← Prog.gets fun x => x.store
  pure { c with inputs := c.inputs ++ (readOps tid).filterMap fun pid =>
    (s.tokenQueues pid).head?.map fun token => (place cfg.net pid, token) }

def fireTransitionMatched (tid : Tid cfg.net) :
    Method cfg (PrecompiledStore cfg) (Consumption V N) := do
  let t := transition tid
  let chosen ← chooseBinding (storeOps cfg) tid
  let c ← consumeInputs (storeOps cfg) t chosen t.inputSpecs
    { inputs := [], consumed := [], matchedName := chosen }
  let c ← peekReadArcs tid c
  resetPlaces (storeOps cfg) t.resets c

/-- The opcode dispatch of `fireTransition`. -/
def consume (tid : Tid cfg.net) : Method cfg (PrecompiledStore cfg) (Consumption V N) :=
  if (transition tid).matchSpec.isSome then fireTransitionMatched tid
  else do
    let ops := consumeOps tid
    let c ← runInputOps (ops.take (resetOpsStart tid))
      { inputs := [], consumed := [], matchedName := none }
    let c ← peekReadArcs tid c
    runResetOps (ops.drop (resetOpsStart tid)) c

/-- `if (this.inFlightFlags[tid])`: clears the arrays and the flag. -/
def discard (tid : Tid cfg.net) : Method cfg (PrecompiledStore cfg) Unit := do
  if ← Prog.gets fun x => x.ctl.inFlightFlags tid then do
    setStore (storeOps cfg |>.unregister tid)
    setCtl fun c => { c with inFlightFlags := Function.update c.inFlightFlags tid false }
  else pure ()

def validateOutput (tid : Tid cfg.net) (flight : Flight V N) :
    Method cfg (PrecompiledStore cfg) Unit := do
  let t := transition tid
  match cfg.skipOutputValidation, t.outputSpec with
  | false, some spec =>
    let simplePid := simpleOutputPlaceId tid
    let produced := placesWithTokens flight.entries
    if 0 ≤ simplePid then do
      let named := place cfg.net simplePid.toNat
      if named ∉ produced then
        Prog.throw (outViolation
          (s!"'{t.name}': output does not match the declared spec - produced \x7b\x7d, " ++
            "which no single branch of the spec claims exactly"))
      else do
        Prog.lift (validateRelays t flight.entries flight.matchedName)
        if produced.length < flight.entries.length then
          warnMultiplicity (storeOps cfg) t.name flight.entries [named]
        else pure ()
    else if simplePid = -1 then do
      let claim ← Prog.lift (validateOutSpec t.name spec produced)
      Prog.lift (validateRelays t flight.entries flight.matchedName)
      if produced.length < flight.entries.length then
        warnMultiplicity (storeOps cfg) t.name flight.entries claim
      else pure ()
    else Prog.lift (validateRelays t flight.entries flight.matchedName)
  | _, _ => pure ()

variable (cfg) in
def backend : Backend cfg (PrecompiledStore cfg) where
  toStoreOps := storeOps cfg
  maskAllows := canEnableSparse
  priority := priorities
  consume := consume
  discard := discard
  validateOutput := validateOutput
  produceToken := produceToken

/-! ## Construction -/

/-- Loads one token of the seed. -/
def loadToken (p : PlaceName) (x : Exec cfg (PrecompiledStore cfg)) (token : Token V) :
    Exec cfg (PrecompiledStore cfg) :=
  match tryPlaceId cfg.net p with
  | some pid => { x with store := setQueue pid (x.store.tokenQueues pid ++ [token]) x.store }
  | none =>
    let retained := x.store.unknownPlaceTokens.get? p
    let x := { x with store := { x.store with
      unknownPlaceTokens := x.store.unknownPlaceTokens.set p (retained.getD [] ++ [token]) } }
    if retained.isSome then x else warnUnheard (unknownPlaceMessage p) "" x

variable (cfg) in
/-- `new PrecompiledNetExecutor(net, initialTokens, options)`. -/
def new : Except Thrown (Exec cfg (PrecompiledStore cfg)) := do
  let x := warnDeadArcs (cfg.initialTokens.foldl (fun x e => e.2.foldl (loadToken e.1) x)
    (constructed
      { tokenQueues := fun _ => []
        unknownPlaceTokens := OrderedMap.empty
        inFlight := fun _ => none
        inFlightCount := 0 }))
  let caches ← initMatchCaches (fun p => queueOf p x.store) (List.finRange _)
  pure { x with ctl := { x.ctl with matchCaches := caches } }

end PrecompiledNetExecutor

end LibPetri.Runtime

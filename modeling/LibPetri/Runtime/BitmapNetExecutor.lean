import LibPetri.Runtime.ExecuteLoop
import LibPetri.Runtime.Marking

/-! # The bitmap executor

Tokens live in a `Marking`, flights in a map from transitions.
-/

namespace LibPetri.Runtime

open LibPetri.Basis LibPetri.Core CompiledNet Executor

variable {V N : Type} [LinearOrder N] [Value V] [ToString N]

/-- What the bitmap executor keeps besides what both keep. -/
structure BitmapStore (cfg : Setting V N) where
  marking : Marking V
  inFlight : OrderedMap (Tid cfg.net) (Flight V N)
  warnedUnknownPlaces : List PlaceName

namespace BitmapNetExecutor

variable {cfg : Setting V N}

/-- A change of the marking, with its answer. -/
def onMarking {α : Type} (s : BitmapStore cfg) (r : α × Marking V) : α × BitmapStore cfg :=
  (r.1, { s with marking := r.2 })

variable (cfg) in
def storeOps : StoreOps cfg (BitmapStore cfg) where
  queue := fun p s => s.marking.peekTokens p
  removeFirst := fun p s => onMarking s (s.marking.removeFirst p)
  removeFirstMatching := fun p predicate s => onMarking s (s.marking.removeFirstMatching p predicate)
  countMatching := fun p predicate s => s.marking.countMatching p predicate
  removeAll := fun p s => onMarking s (s.marking.removeAll p)
  flight? := fun tid s => s.inFlight.get? tid
  inFlightSize := fun s => s.inFlight.size
  register := fun tid flight s => { s with inFlight := s.inFlight.set tid flight }
  update := fun tid flight s => { s with inFlight := s.inFlight.set tid flight }
  unregister := fun tid s => { s with inFlight := s.inFlight.delete tid }
  racing := fun s => s.inFlight.keys
  snapshot := fun s => s.marking.snapshot

/-- Reports an undeclared place once. -/
def warnUnknownPlace (p : PlaceName) (transitionName : String) : Method cfg (BitmapStore cfg) Unit := do
  if p ∈ (← Prog.gets fun x => x.store.warnedUnknownPlaces) then pure ()
  else do
    setStore fun s => { s with warnedUnknownPlaces := s.warnedUnknownPlaces ++ [p] }
    warn (storeOps cfg) (unknownPlaceMessage p) transitionName

/-- The body of both deposit loops: the token enters the marking before the caches see it. -/
def produceToken (p : PlaceName) (token : Token V) (transitionName : String) :
    Method cfg (BitmapStore cfg) Unit := do
  setStore fun s => { s with marking := s.marking.addToken p token }
  record (.deposited p token)
  match tryPlaceId cfg.net p with
  | some pid => do
    cacheAddToken pid token
    setCtl fun c => { c with markingBitmap := c.markingBitmap.setBit pid }
    markDirty pid
    if terminalFlag cfg.net pid then setCtl fun c => { c with terminalReached := true }
    else pure ()
  | none => warnUnknownPlace p transitionName

/-- The consumption stage of `fireTransition`. -/
def consume (tid : Tid cfg.net) : Method cfg (BitmapStore cfg) (Consumption V N) := do
  let t := transition tid
  let chosen ← if t.matchSpec.isSome then chooseBinding (storeOps cfg) tid else pure none
  let c ← consumeInputs (storeOps cfg) t chosen t.inputSpecs
    { inputs := [], consumed := [], matchedName := chosen }
  let marking ← Prog.gets fun x => x.store.marking
  resetPlaces (storeOps cfg) t.resets (peekReads marking.peekTokens t.reads c)

/-- `if (this.inFlight.delete(t)) this.inFlightFlags[tid] = 0`. -/
def discard (tid : Tid cfg.net) : Method cfg (BitmapStore cfg) Unit := do
  match ← Prog.gets fun x => x.store.inFlight.get? tid with
  | none => pure ()
  | some _ => do
    setStore fun s => { s with inFlight := s.inFlight.delete tid }
    setCtl fun c => { c with inFlightFlags := Function.update c.inFlightFlags tid false }

def validateOutput (tid : Tid cfg.net) (flight : Flight V N) : Method cfg (BitmapStore cfg) Unit := do
  let t := transition tid
  match t.outputSpec with
  | none => pure ()
  | some spec => do
    let produced := placesWithTokens flight.entries
    let claim ← Prog.lift (validateOutSpec t.name spec produced)
    Prog.lift (validateRelays t flight.entries flight.matchedName)
    if produced.length < flight.entries.length then
      warnMultiplicity (storeOps cfg) t.name flight.entries claim
    else pure ()

variable (cfg) in
def backend : Backend cfg (BitmapStore cfg) where
  toStoreOps := storeOps cfg
  maskAllows := canEnableBitmap
  priority := fun tid => (transition tid).priority
  consume := consume
  discard := discard
  validateOutput := validateOutput
  produceToken := produceToken

/-! ## Construction -/

/-- Reports each undeclared place the seed puts a token on, once. -/
def warnUnknownSeeds (x : Exec cfg (BitmapStore cfg)) : Exec cfg (BitmapStore cfg) :=
  cfg.initialTokens.foldl (fun x e =>
    if e.2.isEmpty || (tryPlaceId cfg.net e.1).isSome ||
        e.1 ∈ x.store.warnedUnknownPlaces then x
    else warnUnheard (unknownPlaceMessage e.1) ""
      { x with store := { x.store with
          warnedUnknownPlaces := x.store.warnedUnknownPlaces ++ [e.1] } }) x

variable (cfg) in
/-- `new BitmapNetExecutor(net, initialTokens, options)`. -/
def new : Except Thrown (Exec cfg (BitmapStore cfg)) := do
  let marking := Marking.ofInitial cfg.initialTokens
  let x := warnDeadArcs (warnUnknownSeeds (constructed
    { marking := marking, inFlight := OrderedMap.empty, warnedUnknownPlaces := [] }))
  let caches ← initMatchCaches marking.peekTokens (List.finRange _)
  pure { x with ctl := { x.ctl with matchCaches := caches } }

end BitmapNetExecutor

end LibPetri.Runtime

import LibPetri.Basis.OrderedMap
import LibPetri.Basis.MinQueue
import LibPetri.Basis.BinaryHeap
import LibPetri.Core.Net

/-! # Binding selection

The name-correlation algorithm both executors share: `findBinding` rebuilds a name index over the
live tokens, `IncrementalMatcher` maintains one token by token.
-/

namespace LibPetri.Runtime

open LibPetri.Basis LibPetri.Core

variable {V N : Type} [LinearOrder N]

/-! ## From scratch -/

/-- Per correlated input and name: how many tokens carry it, and the oldest timestamp among them. -/
structure NameStat where
  count : Nat
  minCreatedAt : Ms
  deriving DecidableEq, Repr

def MAX_SAFE_INTEGER : Ms := 9007199254740991

/-- The index of the place with the fewest names. -/
def seedIndex (sizes : List Nat) : Nat :=
  (List.range' 1 (sizes.length - 1)).foldl
    (fun seed i => if sizes.getD i 0 < sizes.getD seed 0 then i else seed) 0

/-- The oldest timestamp of `name` over all inputs, if each holds the name often enough. -/
def repTsFrom (name : N) : List (OrderedMap N NameStat × Nat) → Ms → Option Ms
  | [], rep => some rep
  | (index, required) :: rest, rep =>
    match index.get? name with
    | none => none
    | some s => if s.count < required then none else repTsFrom name rest (min rep s.minCreatedAt)

/-- One round of the candidate loop: keeps the lesser of the best so far and `name`. -/
def considerName (inputs : List (OrderedMap N NameStat × Nat)) (required : Nat)
    (best : Option (Ms ×ₗ N)) (entry : N × NameStat) : Option (Ms ×ₗ N) :=
  if entry.2.count < required then best
  else match repTsFrom entry.1 inputs MAX_SAFE_INTEGER with
    | none => best
    | some rep =>
      match best with
      | none => some (toLex (rep, entry.1))
      | some b => if toLex (rep, entry.1) < b then some (toLex (rep, entry.1)) else some b

def selectMatchName (perPlace : List (OrderedMap N NameStat)) (requireds : List Nat) : Option N :=
  let inputs := perPlace.zip requireds
  match inputs[seedIndex (perPlace.map OrderedMap.size)]? with
  | none => none
  | some (index, required) =>
    (index.entries.foldl (considerName inputs required) none).map fun best => (ofLex best).2

/-- Counts a token that carries `name`. -/
def countName (index : OrderedMap N NameStat) (name : N) (ts : Ms) : OrderedMap N NameStat :=
  match index.get? name with
  | some prev => index.set name ⟨prev.count + 1, if ts < prev.minCreatedAt then ts else prev.minCreatedAt⟩
  | none => index.set name ⟨1, ts⟩

def buildNameIndexFrom (key : KeyFn V N) :
    List (Token V) → OrderedMap N NameStat → Except Thrown (OrderedMap N NameStat)
  | [], index => .ok index
  | token :: tokens, index => do
    match ← key token.value with
    | none => buildNameIndexFrom key tokens index
    | some name => buildNameIndexFrom key tokens (countName index name token.createdAt)

/-- The name index of the tokens.  A token without a name is skipped. -/
def buildNameIndex (tokens : List (Token V)) (key : KeyFn V N) :
    Except Thrown (OrderedMap N NameStat) :=
  buildNameIndexFrom key tokens OrderedMap.empty

/-- The token count the input on `placeName` requires. -/
def requiredFor (t : Transition V N) (placeName : PlaceName) : Nat :=
  ((t.inputSpecs.find? fun spec => spec.place = placeName).map In.requiredCount).getD 1

/-- The name that satisfies the match of `t`, if any. -/
def findBinding (t : Transition V N) (getTokens : PlaceName → List (Token V)) :
    Except Thrown (Option N) :=
  match t.matchSpec with
  | none => .ok none
  | some ms => do
    let perPlace ← ms.keys.mapM fun k => buildNameIndex (getTokens k.place) k.key
    .ok (selectMatchName perPlace (ms.keys.map fun k => requiredFor t k.place))

/-! ## Incrementally -/

/-- A ready name behind its oldest timestamp: the order is that of `selectMatchName`. -/
abbrev ReadyEntry (N : Type) := WithTop Ms ×ₗ N

structure IncrementalMatcher (N : Type) [LinearOrder N] where
  requireds : List Nat
  /-- Per input and name, the timestamps in queue order. -/
  ts : Nat → OrderedMap N (MinQueue Ms)
  fifo : List (ReadyEntry N)
  fifoHead : Nat
  maxPushed : Option (ReadyEntry N)
  heaped : Bool
  heap : Array (ReadyEntry N)
  ready : OrderedMap N (WithTop Ms)

namespace IncrementalMatcher

def new (requireds : List Nat) : IncrementalMatcher N where
  requireds := requireds
  ts := fun _ => OrderedMap.empty
  fifo := []
  fifoHead := 0
  maxPushed := none
  heaped := false
  heap := #[]
  ready := OrderedMap.empty

/-- The name `selectMatchName` would pick. -/
def best (m : IncrementalMatcher N) : Option N :=
  if m.heaped then m.heap[0]?.map fun top => (ofLex top).2
  else m.fifo[m.fifoHead]?.map fun top => (ofLex top).2

/-- Appends to the FIFO while pushes ascend; the first inversion moves the FIFO into the heap. -/
def pushReady (m : IncrementalMatcher N) (entry : ReadyEntry N) : IncrementalMatcher N :=
  if m.heaped then { m with heap := BinaryHeap.push m.heap entry }
  else if ∀ max ∈ m.maxPushed, max ≤ entry then
    { m with maxPushed := some entry, fifo := m.fifo ++ [entry] }
  else
    { m with
      heaped := true
      heap := BinaryHeap.push ((m.fifo.drop m.fifoHead).foldl BinaryHeap.push m.heap) entry
      fifo := []
      fifoHead := 0 }

def repTsFrom (ts : Nat → OrderedMap N (MinQueue Ms)) (name : N) :
    Nat → List Nat → WithTop Ms → Option (WithTop Ms)
  | _, [], rep => some rep
  | i, required :: rest, rep =>
    match (ts i).get? name with
    | none => none
    | some q =>
      if q.size < required then none
      else repTsFrom ts name (i + 1) rest (if q.min < rep then q.min else rep)

def repTs (m : IncrementalMatcher N) (name : N) : Option (WithTop Ms) :=
  repTsFrom m.ts name 0 m.requireds ⊤

def refresh (m : IncrementalMatcher N) (name : N) : IncrementalMatcher N :=
  match m.repTs name with
  | some rep =>
    if m.ready.get? name = some rep then m
    else pushReady { m with ready := m.ready.set name rep } (toLex (rep, name))
  | none => { m with ready := m.ready.delete name }

/-- An entry left behind by a later refresh of its name. -/
def stale (ready : OrderedMap N (WithTop Ms)) (entry : ReadyEntry N) : Bool :=
  ready.get? (ofLex entry).2 != some (ofLex entry).1

def popStale (ready : OrderedMap N (WithTop Ms)) : Nat → Array (ReadyEntry N) → Array (ReadyEntry N)
  | 0, heap => heap
  | fuel + 1, heap =>
    match heap[0]? with
    | some top => if stale ready top then popStale ready fuel (BinaryHeap.pop heap) else heap
    | none => heap

def cleanTop (m : IncrementalMatcher N) : IncrementalMatcher N :=
  if m.heaped then
    let heap := popStale m.ready m.heap.size m.heap
    if heap.size = 0 then { m with heap := heap, heaped := false, maxPushed := none }
    else { m with heap := heap }
  else
    let fifoHead := m.fifoHead + ((m.fifo.drop m.fifoHead).takeWhile (stale m.ready)).length
    if m.fifo.length ≤ fifoHead then { m with fifo := [], fifoHead := 0, maxPushed := none }
    else { m with fifoHead := fifoHead }

/-- Adds one token that carries `name` to input `i`. -/
def add (m : IncrementalMatcher N) (i : Nat) (name : N) (createdAt : Ms) : IncrementalMatcher N :=
  let q := ((m.ts i).get? name).getD MinQueue.empty
  cleanTop (refresh
    { m with ts := Function.update m.ts i ((m.ts i).set name (q.pushBack createdAt)) } name)

/-- Drops the `required` oldest timestamps of `name` from one input. -/
def consumeFrom (tokens : OrderedMap N (MinQueue Ms)) (name : N) (required : Nat) :
    OrderedMap N (MinQueue Ms) :=
  match tokens.get? name with
  | none => tokens
  | some q =>
    let q := MinQueue.popFront^[required] q
    if q.size = 0 then tokens.delete name else tokens.set name q

/-- Removes the `required` oldest tokens of `name` from every input. -/
def consume (m : IncrementalMatcher N) (name : N) : IncrementalMatcher N :=
  cleanTop (refresh
    { m with ts := fun i =>
        match m.requireds[i]? with
        | some required => consumeFrom (m.ts i) name required
        | none => m.ts i } name)

end IncrementalMatcher

end LibPetri.Runtime

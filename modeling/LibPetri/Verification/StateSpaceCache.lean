import LibPetri.Verification.ScgVerifier

/-! # Reusing the state space across queries

A cache of state-class graphs.  An entry is keyed by the net instance of the caller, by the transitions
the in-flight split rewrote, by the reduction, and by the initial marking as the caller listed it.
-/

namespace LibPetri.Verification

open LibPetri.Basis LibPetri.Core LibPetri.Runtime

/-- A graph with the net it was built from. -/
structure StateSpace (V N : Type) where
  net : PetriNet V N
  graph : StateClassGraph net

namespace StateSpace

variable {V N : Type}

/-- The number of classes. -/
def size (space : StateSpace V N) : Nat := space.graph.classes.length

end StateSpace

/-- A remembered enumeration: the graph closed, or it hit the budget. -/
inductive Entry (V N : Type)
  | closed (space : StateSpace V N)
  | truncated (budget : Nat) (space : StateSpace V N)

/-- What one query got: a graph built for it, a closed graph, or a graph to be read as a prefix. -/
inductive StateSpaceLookup (V N : Type)
  | built (space : StateSpace V N)
  | reused (space : StateSpace V N)
  | declined (space : StateSpace V N)

namespace StateSpaceLookup

variable {V N : Type}

def space : StateSpaceLookup V N → StateSpace V N
  | built space => space
  | reused space => space
  | declined space => space

/-- `lookup.kind === 'declined'`. -/
def isDeclined : StateSpaceLookup V N → Bool
  | built _ => false
  | reused _ => false
  | declined _ => true

end StateSpaceLookup

/-- What the text of a key renders: whether the graph is reduced, the split, and for each marked place, in
the order of the caller's listing, its name, the identity of its object and its count. -/
structure CacheKey where
  stubborn : Bool
  split : List String
  marking : List (PlaceName × Nat × Nat)
  deriving DecidableEq

section Cache

variable (V N I O : Type) [DecidableEq I] [DecidableEq O]

/-- The entries of a cache, by the instance of the net and the key, and the ids of the place objects its
keys name. -/
structure StateSpaceCache where
  entries : OrderedMap (I × CacheKey) (Entry V N)
  placeIds : OrderedMap O Nat
  nextPlaceId : Nat

variable {V N I O}

namespace StateSpaceCache

def empty : StateSpaceCache V N I O := ⟨OrderedMap.empty, OrderedMap.empty, 0⟩

/-- Drops every graph and every id. -/
def clear (_cache : StateSpaceCache V N I O) : StateSpaceCache V N I O := empty

/-- The id of a place object, a new one where it has none. -/
def placeId (object : O) (cache : StateSpaceCache V N I O) : Nat × StateSpaceCache V N I O :=
  match cache.placeIds.get? object with
  | some id => (id, cache)
  | none =>
    (cache.nextPlaceId,
      { cache with
        placeIds := cache.placeIds.set object cache.nextPlaceId
        nextPlaceId := cache.nextPlaceId + 1 })

/-- The part of a key for the entries of a marking. -/
def markingKeyOf (objectOf : PlaceName → O) :
    List (PlaceName × Nat) → StateSpaceCache V N I O →
      List (PlaceName × Nat × Nat) × StateSpaceCache V N I O
  | [], cache => ([], cache)
  | (p, count) :: rest, cache =>
    let (id, cache) := placeId (objectOf p) cache
    let (key, cache) := markingKeyOf objectOf rest cache
    ((p, id, count) :: key, cache)

def markingKey (objectOf : PlaceName → O) (marking : MarkingState)
    (cache : StateSpaceCache V N I O) : List (PlaceName × Nat × Nat) × StateSpaceCache V N I O :=
  markingKeyOf objectOf marking.tokenCounts.entries cache

/-- The entry that answers at `budget`, if there is one. -/
def answerOf (entry : Option (Entry V N)) (budget : Nat) : Option (StateSpaceLookup V N) :=
  match entry with
  | some (.closed space) => if space.size < budget then some (.reused space) else some (.declined space)
  | some (.truncated known space) => if budget ≤ known then some (.declined space) else none
  | none => none

/-- Remembers the graph built at `budget`. -/
def remember (cache : StateSpaceCache V N I O) (keyNet : I) (key : CacheKey) (budget : Nat)
    (space : StateSpace V N) : StateSpaceCache V N I O :=
  { cache with
    entries := cache.entries.set (keyNet, key)
      (if space.graph.complete then .closed space else .truncated budget space) }

/-- Answers one enumeration query at `budget`, building where nothing usable is cached. -/
def resolveStateSpace (keyNet : I) (split : List String) (buildNet : PetriNet V N)
    (initial : MarkingState) (objectOf : PlaceName → O) (budget : Nat) (stubborn : Bool)
    (cache : StateSpaceCache V N I O) :
    Except Thrown (StateSpaceLookup V N) × StateSpaceCache V N I O :=
  let (marking, cache) := markingKey objectOf initial cache
  let key : CacheKey := ⟨stubborn, split, marking⟩
  match answerOf (cache.entries.get? (keyNet, key)) budget with
  | some lookup => (.ok lookup, cache)
  | none =>
    match ScgVerifier.buildStateSpace buildNet initial budget stubborn with
    | .error e => (.error e, cache)
    | .ok graph => (.ok (.built ⟨buildNet, graph⟩), cache.remember keyNet key budget ⟨buildNet, graph⟩)

end StateSpaceCache

end Cache

end LibPetri.Verification

import Mathlib

/-! # The event store of the debugger

A store keeps the last `maxEvents` events of a session and counts those it has dropped.
-/

namespace LibPetri.Debug

structure DebugEventStore (E : Type) where
  maxEvents : Nat
  positive : 0 < maxEvents
  events : List E
  /-- All events appended, the evicted ones among them. -/
  eventCount : Nat
  evictedCount : Nat

namespace DebugEventStore

variable {E : Type}

/-- `new DebugEventStore(…, maxEvents)`. -/
def create (maxEvents : Nat) (positive : 0 < maxEvents) : DebugEventStore E :=
  ⟨maxEvents, positive, [], 0, 0⟩

/-- Drops the oldest events while there are more than `maxEvents`, and counts them. -/
def evict (maxEvents : Nat) : List E → Nat → List E × Nat
  | [], evicted => ([], evicted)
  | e :: events, evicted =>
    if maxEvents < (e :: events).length then evict maxEvents events (evicted + 1)
    else (e :: events, evicted)

def append (store : DebugEventStore E) (event : E) : DebugEventStore E :=
  let kept := evict store.maxEvents (store.events ++ [event]) store.evictedCount
  { store with events := kept.1, eventCount := store.eventCount + 1, evictedCount := kept.2 }

/-- The retained events from an index on that counts the evicted ones too. -/
def eventsFrom (store : DebugEventStore E) (fromIndex : Nat) : List E :=
  store.events.drop (fromIndex - store.evictedCount)

end DebugEventStore

end LibPetri.Debug

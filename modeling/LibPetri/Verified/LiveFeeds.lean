import LibPetri.Basis.FirstRepeat
import LibPetri.Verified.MarkingCaches

/-! # Live feeds

The position of an event in its session is the number of events appended before it.  A live subscription
sends what the store retains from an index on, then each event that is appended; it counts from that index,
so its labels are positions exactly when nothing from the index on has been evicted.
-/

namespace LibPetri.Verified

open LibPetri.Basis LibPetri.Core LibPetri.Runtime LibPetri.Debug

variable {V I : Type}

/-! ## Deliveries -/

/-- The events a response delivers, each with its label: the start of its batch plus its offset, or its
index. -/
def labelled : Response V I → List (Nat × NetEvent V)
  | .eventBatch startIndex events _ => numberedFrom startIndex events
  | .event index event => [(index, event)]
  | _ => []

def delivered (sent : List (Response V I)) : List (Nat × NetEvent V) := sent.flatMap labelled

theorem delivered_append (sent sent' : List (Response V I)) :
    delivered (sent ++ sent') = delivered sent ++ delivered sent' := List.flatMap_append

section Numbering

variable {α : Type}

theorem numberedFrom_append (k : Nat) (xs ys : List α) :
    numberedFrom k (xs ++ ys) = numberedFrom k xs ++ numberedFrom (k + xs.length) ys := by
  induction xs generalizing k with
  | nil => rfl
  | cons x xs ih =>
    rw [List.cons_append, numberedFrom, ih, numberedFrom, List.cons_append, List.length_cons]
    congr 3
    omega

theorem length_numberedFrom (k : Nat) (xs : List α) : (numberedFrom k xs).length = xs.length := by
  induction xs generalizing k with
  | nil => rfl
  | cons x xs ih => rw [numberedFrom, List.length_cons, ih, List.length_cons]

theorem drop_numberedFrom (k n : Nat) (xs : List α) :
    (numberedFrom k xs).drop n = numberedFrom (k + n) (xs.drop n) := by
  induction n generalizing k xs with
  | zero => rfl
  | succ n ih =>
    cases xs with
    | nil => rfl
    | cons x xs =>
      rw [numberedFrom, List.drop_succ_cons, List.drop_succ_cons, ih]
      congr 1
      omega

end Numbering

theorem delivered_batches (startIndex : Nat) (events : List (NetEvent V)) :
    delivered (Debugger.batches startIndex events : List (Response V I)) =
      numberedFrom startIndex events := by
  induction startIndex, events using Debugger.batches.induct with
  | case1 startIndex events fits =>
    rw [Debugger.batches, if_pos fits]
    simp [delivered, labelled]
  | case2 startIndex events more ih =>
    have split : events = events.take Debugger.BATCH_SIZE ++ events.drop Debugger.BATCH_SIZE :=
      (List.take_append_drop _ _).symm
    have full : (events.take Debugger.BATCH_SIZE).length = Debugger.BATCH_SIZE := by
      rw [List.length_take]
      omega
    rw [Debugger.batches, if_neg more]
    conv_rhs => rw [split, numberedFrom_append, full]
    rw [← ih]
    rfl

/-! ## The history of a store -/

/-- A store after the events of a session so far. -/
def historyStore (maxEvents : Nat) (positive : 0 < maxEvents) (history : List (NetEvent V)) :
    DebugEventStore (NetEvent V) :=
  history.foldl DebugEventStore.append (DebugEventStore.create maxEvents positive)

section History

variable {maxEvents : Nat} {positive : 0 < maxEvents}

/-- What is retained are the last `maxEvents` events; the others are counted as evicted. -/
theorem historyStore_eq (history : List (NetEvent V)) :
    historyStore maxEvents positive history =
      ⟨maxEvents, positive, history.drop (history.length - maxEvents), history.length,
        history.length - maxEvents⟩ := by
  induction history using List.reverseRecOn with
  | nil => rw [historyStore, List.foldl_nil, DebugEventStore.create, List.drop_nil, List.length_nil, Nat.zero_sub]
  | append_singleton history event ih =>
    have kept : (history.drop (history.length - maxEvents) ++ [event]).length - maxEvents =
        (history ++ [event]).length - maxEvents - (history.length - maxEvents) := by
      simp only [List.length_append, List.length_drop, List.length_singleton]
      omega
    have le : history.length - maxEvents ≤ (history ++ [event]).length - maxEvents := by
      rw [List.length_append]
      omega
    have front : history.drop (history.length - maxEvents) ++ [event] =
        (history ++ [event]).drop (history.length - maxEvents) :=
      (List.drop_append_of_le_length (Nat.sub_le _ _)).symm
    rw [historyStore, List.foldl_append, ← historyStore, ih, List.foldl_cons, List.foldl_nil,
      DebugEventStore.append, evict_eq, kept, front, List.drop_drop, Nat.add_sub_cancel' le]
    simp only [List.length_append, List.length_singleton]

/-- The position of the first event that a subscription from an index can have. -/
def firstPosition (maxEvents fromIndex : Nat) (history : List (NetEvent V)) : Nat :=
  max fromIndex (history.length - maxEvents)

theorem eventsFrom_history (positive : 0 < maxEvents) (history : List (NetEvent V)) (fromIndex : Nat) :
    (historyStore maxEvents positive history).eventsFrom fromIndex =
      history.drop (firstPosition maxEvents fromIndex history) := by
  have position : history.length - maxEvents + (fromIndex - (history.length - maxEvents)) =
      firstPosition maxEvents fromIndex history := by
    rw [firstPosition]
    omega
  rw [historyStore_eq, DebugEventStore.eventsFrom, List.drop_drop, position]

end History

/-! ## The feed -/

/-- A live subscription to which the events of `done` have been delivered and those of `pending` will
be. -/
structure Feeding (base : List (Nat × NetEvent V)) (next : Nat) (done pending : List (NetEvent V))
    (d : Debugger V I) : Prop where
  subscribers : d.subscribers = [0]
  counters : d.counters = [next + done.length]
  microtasks : d.microtasks = pending.map fun event => (event, [0])
  session : d.session = some ⟨some 0, next, [], [], false, none⟩
  sent : delivered d.sent = base ++ numberedFrom next done

section Feed

variable {base : List (Nat × NetEvent V)} {next : Nat}
  {done pending : List (NetEvent V)} {d : Debugger V I}

theorem Feeding.append (h : Feeding base next done pending d) (event : NetEvent V) :
    Feeding base next done (pending ++ [event]) (d.append event) := by
  have listened : d.subscribers ≠ [] := by
    rw [h.subscribers]
    exact List.cons_ne_nil _ _
  rw [Debugger.append, if_neg listened]
  refine ⟨h.subscribers, h.counters, ?_, h.session, h.sent⟩
  rw [h.microtasks, h.subscribers, List.map_append]
  rfl

/-- The listener sends the event under its counter, and counts. -/
theorem Feeding.deliver {event : NetEvent V} (h : Feeding base next done (event :: pending) d) :
    Feeding base next (done ++ [event]) pending d.runMicrotask := by
  have unpaused : d.isPaused = false := by rw [Debugger.isPaused, h.session]; rfl
  have unfiltered : d.matchesFilter event = true := by rw [Debugger.matchesFilter, h.session]; rfl
  have unbroken : d.checkBreakpoints event = none := by rw [Debugger.checkBreakpoints, h.session]; rfl
  have told (microtasks : List (NetEvent V × List Nat)) :
      Debugger.notify event { d with microtasks } 0 =
        { d with
          microtasks
          counters := [next + done.length + 1]
          sent := d.sent ++ [.event (next + done.length) event] } := by
    have guard : Debugger.isPaused { d with microtasks } = false ∧
        Debugger.matchesFilter { d with microtasks } event = true := ⟨unpaused, unfiltered⟩
    have quiet (counters : List Nat) :
        Debugger.checkBreakpoints { d with microtasks, counters } event = none := unbroken
    rw [Debugger.notify, if_pos guard]
    simp only [h.counters, quiet]
    rfl
  rw [Debugger.runMicrotask, h.microtasks]
  change Feeding base next (done ++ [event]) pending (Debugger.notify event _ 0)
  rw [told]
  refine ⟨h.subscribers, ?_, rfl, h.session, ?_⟩
  · rw [List.length_append, List.length_singleton, Nat.add_assoc]
  · change delivered (d.sent ++ [.event (next + done.length) event]) = _
    rw [delivered_append, h.sent, numberedFrom_append, List.append_assoc]
    rfl

/-- What happens to a feed: an event is appended, or (`none`) the oldest microtask runs. -/
def feedAction : Option (NetEvent V) → Debugger.Action V
  | some event => .append event
  | none => .microtask

theorem Feeding.step (tokenInfo : Token V → I) (h : Feeding base next done pending d) (action : Option (NetEvent V)) :
    ∃ done' pending', done' ++ pending' = done ++ pending ++ action.toList ∧
      Feeding base next done' pending' (d.step tokenInfo (feedAction action)) := by
  cases action with
  | some event => exact ⟨done, pending ++ [event], (List.append_assoc _ _ _).symm, h.append event⟩
  | none =>
    cases pending with
    | nil =>
      have still : d.runMicrotask = d := by rw [Debugger.runMicrotask, h.microtasks]; rfl
      exact ⟨done, [], by simp, by rw [feedAction, Debugger.step, still]; exact h⟩
    | cons event pending => exact ⟨done ++ [event], pending, by simp, h.deliver⟩

theorem Feeding.run (tokenInfo : Token V → I) (h : Feeding base next done pending d) (later : List (Option (NetEvent V))) :
    ∃ done' pending', done' ++ pending' = done ++ pending ++ later.reduceOption ∧
      Feeding base next done' pending'
        ((later.map feedAction).foldl (Debugger.step tokenInfo) d) := by
  induction later generalizing done pending d with
  | nil => exact ⟨done, pending, by simp [List.reduceOption], h⟩
  | cons action later ih =>
    obtain ⟨done', pending', same, next'⟩ := h.step tokenInfo action
    obtain ⟨done'', pending'', same', last⟩ := ih next'
    refine ⟨done'', pending'', ?_, last⟩
    rw [same', same, List.append_assoc]
    cases action <;> rfl

end Feed

/-! ## Labels and positions -/

section Labels

variable {maxEvents : Nat}

theorem subscribed_feeding (positive : 0 < maxEvents) (tokenInfo : Token V → I) (history : List (NetEvent V)) (fromIndex : Nat) :
    Feeding (numberedFrom fromIndex (history.drop (firstPosition maxEvents fromIndex history)))
      (fromIndex + (history.drop (firstPosition maxEvents fromIndex history)).length) [] []
      ((Debugger.start (historyStore maxEvents positive history)).step tokenInfo (.subscribe true fromIndex)) := by
  have historical := eventsFrom_history positive history fromIndex
  have everything (events : List (NetEvent V)) (d : Debugger V I) (none_ : d.session = none) :
      events.filter d.matchesFilter = events := by
    refine List.filter_eq_self.mpr fun event _ => ?_
    rw [Debugger.matchesFilter, none_]
    rfl
  rw [Debugger.step, Debugger.handleSubscribe, if_pos rfl, Debugger.subscribeLive]
  split
  next empty =>
    have empty : history.drop (firstPosition maxEvents fromIndex history) = [] := historical ▸ empty
    rw [empty]
    exact ⟨rfl, rfl, rfl, rfl, rfl⟩
  next =>
    refine ⟨rfl, ?_, rfl, ?_, ?_⟩
    · exact congrArg (fun events => [fromIndex + events.length]) historical
    · exact congrArg (fun events => some (⟨some 0, fromIndex + events.length, [], [], false, none⟩ :
        SessionSubscription V I)) historical
    · rw [← historical, numberedFrom, List.append_nil]
      change delivered ([_] ++ Debugger.batches fromIndex (List.filter _ _)) = _
      rw [delivered_append, delivered_batches, everything _ _ rfl]
      rfl

/-- The events a subscription should deliver, labelled with their positions in the session. -/
def positioned (maxEvents fromIndex : Nat) (history later : List (NetEvent V)) :
    List (Nat × NetEvent V) :=
  (numbered (history ++ later)).drop (firstPosition maxEvents fromIndex history)

/-- After any appends and deliveries, what a live subscription has delivered are the retained events from
its index on and the events appended since, but for those still waiting, in order and with their positions,
exactly when no event from the index on had been evicted. -/
theorem live_labels_right {maxEvents fromIndex : Nat} (positive : 0 < maxEvents)
    (tokenInfo : Token V → I) (history : List (NetEvent V)) (inside : fromIndex ≤ history.length)
    (later : List (Option (NetEvent V))) :
    let subscribed := (Debugger.start (historyStore maxEvents positive history)).step tokenInfo
      (.subscribe true fromIndex)
    let d := (later.map feedAction).foldl (Debugger.step tokenInfo) subscribed
    let expected := positioned maxEvents fromIndex history later.reduceOption
    delivered d.sent = expected.take (expected.length - d.microtasks.length) ↔
      (historyStore maxEvents positive history).evictedCount ≤ fromIndex := by
  intro subscribed d expected
  obtain ⟨done, pending, same, feeding⟩ :=
    (subscribed_feeding positive tokenInfo history fromIndex).run tokenInfo later
  rw [List.nil_append, List.nil_append] at same
  have sent : delivered d.sent = numberedFrom fromIndex
      (history.drop (firstPosition maxEvents fromIndex history) ++ done) := by
    rw [numberedFrom_append]
    exact feeding.sent
  have waiting : d.microtasks.length = pending.length := by
    rw [feeding.microtasks, List.length_map]
  have start : firstPosition maxEvents fromIndex history ≤ history.length := by
    rw [firstPosition]
    omega
  have listed : expected = numberedFrom (firstPosition maxEvents fromIndex history)
      (history.drop (firstPosition maxEvents fromIndex history) ++ done ++ pending) := by
    change (numbered (history ++ later.reduceOption)).drop _ = _
    rw [numbered, drop_numberedFrom, Nat.zero_add, List.drop_append_of_le_length start, ← same,
      List.append_assoc]
  have due : expected.take (expected.length - d.microtasks.length) =
      numberedFrom (firstPosition maxEvents fromIndex history)
        (history.drop (firstPosition maxEvents fromIndex history) ++ done) := by
    rw [listed, numberedFrom_append, List.length_append, waiting, length_numberedFrom (α := NetEvent V),
      length_numberedFrom, Nat.add_sub_cancel, ← length_numberedFrom (firstPosition maxEvents fromIndex history),
      List.take_left]
  have evicted : (historyStore maxEvents positive history).evictedCount = history.length - maxEvents := by
    rw [historyStore_eq]
  rw [sent, due, evicted]
  constructor
  · intro labels
    by_contra front
    -- The store is full, so there is a first event; its label is the index, not its position.
    have first : firstPosition maxEvents fromIndex history = history.length - maxEvents := by
      rw [firstPosition]
      omega
    have some_ : history.drop (firstPosition maxEvents fromIndex history) ≠ [] := by
      rw [Ne, List.drop_eq_nil_iff, first]
      omega
    obtain ⟨event, rest, split⟩ := List.exists_cons_of_ne_nil some_
    rw [split, List.cons_append, numberedFrom, numberedFrom] at labels
    have := (Prod.mk.inj (List.cons.inj labels).1).1
    omega
  · intro kept
    rw [firstPosition, Nat.max_eq_left kept]

theorem live_labels_right_kept :
    let subscribed := (Debugger.start (historyStore 1 (by decide)
      [.transitionClockRestarted 0 "t", .transitionClockRestarted 0 "u"])).step (I := Nat) Token.value
        (.subscribe true 1)
    delivered ((([some (.transitionClockRestarted 0 "v"), none].map feedAction).foldl
      (Debugger.step Token.value) subscribed).sent) =
        [(1, .transitionClockRestarted 0 "u"), (2, .transitionClockRestarted 0 "v")] :=
  (live_labels_right (by decide) Token.value [.transitionClockRestarted 0 "t", .transitionClockRestarted 0 "u"]
    (by decide) [some (.transitionClockRestarted 0 "v"), none]).mpr (by decide)

/-- A store for one event that has evicted one: the retained event, of position 1, is labelled 0. -/
theorem evicted_mislabelled :
    delivered ((Debugger.start (historyStore 1 (by decide)
      [.transitionClockRestarted 0 "t", .transitionClockRestarted 0 "u"])).step (I := Nat) Token.value
        (.subscribe true 0)).sent ≠
      positioned 1 0 [.transitionClockRestarted 0 "t", .transitionClockRestarted 0 "u"] [] := by
  decide +kernel

end Labels

end LibPetri.Verified

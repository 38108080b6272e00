import LibPetri.Verified.Outside

/-! # Injected events and their promises

Every call that injects is numbered.  It is refused on the spot, or its event waits in the queue until the loop admits
it, in the order of the calls, or until the end of the run drops it.  Each promise is answered once.
-/

namespace LibPetri.Verified

open LibPetri.Basis LibPetri.Core LibPetri.Runtime CompiledNet Executor

variable {V N : Type}

/-! ## Reading the record -/

section Record

variable {net : PetriNet V N}

/-- The calls that inject, by number. -/
def callsOn : List (Effect net) → List Nat
  | [] => []
  | .unregistered id :: older | .refused id :: older => callsOn older ++ [id]
  | .accepted event :: older => callsOn older ++ [event.id]
  | _ :: older => callsOn older

/-- The events that were let into the queue. -/
def acceptedOn : List (Effect net) → List (ExternalEvent V)
  | [] => []
  | .accepted event :: older => acceptedOn older ++ [event]
  | _ :: older => acceptedOn older

/-- The events the loop has taken from it. -/
def admittedOn : List (Effect net) → List (ExternalEvent V)
  | [] => []
  | .admitting event :: older => admittedOn older ++ [event]
  | _ :: older => admittedOn older

/-- The answers to promises, `none` for one that is rejected. -/
def answersOn : List (Effect net) → List (Nat × Option Bool)
  | [] => []
  | .resolved id value :: older => answersOn older ++ [(id, some value)]
  | .rejected id :: older => answersOn older ++ [(id, none)]
  | _ :: older => answersOn older

/-- Every snapshot that reports nothing in flight was taken when no event was waiting: those that had been accepted had
been admitted, or dropped. -/
def SnapshotsDrained : List (Effect net) → Prop
  | [] => True
  | .snapshotTaken _ false :: older =>
    (∃ dropped, acceptedOn older = admittedOn older ++ dropped ∧
      ∀ event ∈ dropped, (event.id, some false) ∈ answersOn older) ∧ SnapshotsDrained older
  | _ :: older => SnapshotsDrained older

/-- An entry about no event. -/
def silent : Effect net → Bool
  | .unregistered _ | .refused _ | .accepted _ | .admitting _ | .resolved _ _ | .rejected _
  | .snapshotTaken _ _ => false
  | _ => true

/-- What a record says about events. -/
structure Postings (net : PetriNet V N) where
  calls : List Nat
  accepted : List (ExternalEvent V)
  admitted : List (ExternalEvent V)
  answers : List (Nat × Option Bool)
  drained : Prop

def postingsOn (history : List (Effect net)) : Postings net :=
  ⟨callsOn history, acceptedOn history, admittedOn history, answersOn history, SnapshotsDrained history⟩

theorem postingsOn_silent {e : Effect net} (quiet : silent e = true) (history : List (Effect net)) :
    postingsOn (e :: history) = postingsOn history := by
  cases e <;> first | rfl | cases quiet

end Record

/-! ## The books of a queue -/

variable [LinearOrder N] {cfg : Setting V N} {S : Type}

/-- The events that wait: those of the queue the pass has not come to. -/
def waiting (x : Exec cfg S) : List (ExternalEvent V) := x.io.externalQueue.drop x.io.externalCursor

/-- The accounts of events.  `Fine` are the answers an admitted event may get, `held` are those whose answer is due,
and `dropped` those the end of the run has answered with `false`. -/
structure Accounted (Fine : Option Bool → Prop) (held dropped : List (ExternalEvent V)) (x : Exec cfg S) : Prop where
  bounded : x.io.externalCursor ≤ x.io.externalQueue.length
  numbered : callsOn x.history = List.range x.io.injections
  accepted : acceptedOn x.history = admittedOn x.history ++ dropped ++ waiting x
  answered : ∃ answers, answersOn x.history = answers ++ dropped.map (fun event => (event.id, some false)) ∧
    (admittedOn x.history).map ExternalEvent.id = answers.map Prod.fst ++ held.map ExternalEvent.id ∧
    ∀ a ∈ answers, Fine a.2
  drained : SnapshotsDrained x.history

/-- What the accounts depend on. -/
structure Inbox (cfg : Setting V N) where
  queue : List (ExternalEvent V)
  cursor : Nat
  injections : Nat
  postings : Postings cfg.net

def inbox (x : Exec cfg S) : Inbox cfg :=
  ⟨x.io.externalQueue, x.io.externalCursor, x.io.injections, postingsOn x.history⟩

variable {Fine : Option Bool → Prop} {held dropped : List (ExternalEvent V)} {x y : Exec cfg S}

theorem Accounted.of_inbox (h : Accounted Fine held dropped x) (same : inbox y = inbox x) :
    Accounted Fine held dropped y := by
  have queue : y.io.externalQueue = x.io.externalQueue := congrArg Inbox.queue same
  have cursor : y.io.externalCursor = x.io.externalCursor := congrArg Inbox.cursor same
  have injections : y.io.injections = x.io.injections := congrArg Inbox.injections same
  have postings : postingsOn y.history = postingsOn x.history := congrArg Inbox.postings same
  have calls : callsOn y.history = callsOn x.history := congrArg Postings.calls postings
  have accepted : acceptedOn y.history = acceptedOn x.history := congrArg Postings.accepted postings
  have admitted : admittedOn y.history = admittedOn x.history := congrArg Postings.admitted postings
  have answers : answersOn y.history = answersOn x.history := congrArg Postings.answers postings
  have drained : SnapshotsDrained y.history = SnapshotsDrained x.history := congrArg Postings.drained postings
  refine ⟨?_, ?_, ?_, ?_, drained ▸ h.drained⟩
  · rw [queue, cursor]
    exact h.bounded
  · rw [calls, injections]
    exact h.numbered
  · rw [accepted, admitted, waiting, queue, cursor]
    exact h.accepted
  · rw [answers, admitted]
    exact h.answered

theorem Accounted.recorded (h : Accounted Fine held dropped x) {e : Effect cfg.net} (quiet : silent e = true) :
    Accounted Fine held dropped (recorded e x) := by
  refine h.of_inbox ?_
  unfold inbox
  rw [← postingsOn_silent quiet x.history]
  rfl

/-! ### Calls -/

/-- Nothing is accepted any more. -/
def Barred (x : Exec cfg S) : Prop :=
  cfg.environmentPlaces = [] ∨ (x.io.closed || x.io.draining || x.ctl.terminalReached) = true

/-- A snapshot that reports nothing in flight finds no event waiting. -/
theorem Accounted.snapshot (h : Accounted Fine held dropped x) (ops : StoreOps cfg S) :
    Accounted Fine held dropped (snapshot ops x) := by
  unfold Executor.snapshot
  split
  · exact h.recorded rfl
  · refine ⟨h.bounded, h.numbered, h.accepted, h.answered, ?_⟩
    cases flag : actionInFlight ops x with
    | true => exact h.drained
    | false =>
      have past : x.io.externalQueue.length ≤ x.io.externalCursor := by
        unfold actionInFlight at flag
        simp only [Bool.or_eq_false_iff, decide_eq_false_iff_not, Nat.not_lt] at flag
        exact flag.2
      have none_waits : waiting x = [] := List.drop_eq_nil_iff.mpr past
      obtain ⟨answers, said, -, -⟩ := h.answered
      refine ⟨⟨dropped, ?_, fun event mem => ?_⟩, h.drained⟩
      · rw [h.accepted, none_waits, List.append_nil]
      · rw [said]
        exact List.mem_append_right _ (List.mem_map_of_mem mem)

/-- A call that is answered on the spot. -/
theorem Accounted.turned_away (h : Accounted Fine held dropped x) {e : Effect cfg.net}
    (own : e = .unregistered x.io.injections ∨ e = .refused x.io.injections) :
    Accounted Fine held dropped
      { x with io := { x.io with injections := x.io.injections + 1 }, history := e :: x.history } := by
  have calls : callsOn (e :: x.history) = callsOn x.history ++ [x.io.injections] := by
    rcases own with rfl | rfl <;> rfl
  have kept : acceptedOn (e :: x.history) = acceptedOn x.history ∧ admittedOn (e :: x.history) = admittedOn x.history ∧
      answersOn (e :: x.history) = answersOn x.history := by
    rcases own with rfl | rfl <;> exact ⟨rfl, rfl, rfl⟩
  have drained : SnapshotsDrained (e :: x.history) := by
    rcases own with rfl | rfl <;> exact h.drained
  refine ⟨h.bounded, ?_, ?_, ?_, drained⟩
  · show callsOn (e :: x.history) = List.range (x.io.injections + 1)
    rw [calls, h.numbered, List.range_succ]
  · show acceptedOn (e :: x.history) = admittedOn (e :: x.history) ++ dropped ++ waiting x
    rw [kept.1, kept.2.1]
    exact h.accepted
  · show ∃ answers, answersOn (e :: x.history) = _ ∧ (admittedOn (e :: x.history)).map _ = _ ∧ _
    rw [kept.2.1, kept.2.2]
    exact h.answered

theorem Accounted.inject (h : Accounted Fine held dropped x) (open_ : dropped = [] ∨ Barred x) (place : PlaceName)
    (token : Token V) : Accounted Fine held dropped (inject place token x) := by
  unfold Executor.inject
  split
  · exact h.turned_away (.inl rfl)
  next registered =>
    split
    · exact h.turned_away (.inr rfl)
    next goes =>
      -- the event goes behind those that wait, and nothing has been dropped yet
      have none_dropped : dropped = [] := by
        refine open_.resolve_right fun barred => ?_
        rcases barred with unregistered | closed
        · rw [Decidable.not_not, unregistered] at registered
          cases registered
        · exact goes closed
      subst none_dropped
      simp only [wakeUp_eq]
      refine ⟨?_, ?_, ?_, h.answered, h.drained⟩
      · show x.io.externalCursor ≤ (x.io.externalQueue ++ [_]).length
        rw [List.length_append]
        exact h.bounded.trans (Nat.le_add_right _ _)
      · show callsOn x.history ++ [x.io.injections] = List.range (x.io.injections + 1)
        rw [h.numbered, List.range_succ]
      · show acceptedOn x.history ++ [_] = admittedOn x.history ++ [] ++ (x.io.externalQueue ++ [_]).drop x.io.externalCursor
        rw [List.drop_append_of_le_length h.bounded, h.accepted, waiting, List.append_assoc, List.append_assoc]

theorem inbox_mint (value : V) : inbox (mint value x).2 = inbox x := rfl

theorem Accounted.hostCall (h : Accounted Fine held dropped x) (open_ : dropped = [] ∨ Barred x)
    (ops : StoreOps cfg S) (call : HostCall V) : Accounted Fine held dropped (hostCall ops x call) := by
  cases call with
  | inject place token => exact h.inject open_ place token
  | injectValue place value => exact (h.of_inbox (inbox_mint value)).inject open_ place _
  | injectNoAwait place value =>
    have shown : Executor.hostCall ops x (.injectNoAwait place value) = injectNoAwait place value x := rfl
    rw [shown, injectNoAwait]
    split
    · exact h.inject open_ place _
    · exact (h.of_inbox (inbox_mint value)).inject open_ place _
  | snapshot => exact h.snapshot ops
  | drain =>
    refine h.of_inbox ?_
    have shown : Executor.hostCall ops x .drain = drain x := rfl
    rw [shown, drain, wakeUp_eq]
    rfl
  | close =>
    refine h.of_inbox ?_
    have shown : Executor.hostCall ops x .close = close x := rfl
    rw [shown, close, wakeUp_eq]
    rfl
  | expireBudget closing =>
    refine h.of_inbox ?_
    have shown : Executor.hostCall ops x (.expireBudget closing) = expireBudget closing x := rfl
    have stopped : inbox (if x.io.reason = .running then { x with io := { x.io with reason := .stopped } } else x) =
        inbox x := by
      split <;> rfl
    rw [shown, expireBudget]
    cases closing with
    | true =>
      rw [← stopped]
      simp only [close, wakeUp_eq]
      rfl
    | false => exact stopped

/-- Calls only add to the queue, and where nothing is accepted they leave it, now and later. -/
theorem queue_hostCall (ops : StoreOps cfg S) (x : Exec cfg S) (call : HostCall V) :
    ∃ new, (hostCall ops x call).io.externalQueue = x.io.externalQueue ++ new ∧
      (Barred x → new = [] ∧ Barred (hostCall ops x call)) := by
  have same {y : Exec cfg S} (queue : y.io.externalQueue = x.io.externalQueue) (bars : Barred x → Barred y) :
      ∃ new, y.io.externalQueue = x.io.externalQueue ++ new ∧ (Barred x → new = [] ∧ Barred y) :=
    ⟨[], queue.trans (List.append_nil _).symm, fun barred => ⟨rfl, bars barred⟩⟩
  have injected (place : PlaceName) (token : Token V) (x : Exec cfg S) :
      ∃ new, (inject place token x).io.externalQueue = x.io.externalQueue ++ new ∧
        (Barred x → new = [] ∧ Barred (inject place token x)) := by
    unfold inject
    split
    · exact ⟨[], (List.append_nil _).symm, fun barred => ⟨rfl, barred⟩⟩
    next registered =>
      split
      · exact ⟨[], (List.append_nil _).symm, fun barred => ⟨rfl, barred⟩⟩
      next goes =>
        simp only [wakeUp_eq]
        refine ⟨_, rfl, fun barred => ?_⟩
        rcases barred with unregistered | closed
        · rw [Decidable.not_not, unregistered] at registered
          cases registered
        · exact absurd closed goes
  have closes (y : Exec cfg S) (queue : y.io.externalQueue = x.io.externalQueue) :
      ∃ new, (close y).io.externalQueue = x.io.externalQueue ++ new ∧ (Barred x → new = [] ∧ Barred (close y)) := by
    unfold close
    rw [wakeUp_eq]
    exact same queue fun _ => .inr rfl
  cases call with
  | inject place token => exact injected _ _ _
  | injectValue place value => exact injected _ _ _
  | injectNoAwait place value =>
    have shown : hostCall ops x (.injectNoAwait place value) = injectNoAwait place value x := rfl
    rw [shown, injectNoAwait]
    split
    · exact injected _ _ _
    · exact injected _ _ (mint value x).2
  | snapshot =>
    have shown : hostCall ops x .snapshot = Executor.snapshot ops x := rfl
    rw [shown, Executor.snapshot]
    split
    · exact same rfl id
    · exact same rfl id
  | drain =>
    have shown : hostCall ops x .drain = drain x := rfl
    rw [shown, drain, wakeUp_eq]
    exact same rfl fun barred => barred.imp id fun _ => by simp
  | close => exact closes x rfl
  | expireBudget closing =>
    have shown : hostCall ops x (.expireBudget closing) = expireBudget closing x := rfl
    have stopped : (if x.io.reason = .running then
        { x with io := { x.io with reason := .stopped } } else x).io.externalQueue = x.io.externalQueue := by
      split <;> rfl
    have bars (barred : Barred x) :
        Barred (if x.io.reason = .running then { x with io := { x.io with reason := .stopped } } else x) := by
      split
      · exact barred
      · exact barred
    rw [shown, expireBudget]
    cases closing with
    | true => exact closes _ stopped
    | false => exact same stopped bars

/-! ## The loop at work -/

/-- The loop runs, its pass over the queue has come to the cursor, and it means to go as far as `len`. -/
structure Passing (cursor len : Nat) (x : Exec cfg S) : Prop where
  running : x.io.running = true
  cursor : x.io.externalCursor = cursor
  room : len ≤ x.io.externalQueue.length

/-- The books while the loop is at work. -/
structure Minding (Fine : Option Bool → Prop) (held : List (ExternalEvent V)) (cursor len : Nat) (x : Exec cfg S) :
    Prop where
  accounted : Accounted Fine held [] x
  passing : Passing cursor len x

variable {B : Backend cfg S} {cursor len : Nat}

theorem Minding.of_inbox (h : Minding Fine held cursor len x) (same : inbox y = inbox x)
    (running : y.io.running = x.io.running) : Minding Fine held cursor len y := by
  have queue : y.io.externalQueue = x.io.externalQueue := congrArg Inbox.queue same
  have place : y.io.externalCursor = x.io.externalCursor := congrArg Inbox.cursor same
  refine ⟨h.accounted.of_inbox same, running.trans h.passing.running, place.trans h.passing.cursor, ?_⟩
  rw [queue]
  exact h.passing.room

theorem minding_hostStable {ops : StoreOps cfg S} :
    HostStable ops (Minding Fine held cursor len : Exec cfg S → Prop) where
  call x call h := by
    have same := internals_hostCall ops x call
    have running : (hostCall ops x call).io.running = x.io.running := congrArg Internals.running same
    have place : (hostCall ops x call).io.externalCursor = x.io.externalCursor := congrArg Internals.externalCursor same
    obtain ⟨new, queue, -⟩ := queue_hostCall ops x call
    refine ⟨h.accounted.hostCall (.inl rfl) ops call, running.trans h.passing.running, place.trans h.passing.cursor, ?_⟩
    rw [queue, List.length_append]
    exact h.passing.room.trans (Nat.le_add_right _ _)
  appended x event h := h.of_inbox rfl rfl
  epoch x h := h.of_inbox rfl rfl

theorem minding_outer : Outer B (Minding Fine held cursor len) :=
  { minding_hostStable with
    stored := fun x s h => h.of_inbox rfl rfl
    control := fun x c h => h.of_inbox rfl rfl
    inward := fun x e inside h => by
      have quiet : silent e = true := by
        cases e <;> first | rfl | cases inside
      refine h.of_inbox ?_ rfl
      show (⟨x.io.externalQueue, x.io.externalCursor, x.io.injections, postingsOn (e :: x.history)⟩ : Inbox cfg) = _
      rw [postingsOn_silent quiet]
      rfl
    clock := fun x n h => h.of_inbox rfl rfl
    starts := fun x n h => h.of_inbox rfl rfl }

theorem minding_ambient : Ambient B (Minding Fine held cursor len) :=
  { minding_hostStable with
    update := fun x tid flight flight' h _ _ => h.of_inbox rfl rfl
    raceSettled := fun x h => h.of_inbox rfl rfl
    epochs := fun x n h => h.of_inbox rfl rfl
    delivered := fun x tid h _ => by
      rw [wakeUp_eq]
      exact h.of_inbox rfl rfl }

/-! ### Admissions -/

variable {event : ExternalEvent V} {i : Nat}

/-- The pass takes the next event. -/
theorem Minding.admitting (h : Minding Fine [] i len x) (next : x.io.externalQueue[i]? = some event) :
    Minding Fine [event] (i + 1) len (admittingAt i event x) := by
  obtain ⟨bound, at_⟩ := List.getElem?_eq_some_iff.mp next
  obtain ⟨answers, said, due, fine⟩ := h.accounted.answered
  refine ⟨⟨bound, h.accounted.numbered, ?_, ⟨answers, said, ?_, fine⟩, h.accounted.drained⟩, h.passing.running, rfl, h.passing.room⟩
  · show acceptedOn x.history = (admittedOn x.history ++ [event]) ++ [] ++ x.io.externalQueue.drop (i + 1)
    rw [h.accounted.accepted, waiting, h.passing.cursor, List.drop_eq_getElem_cons bound, at_]
    simp
  · show (admittedOn x.history ++ [event]).map ExternalEvent.id = _
    rw [List.map_append, due]
    simp

/-- Its promise is answered. -/
theorem Minding.answered (h : Minding Fine [event] cursor len x) {e : Effect cfg.net} {answer : Option Bool}
    (kind : e = .resolved event.id true ∧ answer = some true ∨ e = .rejected event.id ∧ answer = none)
    (good : Fine answer) : Minding Fine [] cursor len (recorded e x) := by
  obtain ⟨answers, said, due, fine⟩ := h.accounted.answered
  have lists : callsOn (e :: x.history) = callsOn x.history ∧ acceptedOn (e :: x.history) = acceptedOn x.history ∧
      admittedOn (e :: x.history) = admittedOn x.history ∧
      answersOn (e :: x.history) = answersOn x.history ++ [(event.id, answer)] := by
    rcases kind with ⟨rfl, rfl⟩ | ⟨rfl, rfl⟩ <;> exact ⟨rfl, rfl, rfl, rfl⟩
  have drained : SnapshotsDrained (e :: x.history) := by
    rcases kind with ⟨rfl, rfl⟩ | ⟨rfl, rfl⟩ <;> exact h.accounted.drained
  refine ⟨⟨h.accounted.bounded, ?_, ?_, ⟨answers ++ [(event.id, answer)], ?_, ?_, ?_⟩, drained⟩, h.passing.running,
    h.passing.cursor, h.passing.room⟩
  · exact lists.1.trans h.accounted.numbered
  · show acceptedOn (e :: x.history) = admittedOn (e :: x.history) ++ [] ++ waiting x
    rw [lists.2.1, lists.2.2.1]
    exact h.accounted.accepted
  · show answersOn (e :: x.history) = _
    rw [lists.2.2.2, said]
    simp
  · show (admittedOn (e :: x.history)).map _ = _
    rw [lists.2.2.1, due]
    simp
  · intro a mem
    rcases List.mem_append.mp mem with mem | mem
    · exact fine a mem
    · rw [List.mem_singleton.mp mem]
      exact good

theorem admitEvent_minding (confined : Confined B) (resolves : Fine (some true)) (rejects : Fine none) :
    Prog.Spec (fun x => Minding Fine [] i len x ∧ x.io.externalQueue[i]? = some event)
      (admitEvent B i event) (fun _ => Minding Fine [] (i + 1) len) fun _ _ => True := by
  have outer : Outer B (Minding Fine [event] (i + 1) len) := minding_outer
  refine Prog.Spec.modify_bind (R := fun x => Minding Fine [event] (i + 1) len (recorded (.admitting event) x)) ?_
    fun x h => h.1.admitting h.2
  refine Prog.Spec.modify_bind (R := Minding Fine [event] (i + 1) len) ?_ fun x h => h
  refine Prog.Spec.tryCatch (E := fun _ => Minding Fine [event] (i + 1) len) ?_ fun e => ?_
  · refine Prog.Spec.bind (confined.produceToken outer _ _ _) fun _ => ?_
    exact Prog.Spec.bind (outer.emitEvent _) fun _ x h => h.answered (.inl ⟨rfl, rfl⟩) resolves
  · exact Prog.Spec.lift_bind (fun _ _ x h => h.answered (.inr ⟨rfl, rfl⟩) rejects) fun _ _ _ _ => trivial

/-- Where the deposit goes through, the promise is not rejected. -/
theorem admitEvent_minding_clean {verdict : Tid cfg.net → Flight V N → Except Thrown Unit}
    (conforms : Conforms B verdict) (resolves : Fine (some true)) :
    Prog.Spec (fun x => (Minding Fine [] i len x ∧ Projects x.ctl.matchCaches event.place event.token) ∧
        x.io.externalQueue[i]? = some event) (admitEvent B i event)
      (fun _ => Minding Fine [] (i + 1) len) fun _ _ => True := by
  refine Prog.Spec.of_each fun x h => ?_
  have held := h.1.1.admitting h.2
  refine admitEvent_rule conforms h.1.2 minding_hostStable (fun y _ io history => ?_)
    fun y h => h.answered (.inl ⟨rfl, rfl⟩) resolves
  refine held.of_inbox ?_ (congrArg Io.running io)
  unfold inbox
  rw [io, history]
  rfl

/-- The pass is over, and drops what it has come past. -/
theorem Minding.dropDeposited (h : Minding Fine [] cursor len x) :
    Minding Fine [] 0 0 { x with io := dropDeposited x.io } := by
  refine ⟨⟨Nat.zero_le _, h.accounted.numbered, ?_, h.accounted.answered, h.accounted.drained⟩, h.passing.running, rfl, Nat.zero_le _⟩
  show acceptedOn x.history = admittedOn x.history ++ [] ++ (x.io.externalQueue.drop x.io.externalCursor).drop 0
  rw [List.drop_zero]
  exact h.accounted.accepted

/-! ## The end of the run -/

/-- The books once the run has ended: nothing waits, and nothing will. -/
structure Shut (Fine : Option Bool → Prop) (x : Exec cfg S) : Prop where
  accounted : ∃ dropped, Accounted Fine [] dropped x
  empty : x.io.externalQueue = []
  barred : Barred x

theorem Shut.of_inbox (h : Shut Fine x) (same : inbox y = inbox x) (ctl : y.ctl = x.ctl)
    (closed : y.io.closed = x.io.closed) (draining : y.io.draining = x.io.draining) : Shut Fine y := by
  obtain ⟨dropped, accounted⟩ := h.accounted
  refine ⟨⟨dropped, accounted.of_inbox same⟩, (congrArg Inbox.queue same).trans h.empty, ?_⟩
  rw [Barred, ctl, closed, draining]
  exact h.barred

theorem shut_hostStable {ops : StoreOps cfg S} : HostStable ops (Shut Fine : Exec cfg S → Prop) where
  call x call h := by
    obtain ⟨dropped, accounted⟩ := h.accounted
    obtain ⟨new, queue, bars⟩ := queue_hostCall ops x call
    obtain ⟨rfl, barred⟩ := bars h.barred
    refine ⟨⟨dropped, accounted.hostCall (.inr h.barred) ops call⟩, ?_, barred⟩
    rw [queue, h.empty, List.append_nil]
  appended x event h := h.of_inbox rfl rfl rfl rfl
  epoch x h := h.of_inbox rfl rfl rfl rfl

theorem shut_ambient : Ambient B (Shut Fine) :=
  { shut_hostStable with
    update := fun x tid flight flight' h _ _ => h.of_inbox rfl rfl rfl rfl
    raceSettled := fun x h => h.of_inbox rfl rfl rfl rfl
    epochs := fun x n h => h.of_inbox rfl rfl rfl rfl
    delivered := fun x tid h _ => by
      rw [wakeUp_eq]
      exact h.of_inbox rfl rfl rfl rfl }

/-- The state with what is left of the queue put back. -/
def requeued (rest : List (ExternalEvent V)) (x : Exec cfg S) : Exec cfg S :=
  { x with io := { x.io with externalQueue := rest, externalCursor := 0 } }

/-- While the queue is emptied, the rest of it still waits. -/
def Emptying (Fine : Option Bool → Prop) (rest : List (ExternalEvent V)) (x : Exec cfg S) : Prop :=
  (∃ dropped, Accounted Fine [] dropped (requeued rest x)) ∧ x.io.externalQueue = [] ∧ x.io.externalCursor = 0 ∧ Barred x

theorem Emptying.drop {rest : List (ExternalEvent V)} (h : Emptying Fine (event :: rest) x) :
    Emptying Fine rest (recorded (.resolved event.id false) x) := by
  obtain ⟨⟨dropped, accounted⟩, empty, start, barred⟩ := h
  obtain ⟨answers, said, due, fine⟩ := accounted.answered
  refine ⟨⟨dropped ++ [event], Nat.zero_le _, accounted.numbered, ?_, ⟨answers, ?_, due, fine⟩, accounted.drained⟩,
    empty, start, barred⟩
  · show acceptedOn x.history = admittedOn x.history ++ (dropped ++ [event]) ++ rest
    rw [List.append_assoc, List.append_assoc, List.singleton_append, ← List.append_assoc]
    exact accounted.accepted
  · show answersOn x.history ++ [(event.id, some false)] = _
    rw [List.map_append, ← List.append_assoc]
    exact congrArg (· ++ _) said

theorem finishLoop_shut : Prog.Spec (fun x => Minding Fine [] 0 0 x ∧ Barred x) (finishLoop B)
    (fun _ => Shut Fine) fun _ _ => True := by
  refine Prog.Spec.modify_bind (R := fun x => (Accounted Fine [] [] x ∧ x.io.externalCursor = 0) ∧ Barred x) ?_
    fun x h => ⟨⟨h.1.accounted.of_inbox rfl, h.1.passing.cursor⟩, h.2⟩
  refine Prog.Spec.bind (Q := fun _ => Shut Fine) ?_ fun _ => ?_
  · refine Prog.Spec.gets_bind fun pending => Prog.Spec.modify_bind (R := Emptying Fine pending) ?_ fun x h => ?_
    · refine (Prog.Spec.each_rest (P := Emptying Fine) fun event rest x h => h.drop).conseq (fun _ => id)
        (fun _ x h => ?_) fun _ _ => id
      obtain ⟨⟨dropped, accounted⟩, empty, start, barred⟩ := h
      refine ⟨⟨dropped, accounted.of_inbox ?_⟩, empty, barred⟩
      show (⟨x.io.externalQueue, x.io.externalCursor, _, _⟩ : Inbox cfg) = ⟨[], 0, _, _⟩
      rw [empty, start]
      rfl
    · obtain ⟨⟨⟨accounted, start⟩, barred⟩, rfl⟩ := h
      refine ⟨⟨[], accounted.of_inbox ?_⟩, rfl, start, barred⟩
      show (⟨x.io.externalQueue, 0, _, _⟩ : Inbox cfg) = ⟨x.io.externalQueue, x.io.externalCursor, _, _⟩
      rw [start]
      rfl
  refine Prog.Spec.modify_bind (R := Shut Fine) ?_ fun x h => h.of_inbox rfl rfl rfl rfl
  refine Prog.Spec.gets_bind fun marking => ?_
  refine Prog.Spec.bind ((shut_hostStable.emitEvent _).conseq (fun x h => h.1) (fun _ _ => id) fun _ _ => id)
    fun _ => ?_
  refine Prog.Spec.bind (Q := fun _ => Shut Fine) (fun x h => h.of_inbox rfl rfl rfl rfl) fun now => ?_
  refine Prog.Spec.gets_bind fun startMs => ?_
  refine Prog.Spec.bind ((shut_hostStable.emitEvent _).conseq (fun x h => h.1) (fun _ _ => id) fun _ _ => id)
    fun _ => ?_
  exact fun x h => h.of_inbox rfl rfl rfl rfl

/-! ## Along a run -/

/-- The books at each program point.  An exception that leaves the loop may leave an event admitted and its promise
open. -/
def EventsAt (Fine : Option Bool → Prop) : Phase cfg.net → Exec cfg S → Prop
  | .created, x => Accounted Fine [] [] x ∧ x.io.externalCursor = 0
  | .admitting i len, x => Minding Fine [] i len x ∧ i < len
  | .exit, x => Minding Fine [] 0 0 x ∧ Barred x
  | .ended, x => Shut Fine x
  | .crashed _, _ => True
  | _, x => Minding Fine [] 0 0 x

theorem eventsAt_ambient {phase : Phase cfg.net} (open_ : yields phase = true) :
    Ambient B (EventsAt Fine phase : Exec cfg S → Prop) := by
  cases phase with
  | flush | parked _ | resuming => exact minding_ambient
  | ended => exact shut_ambient
  | crashed e =>
    exact
      { call := fun _ _ _ => trivial, appended := fun _ _ _ => trivial, epoch := fun _ _ => trivial
        update := fun _ _ _ _ _ _ _ => trivial, raceSettled := fun _ _ => trivial
        epochs := fun _ _ _ => trivial, delivered := fun _ _ _ _ => trivial }
  | created =>
    have moved {x y : Exec cfg S} (h : Accounted Fine [] [] x ∧ x.io.externalCursor = 0) (same : inbox y = inbox x) :
        Accounted Fine [] [] y ∧ y.io.externalCursor = 0 :=
      ⟨h.1.of_inbox same, (congrArg Inbox.cursor same).trans h.2⟩
    exact
      { call := fun x call h => ⟨h.1.hostCall (.inl rfl) _ call,
          (congrArg Internals.externalCursor (internals_hostCall _ x call)).trans h.2⟩
        appended := fun x event h => moved h rfl
        epoch := fun x h => moved h rfl
        update := fun x tid flight flight' h _ _ => moved h rfl
        raceSettled := fun x h => moved h rfl
        epochs := fun x n h => moved h rfl
        delivered := fun x tid h _ => by
          rw [wakeUp_eq]
          exact moved h rfl }
  | _ => cases open_

/-- Past a check of the terminal flag. -/
theorem minding_unlessTerminal (h : Minding Fine [] 0 0 x) {next : Phase cfg.net}
    (goes : EventsAt Fine next x = Minding Fine [] 0 0 x) :
    EventsAt Fine (if x.ctl.terminalReached then .exit else next) x := by
  split
  next reached => exact ⟨h, .inr (by rw [reached, Bool.or_true])⟩
  next => exact goes ▸ h

/-- The loop ends only where nothing is accepted any more. -/
theorem barred_of_shouldTerminate (ends : shouldTerminate B x = true) : Barred x := by
  unfold shouldTerminate at ends
  dsimp only at ends
  split at ends
  next closed => exact .inr (by rw [closed]; rfl)
  next =>
    split at ends
    · simp only [Bool.and_eq_true] at ends
      exact .inr (by rw [ends.1.1]; simp)
    next none =>
      simp only [hasEnvironmentPlaces, Bool.not_eq_true, Bool.not_eq_false', List.isEmpty_iff] at none
      exact .inl none

theorem eventsAt_executeLoop {verdict : Tid cfg.net → Flight V N → Except Thrown Unit} (conforms : Conforms B verdict)
    (confined : Confined B) (resolves : Fine (some true)) (phase : Phase cfg.net) :
    Prog.Spec (fun x => EventsAt Fine phase x ∧ (Fine none ∨ DepositsCleanly B verdict phase x)) (executeLoop B phase)
      (EventsAt Fine) fun _ _ => True := by
  have outer {cursor len : Nat} : Outer B (Minding Fine [] cursor len) := minding_outer
  have anyway {α : Type} {P : Exec cfg S → Prop} {m : Method cfg S α} {Q : α → Exec cfg S → Prop}
      {E : Thrown → Exec cfg S → Prop} (h : Prog.Spec P m Q E) : Prog.Spec P m Q fun _ _ => True :=
    h.conseq (fun _ => id) (fun _ _ => id) fun _ _ _ => trivial
  cases phase with
  | created =>
    refine Prog.Spec.bind (Q := fun _ => Minding Fine [] 0 0) ?_ fun _ x h => h
    refine Prog.Spec.modify_bind (R := Minding Fine [] 0 0) ?_
      fun x h => ⟨h.1.1.of_inbox rfl, rfl, h.1.2, Nat.zero_le _⟩
    refine Prog.Spec.bind (outer.emitEvent _) fun _ => ?_
    refine Prog.Spec.modify_bind (R := Minding Fine [] 0 0) ?_ fun x h => outer.control x _ h
    exact Prog.Spec.gets_bind fun marking =>
      (outer.emitEvent _).conseq (fun x h => h.1) (fun _ _ => id) fun _ _ => id
  | head =>
    refine Prog.Spec.gets_bind fun x => Prog.Spec.ite (fun runs => ?_) fun stops => ?_
    · exact Prog.Spec.ite (fun _ y h => h.1.1) fun _ y h => h.1.1
    · rintro y ⟨⟨h, -⟩, rfl⟩
      rw [id, h.passing.running, Bool.true_and, Bool.not_eq_true', Bool.not_eq_false] at stops
      exact ⟨h, .inr (by rw [stops, Bool.or_true])⟩
  | completing i len =>
    refine completing_spec (R := Minding Fine [] 0 0) (fun tid => ?_) (fun x h _ => h.1) (fun x h _ _ => h) fun x h _ => minding_unlessTerminal (x := { x with io := { x.io with completionQueue := [] } })
        (h.of_inbox rfl rfl) rfl
    exact (outer.completeTransition confined tid).conseq (fun x h => h.1.1) (fun _ _ => id) fun _ _ _ => trivial
  | «external» =>
    refine Prog.Spec.gets_bind fun x => Prog.Spec.ite (fun _ => ?_) fun waits => ?_
    · exact unlessTerminal_spec fun y h => minding_unlessTerminal h.1.1 rfl
    · rintro y ⟨⟨h, -⟩, rfl⟩
      simp only [id, Bool.or_eq_true, not_or, List.isEmpty_iff] at waits
      exact ⟨⟨h.accounted, h.passing.running, h.passing.cursor, le_refl _⟩, List.length_pos_iff.mpr waits.1⟩
  | admitting i len =>
    refine admitting_spec (R := Minding Fine [] (i + 1) len) (fun event => ?_) (fun x h absent => ?_)
      (fun x h _ more => ⟨h, more⟩) fun x h _ => minding_unlessTerminal (x := { x with io := Executor.dropDeposited x.io })
        h.dropDeposited rfl
    · -- the promise may be rejected, or the deposit goes through
      refine Prog.Spec.of_each fun x h => ?_
      rcases h.1.2 with rejects | clean
      · exact (admitEvent_minding confined resolves rejects).conseq (by rintro _ rfl; exact ⟨h.1.1.1, h.2⟩)
          (fun _ _ => id) fun _ _ => id
      · exact (admitEvent_minding_clean conforms resolves).conseq
          (by rintro _ rfl; exact ⟨⟨h.1.1.1, clean event h.2⟩, h.2⟩) (fun _ _ => id) fun _ _ => id
    · have bound := h.1.1.passing.room
      rw [List.getElem?_eq_none_iff] at absent
      exact absurd h.1.2 (by omega)
  | scan => exact anyway (Prog.Spec.bind (outer.scan.conseq (fun x h => h.1) (fun _ _ => id) fun _ _ => id)
      fun _ x h => h)
  | deadlines =>
    exact deadlines_spec (R := Minding Fine [] 0 0) (fun x h => outer.clock x _ h.1)
      (fun now => outer.apart.enforceDeadlines now) (fun x h ends => ⟨h, barred_of_shouldTerminate ends⟩)
      (fun x h _ => h) fun x now h _ => h
  | firingImmediate rest =>
    cases rest with
    | nil => exact fun x h => h.1
    | cons tid rest =>
      exact anyway (Prog.Spec.bind ((outer.fireImmediate confined tid).conseq (fun x h => h.1) (fun _ _ => id)
        fun _ _ => id) fun _ x h => h)
  | firingGeneral rest snap =>
    cases rest with
    | nil => exact fun x h => h.1
    | cons tid rest =>
      exact anyway (Prog.Spec.bind ((outer.fireReady confined snap tid).conseq (fun x h => h.1) (fun _ _ => id)
        fun _ _ => id) fun _ x h => h)
  | fired =>
    refine Prog.Spec.gets_bind fun x => Prog.Spec.ite (fun _ y h => h.1.1) fun _ => ?_
    exact Prog.Spec.ite (fun _ y h => h.1.1) fun _ y h => h.1.1
  | flush =>
    refine Prog.Spec.gets_bind fun x => Prog.Spec.ite (fun _ => ?_) fun _ => ?_
    · exact Prog.Spec.modify_bind (R := Minding Fine [] 0 0) (fun y h => h) fun y h => h.1.1.of_inbox rfl rfl
    refine Prog.Spec.ite (fun _ y h => h.1.1) fun _ => Prog.Spec.ite (fun _ y h => h.1.1) fun _ => ?_
    refine Prog.Spec.ite (fun _ => ?_) fun _ => ?_
    · exact Prog.Spec.modify_bind (R := Minding Fine [] 0 0) (fun y h => h) fun y h => h.1.1.of_inbox rfl rfl
    refine Prog.Spec.bind (Q := fun _ => Minding Fine [] 0 0) (fun y h => h.1.1.of_inbox rfl rfl) fun now => ?_
    refine Prog.Spec.ite (fun _ y h => h) fun _ => ?_
    exact Prog.Spec.modify_bind (R := Minding Fine [] 0 0) (fun y h => h) fun y h => h.of_inbox rfl rfl
  | parked race =>
    refine Prog.Spec.gets_bind fun settled => Prog.Spec.ite (fun _ => ?_) fun _ y h => h.1.1
    exact Prog.Spec.modify_bind (R := Minding Fine [] 0 0) (fun y h => h) fun y h => h.1.1.of_inbox rfl rfl
  | resuming => exact fun x h => h.1
  | exit =>
    exact Prog.Spec.bind (finishLoop_shut.conseq (fun x h => h.1) (fun _ _ => id) fun _ _ => id) fun _ x h => h
  | ended => exact fun x h => h.1
  | crashed e => exact fun _ _ => trivial

/-! ## Every promise is kept -/

omit [LinearOrder N] in
theorem accepted_sublist {net : PetriNet V N} (history : List (Effect net)) :
    ((acceptedOn history).map ExternalEvent.id).Sublist (callsOn history) := by
  induction history with
  | nil => exact List.Sublist.refl _
  | cons e history ih =>
    cases e with
    | accepted event =>
      rw [acceptedOn, callsOn, List.map_append]
      exact ih.append (List.Sublist.refl _)
    | unregistered id => exact ih.trans (List.sublist_append_left _ _)
    | refused id => exact ih.trans (List.sublist_append_left _ _)
    | _ => exact ih

/-- What a machine that has not crashed owes its host: the accepted events are distinct, the loop has admitted the first
of them and answered these, and at the end of the run each has been answered, those it has dropped with `false`. -/
structure PromisesKept (Fine : Option Bool → Prop) (m : Machine cfg S) : Prop where
  distinct : ((acceptedOn m.exec.history).map ExternalEvent.id).Nodup
  accounted : ∃ dropped, Accounted Fine [] dropped m.exec ∧ (m.phase ≠ .ended → dropped = [])
  answered : m.phase = .ended →
    (answersOn m.exec.history).map Prod.fst = (acceptedOn m.exec.history).map ExternalEvent.id

theorem Accounted.distinct (h : Accounted Fine held dropped x) :
    ((acceptedOn x.history).map ExternalEvent.id).Nodup := by
  have numbers : (callsOn x.history).Nodup := by
    rw [h.numbered]
    exact List.nodup_range
  exact (accepted_sublist x.history).nodup numbers

theorem Shut.answered (h : Shut Fine x) :
    (answersOn x.history).map Prod.fst = (acceptedOn x.history).map ExternalEvent.id := by
  obtain ⟨dropped, accounted⟩ := h.accounted
  obtain ⟨answers, said, due, -⟩ := accounted.answered
  have none_waits : waiting x = [] := by rw [waiting, h.empty, List.drop_nil]
  rw [said, accounted.accepted, none_waits, List.append_nil, List.map_append, List.map_append, due, List.map_map]
  simp

theorem promisesKept_of_eventsAt {m : Machine cfg S} (h : EventsAt Fine m.phase m.exec)
    (runs : ∀ e, m.phase ≠ .crashed e) : PromisesKept Fine m := by
  obtain ⟨x, phase⟩ := m
  have during (accounted : Accounted Fine [] [] x) (goes : phase ≠ .ended) : PromisesKept Fine ⟨x, phase⟩ :=
    ⟨accounted.distinct, ⟨[], accounted, fun _ => rfl⟩, fun ended => absurd ended goes⟩
  cases phase with
  | crashed e => exact absurd rfl (runs e)
  | ended =>
    obtain ⟨dropped, accounted⟩ := h.accounted
    exact ⟨accounted.distinct, ⟨dropped, accounted, fun goes => absurd rfl goes⟩, fun _ => h.answered⟩
  | created => exact during h.1 (by nofun)
  | admitting i len => exact during h.1.accounted (by nofun)
  | exit => exact during h.1.accounted (by nofun)
  | _ => exact during h.accounted (by nofun)

omit [LinearOrder N] in
theorem postingsOn_of_silent {net : PetriNet V N} {history : List (Effect net)} (quiet : ∀ e ∈ history, silent e = true) :
    postingsOn history = ⟨[], [], [], [], True⟩ := by
  induction history with
  | nil => rfl
  | cons e history ih =>
    obtain ⟨here, older⟩ := List.forall_mem_cons.mp quiet
    rw [postingsOn_silent here, ih older]

theorem accounted_built (built : Built B x) : Accounted Fine [] [] x ∧ x.io.externalCursor = 0 := by
  obtain ⟨reads, appends, io⟩ := built.io
  obtain ⟨events, history⟩ := built.history
  have quiet : ∀ e ∈ x.history, silent e = true := by
    rw [history]
    refine List.forall_mem_append.mpr ⟨fun e mem => ?_, fun e mem => ?_⟩
    · obtain ⟨_, -, rfl⟩ := List.mem_map.mp mem
      rfl
    · obtain ⟨entry, -, mem⟩ := List.mem_flatMap.mp (List.mem_reverse.mp mem)
      obtain ⟨token, -, rfl⟩ := List.mem_map.mp mem
      rfl
  have blank : inbox x = ⟨[], 0, 0, ⟨[], [], [], [], True⟩⟩ := by
    rw [inbox, postingsOn_of_silent quiet, io]
    rfl
  let empty : Exec cfg S := { x with io := (constructed x.store : Exec cfg S).io, history := [] }
  have start : Accounted Fine [] [] empty := ⟨le_refl _, rfl, rfl, ⟨[], rfl, rfl, List.forall_mem_nil _⟩, trivial⟩
  exact ⟨start.of_inbox (y := x) blank, congrArg Inbox.cursor blank⟩

variable [Value V]

/-- Along runs in which promises may be rejected or every deposit goes through. -/
theorem eventsAt_reachable {verdict : Tid cfg.net → Flight V N → Except Thrown Unit} (conforms : Conforms B verdict)
    (confined : Confined B) (resolves : Fine (some true)) {new : Except Thrown (Exec cfg S)}
    (built : ∀ x, new = .ok x → Built B x) {Ok : Machine cfg S → Label cfg → Prop}
    (clean : Fine none ∨ ∀ m label, Ok m label → CleanDeposits B verdict m label) {m : Machine cfg S}
    (run : ReachableBy B new Ok m) : EventsAt Fine m.phase m.exec := by
  refine run.invariant (I := fun m => EventsAt Fine m.phase m.exec) (fun x made => accounted_built (built x made))
    fun m label h ok => ?_
  refine step_invariant conforms.lawful (fun _ => eventsAt_ambient) (fun ticks => ?_) h
  have fits : Fine none ∨ DepositsCleanly B verdict m.phase m.exec := clean.imp id fun clean => clean m label ok ticks
  exact (eventsAt_executeLoop conforms confined resolves m.phase).conseq (by rintro _ rfl; exact ⟨h, fits⟩)
    (fun _ _ => id) fun _ _ => id

/-- Every event that is injected, along every run of the two executors; where all deposits go through, each event the
loop admits is answered with `true`. -/
theorem promises_settled [ToString N] (cfg : Setting V N) :
    ((∀ m, Reachable (BitmapNetExecutor.backend cfg) (BitmapNetExecutor.new cfg) m → (∀ e, m.phase ≠ .crashed e) →
        PromisesKept (· ≠ some false) m) ∧
      ∀ m, ReachableBy (BitmapNetExecutor.backend cfg) (BitmapNetExecutor.new cfg)
        (CleanDeposits (BitmapNetExecutor.backend cfg) BitmapNetExecutor.verdict) m → (∀ e, m.phase ≠ .crashed e) →
        PromisesKept (· = some true) m) ∧
    (∀ m, Reachable (PrecompiledNetExecutor.backend cfg) (PrecompiledNetExecutor.new cfg) m →
        (∀ e, m.phase ≠ .crashed e) → PromisesKept (· ≠ some false) m) ∧
      ∀ m, ReachableBy (PrecompiledNetExecutor.backend cfg) (PrecompiledNetExecutor.new cfg)
        (CleanDeposits (PrecompiledNetExecutor.backend cfg) PrecompiledNetExecutor.verdict) m →
        (∀ e, m.phase ≠ .crashed e) → PromisesKept (· = some true) m := by
  have bitmap (x : Exec cfg (BitmapStore cfg)) (made : BitmapNetExecutor.new cfg = .ok x) := (BitmapNetExecutor.built made).1
  have precompiled (x : Exec cfg (PrecompiledStore cfg)) (made : PrecompiledNetExecutor.new cfg = .ok x) :=
    (PrecompiledNetExecutor.built made).1
  refine ⟨⟨fun m run => promisesKept_of_eventsAt ?_, fun m run => promisesKept_of_eventsAt ?_⟩,
    fun m run => promisesKept_of_eventsAt ?_, fun m run => promisesKept_of_eventsAt ?_⟩
  · exact eventsAt_reachable BitmapNetExecutor.conforms BitmapNetExecutor.confined (by simp) bitmap (.inl (by simp)) run
  · exact eventsAt_reachable BitmapNetExecutor.conforms BitmapNetExecutor.confined (by rfl) bitmap
      (.inr fun _ _ => id) run
  · exact eventsAt_reachable PrecompiledNetExecutor.conforms PrecompiledNetExecutor.confined (by simp) precompiled
      (.inl (by simp)) run
  · exact eventsAt_reachable PrecompiledNetExecutor.conforms PrecompiledNetExecutor.confined (by rfl) precompiled
      (.inr fun _ _ => id) run

/-- An event that is admitted, one that is refused, and the end. -/
def injecting : List (Label joinSetting) :=
  [.call (.inject "left" ⟨some 1, 0⟩), .call .drain, .call (.inject "left" ⟨some 2, 0⟩)] ++ List.replicate 7 .tick

theorem promises_settled_injecting : ∃ m : Machine joinSetting (BitmapStore joinSetting),
    m.phase = .ended ∧ answersOn m.exec.history = [(0, some true)] ∧ PromisesKept (· ≠ some false) m := by
  have ends : ∃ m, Reachable (BitmapNetExecutor.backend joinSetting) (BitmapNetExecutor.new joinSetting) m ∧
      m.phase = .ended ∧ answersOn m.exec.history = [(0, some true)] :=
    ⟨_, ⟨_, rfl, Reaches.foldl injecting .start⟩, by decide +kernel, by decide +kernel⟩
  obtain ⟨m, run, ended, answers⟩ := ends
  refine ⟨m, ended, answers, (promises_settled joinSetting).1.1 m run fun e crashed => ?_⟩
  rw [ended] at crashed
  cases crashed

end LibPetri.Verified

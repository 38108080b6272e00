import LibPetri.Verified.AwaitWork
import LibPetri.Verified.CoherentRuns
import LibPetri.Verified.Outside

/-! # No wake-up is lost

A signal finds the loop parked, and settles its race, or finds it at work, and is latched.  The latch
is taken at the flush, before the loop could park.  A closed executor parks on its flights alone.
-/

namespace LibPetri.Verified

open LibPetri.Basis LibPetri.Core LibPetri.Runtime CompiledNet Executor

variable {V N : Type} [LinearOrder N] {cfg : Setting V N} {S : Type} {B : Backend cfg S}

/-! ## The order of the program points -/

/-- The program points that follow one another. -/
def follows {net : PetriNet V N} : Phase net → Phase net → Bool
  | .created, .head => true
  | .head, .completing _ _ | .head, .external | .head, .exit => true
  | .completing _ _, .completing _ _ | .completing _ _, .external | .completing _ _, .exit => true
  | .external, .admitting _ _ | .external, .scan | .external, .exit => true
  | .admitting _ _, .admitting _ _ | .admitting _ _, .scan | .admitting _ _, .exit => true
  | .scan, .deadlines => true
  | .deadlines, .firingImmediate _ | .deadlines, .firingGeneral _ _ | .deadlines, .exit => true
  | .firingImmediate _, .firingImmediate _ | .firingImmediate _, .fired => true
  | .firingGeneral _ _, .firingGeneral _ _ | .firingGeneral _ _, .fired => true
  | .fired, .head | .fired, .resuming | .fired, .flush => true
  | .flush, .resuming | .flush, .parked _ => true
  | .parked _, .resuming | .parked _, .parked _ => true
  | .resuming, .head => true
  | .exit, .ended | .ended, .ended | .crashed _, .crashed _ => true
  | _, _ => false

/-! ## The loop at work -/

/-- An outer invariant that looks at the latch and the wake-up promise, not at the queues. -/
structure Vigil (B : Backend cfg S) (I : Exec cfg S → Prop) : Prop extends Outer B I where
  queues : ∀ x io, io.parkedOnWakeUp = x.io.parkedOnWakeUp → io.wakeUpPending = x.io.wakeUpPending →
    I x → I { x with io := io }
  admitting : ∀ x event, I x → I (recorded (.admitting event) x)
  resolved : ∀ x id value, I x → I (recorded (.resolved id value) x)
  rejected : ∀ x id, I x → I (recorded (.rejected id) x)
  ended : ∀ x, I x → I (recorded .ended x)

section Loop

variable {I : Exec cfg S → Prop} (confined : Confined B) (h : Vigil B I)
include h

theorem Vigil.startLoop : Prog.Spec I (startLoop B) (fun _ => I) fun _ => I := by
  refine Prog.Spec.modify_bind (R := I) ?_ fun x hx => h.queues x _ rfl rfl hx
  refine Prog.Spec.bind (h.emitEvent _) fun _ => ?_
  refine Prog.Spec.modify_bind (R := I) ?_ fun x hx => h.control x _ hx
  exact Prog.Spec.gets_bind fun marking =>
    (h.emitEvent _).conseq (fun x hx => hx.1) (fun _ _ => id) fun _ _ => id

theorem Vigil.finishLoop : Prog.Spec I (finishLoop B) (fun _ => I) fun _ => I := by
  refine Prog.Spec.modify_bind (R := I) ?_ fun x hx => h.queues x _ rfl rfl hx
  refine Prog.Spec.bind (Q := fun _ => I) ?_ fun _ => ?_
  · refine Prog.Spec.gets_bind fun pending => Prog.Spec.modify_bind (R := I) ?_ fun x hx =>
      h.queues x _ rfl rfl hx.1
    exact Prog.Spec.each fun event _ x hx => h.resolved x event.id false hx
  refine Prog.Spec.modify_bind (R := I) ?_ fun x hx => h.queues x _ rfl rfl hx
  refine Prog.Spec.gets_bind fun marking => ?_
  refine Prog.Spec.bind ((h.emitEvent _).conseq (fun x hx => hx.1) (fun _ _ => id) fun _ _ => id) fun _ => ?_
  refine Prog.Spec.bind (Q := fun _ => I) (fun x hx => h.queues x _ rfl rfl hx) fun now => ?_
  refine Prog.Spec.gets_bind fun startMs => ?_
  refine Prog.Spec.bind ((h.emitEvent _).conseq (fun x hx => hx.1) (fun _ _ => id) fun _ _ => id) fun _ => ?_
  exact fun x hx => h.ended x hx

include confined

theorem Vigil.admitEvent (i : Nat) (event : ExternalEvent V) :
    Prog.Spec I (admitEvent B i event) (fun _ => I) fun _ => I := by
  refine Prog.Spec.modify_bind (R := I) ?_ fun x hx => h.queues x _ rfl rfl hx
  refine Prog.Spec.modify_bind (R := I) ?_ fun x hx => h.admitting x event hx
  refine Prog.Spec.tryCatch (E := fun _ => I) ?_ fun e => ?_
  · refine Prog.Spec.bind (confined.produceToken h.toOuter _ _ _) fun _ => ?_
    exact Prog.Spec.bind (h.emitEvent _) fun _ x hx => h.resolved x event.id true hx
  · exact Prog.Spec.lift_bind (fun _ _ x hx => h.rejected x event.id hx) fun _ _ x hx => hx

/-- Everywhere but at the wait, the loop keeps a vigil. -/
theorem Vigil.executeLoop (phase : Phase cfg.net) (waiting : phase ≠ .flush)
    (parked : ∀ race, phase ≠ .parked race) :
    Prog.Spec I (executeLoop B phase) (fun next x => follows phase next = true ∧ I x) fun _ => I := by
  have exits (x : Exec cfg S) (next : Phase cfg.net) (io : Io cfg.net)
      (kept : io.parkedOnWakeUp = x.io.parkedOnWakeUp ∧ io.wakeUpPending = x.io.wakeUpPending)
      (leaves : follows phase .exit = true) (goes : follows phase next = true) (hx : I x) :
      follows phase (if x.ctl.terminalReached then .exit else next) = true ∧ I { x with io := io } := by
    refine ⟨?_, h.queues x io kept.1 kept.2 hx⟩
    split
    · exact leaves
    · exact goes
  cases phase with
  | flush => exact absurd rfl waiting
  | parked race => exact absurd rfl (parked race)
  | created => exact Prog.Spec.bind h.startLoop fun _ x hx => ⟨rfl, hx⟩
  | head =>
    refine Prog.Spec.gets_bind fun x => Prog.Spec.ite (fun _ => ?_) fun _ y hy => ⟨rfl, hy.1⟩
    exact Prog.Spec.ite (fun _ y hy => ⟨rfl, hy.1⟩) fun _ y hy => ⟨rfl, hy.1⟩
  | completing i len =>
    refine completing_spec (R := I) (fun tid => ?_) (fun x hx _ => hx) (fun x hx _ _ => ⟨rfl, hx⟩)
      fun x hx _ => exits x _ _ ⟨rfl, rfl⟩ rfl rfl hx
    exact (h.completeTransition confined tid).conseq (fun x hx => hx.1) (fun _ _ => id) fun _ _ => id
  | «external» =>
    refine Prog.Spec.gets_bind fun x => Prog.Spec.ite (fun _ => ?_) fun _ y hy => ⟨rfl, hy.1⟩
    exact unlessTerminal_spec fun y hy => exits y _ y.io ⟨rfl, rfl⟩ rfl rfl hy.1
  | admitting i len =>
    refine admitting_spec (R := I) (fun event => ?_) (fun x hx _ => hx) (fun x hx _ _ => ⟨rfl, hx⟩)
      fun x hx _ => exits x _ _ ⟨rfl, rfl⟩ rfl rfl hx
    exact (h.admitEvent confined i event).conseq (fun x hx => hx.1) (fun _ _ => id) fun _ _ => id
  | scan => exact Prog.Spec.bind h.scan fun _ x hx => ⟨rfl, hx⟩
  | deadlines =>
    exact deadlines_spec (R := I) (fun x hx => h.clock x _ hx) (fun now => h.apart.enforceDeadlines now)
      (fun x hx _ => ⟨rfl, hx⟩) (fun x hx _ => ⟨rfl, hx⟩) fun x now hx _ => ⟨rfl, hx⟩
  | firingImmediate rest =>
    cases rest with
    | nil => exact fun x hx => ⟨rfl, hx⟩
    | cons tid rest => exact Prog.Spec.bind (h.fireImmediate confined tid) fun _ x hx => ⟨rfl, hx⟩
  | firingGeneral rest snap =>
    cases rest with
    | nil => exact fun x hx => ⟨rfl, hx⟩
    | cons tid rest => exact Prog.Spec.bind (h.fireReady confined snap tid) fun _ x hx => ⟨rfl, hx⟩
  | fired =>
    refine Prog.Spec.gets_bind fun x => Prog.Spec.ite (fun _ y hy => ⟨rfl, hy.1⟩) fun _ => ?_
    exact Prog.Spec.ite (fun _ y hy => ⟨rfl, hy.1⟩) fun _ y hy => ⟨rfl, hy.1⟩
  | resuming => exact fun x hx => ⟨rfl, hx⟩
  | exit => exact Prog.Spec.bind h.finishLoop fun _ x hx => ⟨rfl, hx⟩
  | ended => exact fun x hx => ⟨rfl, hx⟩
  | crashed e => exact fun x hx => ⟨rfl, hx⟩

end Loop

/-! ## Signals -/

/-- What the host can signal: an event, or the end of the run. -/
inductive Signal
  | event
  | stop

/-- The entry of the history that gives the signal. -/
def gives {net : PetriNet V N} : Signal → Effect net → Bool
  | .event, .accepted _ => true
  | .stop, .drained | .stop, .closed => true
  | _, _ => false

/-- How often the signal was given. -/
def given (signal : Signal) (x : Exec cfg S) : Nat := x.history.countP (gives signal)

/-- Where the loop looks at what the signal is about: the queue of events, the lifecycle. -/
def examines {net : PetriNet V N} : Signal → Phase net → Bool
  | .event, .external => true
  | .stop, .deadlines => true
  | _, _ => false

/-- Past that point, and before the wait. -/
def examined {net : PetriNet V N} : Signal → Phase net → Bool
  | .event, .admitting _ _ | .event, .scan | .event, .deadlines => true
  | _, .firingImmediate _ | _, .firingGeneral _ _ | _, .fired | _, .flush => true
  | _, _ => false

theorem given_recorded {signal : Signal} {e : Effect cfg.net} (other : gives signal e = false)
    (x : Exec cfg S) : given signal (recorded e x) = given signal x :=
  List.countP_cons_of_neg (by rw [other]; exact Bool.false_ne_true)

omit [LinearOrder N] in
theorem gives_inward {net : PetriNet V N} {e : Effect net} (signal : Signal) (h : inward e = true) :
    gives signal e = false := by
  cases signal <;> cases e <;> first | rfl | cases h

/-- A call changes nothing about signals, or wakes the loop. -/
theorem wakes_hostCall (ops : StoreOps cfg S) (signal : Signal) (x : Exec cfg S) (call : HostCall V) :
    (hostCall ops x call).io.parkedOnWakeUp = x.io.parkedOnWakeUp ∧
      (given signal (hostCall ops x call) = given signal x ∧
          (hostCall ops x call).io.wakeUpPending = x.io.wakeUpPending ∧
          (hostCall ops x call).io.raceSettled = x.io.raceSettled ∨
        (hostCall ops x call).io.wakeUpPending = (!x.io.parkedOnWakeUp || x.io.wakeUpPending) ∧
          (hostCall ops x call).io.raceSettled = (x.io.parkedOnWakeUp || x.io.raceSettled)) := by
  have injected (place : PlaceName) (token : Token V) (x : Exec cfg S) :
      (inject place token x).io.parkedOnWakeUp = x.io.parkedOnWakeUp ∧
        (given signal (inject place token x) = given signal x ∧
            (inject place token x).io.wakeUpPending = x.io.wakeUpPending ∧
            (inject place token x).io.raceSettled = x.io.raceSettled ∨
          (inject place token x).io.wakeUpPending = (!x.io.parkedOnWakeUp || x.io.wakeUpPending) ∧
            (inject place token x).io.raceSettled = (x.io.parkedOnWakeUp || x.io.raceSettled)) := by
    unfold inject
    split
    · exact ⟨rfl, Or.inl ⟨given_recorded (by cases signal <;> rfl) x, rfl, rfl⟩⟩
    · split
      · exact ⟨rfl, Or.inl ⟨given_recorded (by cases signal <;> rfl) x, rfl, rfl⟩⟩
      · dsimp only
        rw [wakeUp_eq]
        exact ⟨rfl, Or.inr ⟨rfl, rfl⟩⟩
  have closes (x : Exec cfg S) : (close x).io.parkedOnWakeUp = x.io.parkedOnWakeUp ∧
      (close x).io.wakeUpPending = (!x.io.parkedOnWakeUp || x.io.wakeUpPending) ∧
        (close x).io.raceSettled = (x.io.parkedOnWakeUp || x.io.raceSettled) := by
    unfold close
    rw [wakeUp_eq]
    exact ⟨rfl, rfl, rfl⟩
  cases call with
  | inject place token => exact injected _ _ _
  | injectValue place value => exact injected _ _ _
  | injectNoAwait place value =>
    have shown : hostCall ops x (.injectNoAwait place value) = injectNoAwait place value x := rfl
    rw [shown]
    unfold injectNoAwait
    split
    · exact injected _ _ _
    · exact injected _ _ (mint value x).2
  | snapshot =>
    have shown : hostCall ops x .snapshot = Executor.snapshot ops x := rfl
    rw [shown]
    unfold Executor.snapshot
    split
    · exact ⟨rfl, Or.inl ⟨given_recorded (by cases signal <;> rfl) x, rfl, rfl⟩⟩
    · exact ⟨rfl, Or.inl ⟨given_recorded (by cases signal <;> rfl) x, rfl, rfl⟩⟩
  | drain =>
    have shown : hostCall ops x .drain = drain x := rfl
    rw [shown]
    unfold drain
    rw [wakeUp_eq]
    exact ⟨rfl, Or.inr ⟨rfl, rfl⟩⟩
  | close => exact ⟨(closes x).1, Or.inr (closes x).2⟩
  | expireBudget closing =>
    have shown : hostCall ops x (.expireBudget closing) = expireBudget closing x := rfl
    rw [shown]
    unfold expireBudget
    let y := if x.io.reason = .running then { x with io := { x.io with reason := .stopped } } else x
    have same : y.io.parkedOnWakeUp = x.io.parkedOnWakeUp ∧ given signal y = given signal x ∧
        y.io.wakeUpPending = x.io.wakeUpPending ∧ y.io.raceSettled = x.io.raceSettled := by
      show (ite _ _ _ : Exec cfg S).io.parkedOnWakeUp = _ ∧ given signal (ite _ _ _) = _ ∧
        (ite _ _ _ : Exec cfg S).io.wakeUpPending = _ ∧ (ite _ _ _ : Exec cfg S).io.raceSettled = _
      split <;> exact ⟨rfl, rfl, rfl, rfl⟩
    cases closing with
    | true =>
      have closed := closes y
      rw [same.1, same.2.2.1, same.2.2.2] at closed
      exact ⟨closed.1, Or.inr closed.2⟩
    | false => exact ⟨same.1, Or.inl same.2⟩

/-- Closed stays closed, and accepts nothing. -/
theorem closed_ambient (n : Nat) : Ambient B fun x => x.io.closed = true ∧ given .event x = n := by
  have refuses (place : PlaceName) (token : Token V) (x : Exec cfg S)
      (h : x.io.closed = true ∧ given .event x = n) :
      (inject place token x).io.closed = true ∧ given .event (inject place token x) = n := by
    unfold inject
    rw [h.1]
    split
    · exact ⟨h.1, (given_recorded rfl x).trans h.2⟩
    · exact ⟨h.1, (given_recorded rfl x).trans h.2⟩
  have closes (x : Exec cfg S) (h : given .event x = n) :
      (close x).io.closed = true ∧ given .event (close x) = n := by
    unfold close
    rw [wakeUp_eq]
    exact ⟨rfl, (given_recorded rfl x).trans h⟩
  exact
    { call := fun x call h => by
        cases call with
        | inject place token => exact refuses _ _ _ h
        | injectValue place value => exact refuses _ _ _ h
        | injectNoAwait place value =>
          have shown : hostCall B.toStoreOps x (.injectNoAwait place value) = injectNoAwait place value x := rfl
          rw [shown]
          unfold injectNoAwait
          split
          · exact refuses _ _ _ h
          · exact refuses _ _ (mint value x).2 h
        | snapshot =>
          have shown : hostCall B.toStoreOps x .snapshot = Executor.snapshot B.toStoreOps x := rfl
          rw [shown]
          unfold Executor.snapshot
          split
          · exact ⟨h.1, (given_recorded rfl x).trans h.2⟩
          · exact ⟨h.1, (given_recorded rfl x).trans h.2⟩
        | drain =>
          have shown : hostCall B.toStoreOps x .drain = drain x := rfl
          rw [shown]
          unfold drain
          rw [wakeUp_eq]
          exact ⟨h.1, (given_recorded rfl x).trans h.2⟩
        | close => exact closes x h.2
        | expireBudget closing =>
          have shown : hostCall B.toStoreOps x (.expireBudget closing) = expireBudget closing x := rfl
          rw [shown]
          unfold expireBudget
          have kept : (if x.io.reason = .running then
              { x with io := { x.io with reason := .stopped } } else x).io.closed = true ∧
              given .event (if x.io.reason = .running then
                { x with io := { x.io with reason := .stopped } } else x) = n := by
            split
            · exact h
            · exact h
          cases closing with
          | true => exact closes _ kept.2
          | false => exact kept
      appended := fun x _ h => ⟨h.1, (given_recorded rfl x).trans h.2⟩
      epoch := fun _ h => h
      update := fun _ _ _ _ h _ _ => h
      raceSettled := fun _ h => h
      epochs := fun _ _ h => h
      delivered := fun x tid h _ => by rwa [wakeUp_eq] }

theorem closed_hostCall (x : Exec cfg S) (call : HostCall V) (closed : x.io.closed = true) :
    (hostCall B.toStoreOps x call).io.closed = true :=
  ((closed_ambient (given .event x)).call x call ⟨closed, rfl⟩).1

/-- What holds of the latch while the loop is at work, as long as a latch that is set makes it hold. -/
theorem latch_vigil (signal : Signal) {P : Bool → Nat → Prop} (top : ∀ n, P true n) :
    Vigil B fun x => x.io.parkedOnWakeUp = false ∧ P x.io.wakeUpPending (given signal x) := by
  have records (x : Exec cfg S) (e : Effect cfg.net) (other : gives signal e = false)
      (h : x.io.parkedOnWakeUp = false ∧ P x.io.wakeUpPending (given signal x)) :
      x.io.parkedOnWakeUp = false ∧ P x.io.wakeUpPending (given signal (recorded e x)) := by
    rwa [given_recorded other]
  have silent (e : Effect cfg.net) (h : gives .event e = false ∧ gives .stop e = false) :
      gives signal e = false := by
    cases signal
    · exact h.1
    · exact h.2
  exact
    { call := fun x call h => by
        obtain ⟨parked, ⟨same, pending, _⟩ | ⟨pending, _⟩⟩ := wakes_hostCall B.toStoreOps signal x call
        · rwa [parked, same, pending]
        · rw [parked, pending, h.1]
          exact ⟨rfl, top _⟩
      appended := fun x event h => records _ _ (silent _ ⟨rfl, rfl⟩) h
      epoch := fun _ h => h
      stored := fun _ _ h => h
      control := fun _ _ h => h
      inward := fun x e inside h => records x e (gives_inward signal inside) h
      clock := fun _ _ h => h
      starts := fun _ _ h => h
      queues := fun x io parked pending h => by
        show io.parkedOnWakeUp = false ∧ P io.wakeUpPending (given signal x)
        rwa [parked, pending]
      admitting := fun x _ h => records x _ (silent _ ⟨rfl, rfl⟩) h
      resolved := fun x _ _ h => records x _ (silent _ ⟨rfl, rfl⟩) h
      rejected := fun x _ h => records x _ (silent _ ⟨rfl, rfl⟩) h
      ended := fun x h => records x _ (silent _ ⟨rfl, rfl⟩) h }

/-! ## The wait -/

/-- A parked loop is on its wake-up promise, or on all that is in flight; a completion settles either
race. -/
def WaitsAt (B : Backend cfg S) : Phase cfg.net → Exec cfg S → Prop
  | .parked race, x => x.io.parkedOnWakeUp = race.wakeUp ∧
    (race.wakeUp = false → x.io.closed = true ∧
      ∀ tid, (B.flight? tid x.store).isSome = true → tid ∈ race.flights) ∧
    (x.io.completionQueue ≠ [] → x.io.raceSettled = true)
  | .exit, _ | .ended, _ | .crashed _, _ => True
  | _, x => x.io.parkedOnWakeUp = false

/-- A race over the flights holds each of them. -/
def Races (B : Backend cfg S) : Prop :=
  ∀ s tid, (B.flight? tid s).isSome = true → 0 < B.inFlightSize s ∧ tid ∈ B.racing s

theorem awake_vigil : Vigil B fun x => x.io.parkedOnWakeUp = false :=
  have h := latch_vigil (B := B) .event (P := fun _ _ => True) fun _ => trivial
  { call := fun x call hx => (h.call x call ⟨hx, trivial⟩).1
    appended := fun _ _ hx => hx, epoch := fun _ hx => hx, stored := fun _ _ hx => hx
    control := fun _ _ hx => hx, inward := fun _ _ _ hx => hx, clock := fun _ _ hx => hx
    starts := fun _ _ hx => hx, queues := fun _ _ parked _ hx => parked.trans hx
    admitting := fun _ _ hx => hx, resolved := fun _ _ _ hx => hx, rejected := fun _ _ hx => hx
    ended := fun _ hx => hx }

theorem parkOrResume_waits (races : Races B) {E : Thrown → Exec cfg S → Prop} :
    Prog.Spec (fun x => x.io.parkedOnWakeUp = false) (parkOrResume B) (WaitsAt B) E := by
  refine Prog.Spec.gets_bind fun x => Prog.Spec.ite (fun _ => ?_) fun _ => ?_
  · exact Prog.Spec.modify_bind (R := fun y : Exec cfg S => y.io.parkedOnWakeUp = false)
      (fun y hy => hy) fun y hy => hy.1
  refine Prog.Spec.ite (fun _ y hy => hy.1) fun idle => Prog.Spec.ite (fun _ y hy => hy.1) fun _ => ?_
  simp only [isWorkReady, Bool.or_eq_true, Bool.not_eq_true', not_or, Bool.not_eq_false,
    List.isEmpty_iff] at idle
  have parks (race : Race cfg.net) (y : Exec cfg S) (store : y.store = x.store)
      (queue : y.io.completionQueue = x.io.completionQueue) (parked : y.io.parkedOnWakeUp = race.wakeUp)
      (closed : race.wakeUp = false → y.io.closed = true)
      (flights : race.flights = if 0 < B.inFlightSize x.store then B.racing x.store else []) :
      WaitsAt B (.parked race) y := by
    refine ⟨parked, fun deaf => ⟨closed deaf, fun tid held => ?_⟩,
      fun nonempty => absurd (queue.trans idle.1) nonempty⟩
    rw [store] at held
    rw [flights, if_pos (races _ _ held).1]
    exact (races _ _ held).2
  refine Prog.Spec.ite (fun closed => ?_) fun _ => ?_
  · refine Prog.Spec.modify_bind (R := fun y => WaitsAt B (.parked _) y) (fun y hy => hy) ?_
    rintro y ⟨hy, rfl⟩
    exact parks _ _ rfl rfl hy (fun _ => closed) rfl
  · refine Prog.Spec.bind (Q := fun _ y => y.io.parkedOnWakeUp = false ∧ y.store = x.store ∧
      y.io.completionQueue = x.io.completionQueue) ?_ fun now => ?_
    · rintro y ⟨hy, rfl⟩
      exact ⟨hy, rfl, rfl⟩
    refine Prog.Spec.ite (fun _ y hy => hy.1) fun _ => ?_
    refine Prog.Spec.modify_bind (R := fun y => WaitsAt B (.parked _) y) (fun y hy => hy) ?_
    rintro y ⟨_, store, queue⟩
    exact parks _ _ store queue rfl (fun deaf => by cases deaf) rfl

/-- The race a loop is parked on, seen from outside. -/
theorem waiting_around (lawful : Lawful B.toStoreOps) (race : Race cfg.net) :
    Around B (WaitsAt B (.parked race)) where
  call x call h := by
    have same := internals_hostCall B.toStoreOps x call
    have store : (hostCall B.toStoreOps x call).store = x.store := congrArg Internals.store same
    have queue : (hostCall B.toStoreOps x call).io.completionQueue = x.io.completionQueue :=
      congrArg Internals.completionQueue same
    obtain ⟨parked, woken⟩ := wakes_hostCall B.toStoreOps .event x call
    refine ⟨parked.trans h.1, fun deaf => ⟨closed_hostCall x call (h.2.1 deaf).1, ?_⟩, fun nonempty => ?_⟩
    · rw [store]
      exact (h.2.1 deaf).2
    · rw [queue] at nonempty
      rcases woken with ⟨_, _, settled⟩ | ⟨_, settled⟩
      · rw [settled]
        exact h.2.2 nonempty
      · rw [settled, h.2.2 nonempty, Bool.or_true]
  appended _ _ h := h
  epoch _ h := h
  update x tid flight flight' h held _ := by
    refine ⟨h.1, fun deaf => ⟨(h.2.1 deaf).1, fun other registered => ?_⟩, h.2.2⟩
    have held' : (B.flight? other (B.update tid flight' x.store)).isSome = true := registered
    rw [lawful.flight?_update] at held'
    by_cases same : other = tid
    · subst same
      exact (h.2.1 deaf).2 other (by rw [held]; rfl)
    · rw [if_neg same] at held'
      exact (h.2.1 deaf).2 other held'
  raceSettled _ h := ⟨h.1, h.2.1, fun _ => rfl⟩
  epochs _ _ h := h

/-- A completion settles the race: over the wake-up promise, or over the flight itself. -/
theorem waiting_delivers (lawful : Lawful B.toStoreOps) (race : Race cfg.net) (tid : Tid cfg.net)
    {E : Thrown → Exec cfg S → Prop} :
    Prog.Spec (WaitsAt B (.parked race)) (deliverCompletion B (some race) tid)
      (fun _ => WaitsAt B (.parked race)) E := by
  refine Prog.Spec.gets_bind fun found => ?_
  cases found with
  | none => exact fun x hx => hx.1
  | some flight =>
    cases hstatus : flight.status with
    | running =>
      simp only [hstatus]
      exact fun x hx => hx.1
    | delivered =>
      simp only [hstatus]
      exact fun x hx => hx.1
    | settled error =>
      simp only [hstatus]
      refine Prog.Spec.modify_bind (R := fun x => WaitsAt B (.parked race) x ∧
        (B.flight? tid x.store).isSome = true) ?_ ?_
      · rintro x ⟨⟨parked, races, _⟩, held⟩
        have settles (deaf : race.wakeUp = false) : tid ∈ race.flights := (races deaf).2 tid held
        show WaitsAt B (.parked race)
          { x with io := if (some race).any fun race => decide (tid ∈ race.flights) then _ else _ }
        rw [wakeUp_eq, parked]
        cases hwakes : race.wakeUp with
        | true => split <;> exact ⟨hwakes.symm, races, fun _ => rfl⟩
        | false =>
          rw [if_pos (by simpa using settles hwakes)]
          exact ⟨hwakes.symm, races, fun _ => rfl⟩
      · rintro x ⟨hx, held⟩
        refine ⟨(waiting_around lawful race).update x tid flight _ hx held ⟨rfl, rfl, rfl⟩, ?_⟩
        show (B.flight? tid (B.update tid _ x.store)).isSome = true
        rw [lawful.flight?_update, if_pos rfl]
        rfl

theorem awake_ambient : Ambient B fun x => x.io.parkedOnWakeUp = false :=
  { awake_vigil.toHostStable with
    update := fun _ _ _ _ h _ _ => h
    raceSettled := fun _ h => h
    epochs := fun _ _ h => h
    delivered := fun x tid h _ => by rwa [wakeUp_eq] }

theorem trivial_ambient : Ambient B fun _ => True :=
  { call := fun _ _ _ => trivial, appended := fun _ _ _ => trivial, epoch := fun _ _ => trivial
    update := fun _ _ _ _ _ _ _ => trivial, delivered := fun _ _ _ _ => trivial
    raceSettled := fun _ _ => trivial, epochs := fun _ _ _ => trivial }

/-- At work the loop has no wake-up promise; what it waits on is as it should be. -/
theorem waitsAt_of_awake {phase : Phase cfg.net} {x : Exec cfg S} (parked : ∀ race, phase ≠ .parked race)
    (awake : x.io.parkedOnWakeUp = false) : WaitsAt B phase x := by
  cases phase with
  | parked race => exact absurd rfl (parked race)
  | exit | ended | crashed => trivial
  | _ => exact awake

theorem executeLoop_waits (confined : Confined B) (races : Races B) (phase : Phase cfg.net) :
    Prog.Spec (WaitsAt B phase) (executeLoop B phase) (WaitsAt B) fun e => WaitsAt B (.crashed e) := by
  have works (waiting : phase ≠ .flush) (parked : ∀ race, phase ≠ .parked race)
      (awake : ∀ x, WaitsAt B phase x → x.io.parkedOnWakeUp = false) :
      Prog.Spec (WaitsAt B phase) (executeLoop B phase) (WaitsAt B) fun e => WaitsAt B (.crashed e) := by
    refine (awake_vigil.executeLoop confined phase waiting parked).conseq awake (fun next x hx => ?_)
      fun _ _ _ => trivial
    refine waitsAt_of_awake (fun race same => ?_) hx.2
    rw [same] at hx
    cases phase with
    | flush => exact waiting rfl
    | parked race => exact parked race rfl
    | _ => cases hx.1
  cases phase with
  | flush => exact parkOrResume_waits races
  | parked race =>
    refine Prog.Spec.gets_bind fun settled => Prog.Spec.ite (fun _ => ?_) fun _ x hx => hx.1
    exact Prog.Spec.modify_bind (R := fun x : Exec cfg S => x.io.parkedOnWakeUp = false) (fun x hx => hx)
      fun x hx => rfl
  | exit =>
    refine Prog.Spec.bind (Q := fun _ _ => True) (fun x _ => ?_) fun _ _ _ => trivial
    rcases (finishLoop B).run x with ⟨_ | _, _⟩ <;> trivial
  | ended => exact fun _ _ => trivial
  | crashed e => exact fun _ _ => trivial
  | _ => exact works nofun nofun fun x hx => hx

section Runs

variable [Value V] {new : Except Thrown (Exec cfg S)} (lawful : Lawful B.toStoreOps) (confined : Confined B)
  (races : Races B) (built : ∀ x, new = .ok x → Built B x)
include lawful confined races

theorem waitsAt_step {m : Machine cfg S} (label : Label cfg) (h : WaitsAt B m.phase m.exec) :
    WaitsAt B (step B m label).phase (step B m label).exec := by
  refine step_around (I := WaitsAt B) _ (fun open_ => ?_) (fun open_ tid => ?_)
    (fun _ => (executeLoop_waits confined races m.phase).conseq (by rintro _ rfl; exact h) (fun _ _ => id)
      fun _ _ => id) h
  · cases hphase : m.phase with
    | parked race => exact waiting_around lawful race
    | ended | crashed => exact trivial_ambient.toAround
    | created | flush | resuming => exact awake_ambient.toAround
    | _ => rw [hphase] at open_; cases open_
  · cases hphase : m.phase with
    | parked race => exact waiting_delivers lawful race tid
    | ended | crashed => exact trivial_ambient.deliverCompletion lawful _ tid
    | created | flush | resuming => exact awake_ambient.deliverCompletion lawful _ tid
    | _ => rw [hphase] at open_; cases open_

include built

theorem waitsAt_reachable {m : Machine cfg S} (h : Reachable B new m) : WaitsAt B m.phase m.exec := by
  refine h.invariant (I := fun m => WaitsAt B m.phase m.exec) (fun x hx => ?_) fun m label hm _ =>
    waitsAt_step lawful confined races label hm
  obtain ⟨reads, appends, io⟩ := (built x hx).io
  show x.io.parkedOnWakeUp = false
  rw [io]
  rfl

end Runs

/-! ## Signals along runs -/

/-- A signal that was given is still to be heeded: it is latched, or has settled the race, unless the
loop has yet to look. -/
def Heeds (signal : Signal) (phase : Phase cfg.net) (x : Exec cfg S) : Prop :=
  (examined signal phase = true → x.io.parkedOnWakeUp = false ∧ x.io.wakeUpPending = true) ∧
    ((∃ race, phase = .parked race) → x.io.raceSettled = true)

theorem trivial_vigil : Vigil B fun _ => True :=
  { (trivial_ambient (B := B)).toHostStable with
    stored := fun _ _ _ => trivial, control := fun _ _ _ => trivial, inward := fun _ _ _ _ => trivial
    clock := fun _ _ _ => trivial, starts := fun _ _ _ => trivial, queues := fun _ _ _ _ _ => trivial
    admitting := fun _ _ _ => trivial, resolved := fun _ _ _ _ => trivial, rejected := fun _ _ _ => trivial
    ended := fun _ _ => trivial }

theorem Vigil.ambient {I : Exec cfg S → Prop} (h : Vigil B I)
    (delivered : ∀ x tid, I x →
      I { x with io := wakeUp { x.io with completionQueue := x.io.completionQueue ++ [tid] } }) :
    Ambient B I :=
  { h.toHostStable with
    update := fun x _ _ _ hx _ _ => h.stored x _ hx
    raceSettled := fun x hx => h.queues x _ rfl rfl hx
    epochs := fun x _ hx => h.queues x _ rfl rfl hx
    delivered := fun x tid hx _ => delivered x tid hx }

theorem latch_ambient (signal : Signal) {P : Bool → Nat → Prop} (top : ∀ n, P true n) :
    Ambient B fun x => x.io.parkedOnWakeUp = false ∧ P x.io.wakeUpPending (given signal x) := by
  refine (latch_vigil signal top).ambient fun x tid hx => ?_
  rw [wakeUp_eq]
  refine ⟨hx.1, ?_⟩
  show P (!x.io.parkedOnWakeUp || x.io.wakeUpPending) _
  rw [hx.1]
  exact top _

theorem settled_ambient : Ambient B fun x => x.io.raceSettled = true where
  call x call h := by
    obtain ⟨_, ⟨_, _, settled⟩ | ⟨_, settled⟩⟩ := wakes_hostCall B.toStoreOps .event x call
    · rw [settled, h]
    · rw [settled, h, Bool.or_true]
  appended _ _ h := h
  epoch _ h := h
  update _ _ _ _ h _ _ := h
  raceSettled _ _ := rfl
  epochs _ _ h := h
  delivered x tid h _ := by
    rw [wakeUp_eq]
    show (x.io.parkedOnWakeUp || x.io.raceSettled) = true
    rw [h, Bool.or_true]

omit [LinearOrder N] in
/-- Short of where it looks, the loop does not come to the wait. -/
theorem unexamined_follows {net : PetriNet V N} {signal : Signal} {phase next : Phase net}
    (follow : follows phase next = true) (before : examined signal phase = false)
    (looks : examines signal phase = false) (parked : ∀ race, phase ≠ .parked race) :
    examined signal next = false ∧ ∀ race, next ≠ .parked race := by
  cases phase with
  | parked race => exact absurd rfl (parked race)
  | firingImmediate | firingGeneral | fired | flush => cases signal <;> cases before
  | created | head | completing | resuming | exit | ended | crashed =>
    cases next <;> cases follow <;> refine ⟨?_, fun _ same => by cases same⟩ <;> cases signal <;> rfl
  | «external» =>
    cases signal with
    | event => cases looks
    | stop => cases next <;> cases follow <;> exact ⟨rfl, fun _ same => by cases same⟩
  | admitting | scan =>
    cases signal with
    | event => cases before
    | stop => cases next <;> cases follow <;> exact ⟨rfl, fun _ same => by cases same⟩
  | deadlines =>
    cases signal with
    | event => cases before
    | stop => cases looks

theorem parkOrResume_history (history : List (Effect cfg.net)) {E : Thrown → Exec cfg S → Prop} :
    Prog.Spec (fun x => x.history = history) (parkOrResume B) (fun _ x => x.history = history) E := by
  let Same (x : Exec cfg S) : Prop := x.history = history
  refine Prog.Spec.gets_bind fun x => Prog.Spec.ite (fun _ => ?_) fun _ => ?_
  · exact Prog.Spec.modify_bind (R := Same) (fun y hy => hy) fun y hy => hy.1
  refine Prog.Spec.ite (fun _ y hy => hy.1) fun _ => Prog.Spec.ite (fun _ y hy => hy.1) fun _ => ?_
  refine Prog.Spec.ite (fun _ => ?_) fun _ => ?_
  · exact Prog.Spec.modify_bind (R := Same) (fun y hy => hy) fun y hy => hy.1
  refine Prog.Spec.bind (Q := fun _ => Same) (fun y hy => hy.1) fun now => ?_
  refine Prog.Spec.ite (fun _ y hy => hy) fun _ => ?_
  exact Prog.Spec.modify_bind (R := Same) (fun y hy => hy) fun y hy => hy

theorem heeds_executeLoop (confined : Confined B) (signal : Signal) {phase : Phase cfg.net}
    (looks : examines signal phase = false) :
    Prog.Spec (Heeds signal phase) (executeLoop B phase) (Heeds signal) fun e => Heeds signal (.crashed e) := by
  have free (phase : Phase cfg.net) (early : examined signal phase = false) (parked : ∀ race, phase ≠ .parked race)
      (x : Exec cfg S) : Heeds signal phase x :=
    ⟨fun past => Bool.noConfusion (early.symm.trans past), fun ⟨race, same⟩ => absurd same (parked race)⟩
  have crashes (e : Thrown) : ∀ x : Exec cfg S, Heeds signal (.crashed e) x :=
    free _ (by cases signal <;> rfl) fun _ same => by cases same
  have resumes : ∀ x : Exec cfg S, Heeds signal .resuming x :=
    free _ (by cases signal <;> rfl) fun _ same => by cases same
  have works (waiting : phase ≠ .flush) (parked : ∀ race, phase ≠ .parked race) :
      Prog.Spec (Heeds signal phase) (executeLoop B phase) (Heeds signal) fun e => Heeds signal (.crashed e) := by
    cases past : examined signal phase with
    | true =>
      refine ((latch_vigil signal (P := fun latch _ => latch = true) fun _ => rfl).executeLoop confined phase
        waiting parked).conseq (fun x hx => hx.1 past) (fun next x hx => ⟨fun _ => hx.2, ?_⟩) fun e x _ => crashes e x
      rintro ⟨race, rfl⟩
      have after := hx.1
      cases phase with
      | flush => exact absurd rfl waiting
      | parked race => exact absurd rfl (parked race)
      | _ => cases after
    | false =>
      refine (trivial_vigil.executeLoop confined phase waiting parked).conseq (fun _ _ => trivial)
        (fun next x hx => ?_) fun e x _ => crashes e x
      obtain ⟨early, apart⟩ := unexamined_follows hx.1 past looks parked
      exact free next early apart x
  by_cases waiting : phase = .flush
  · subst waiting
    refine Prog.Spec.gets_bind fun x => Prog.Spec.ite (fun _ => ?_) fun unlatched => ?_
    · exact Prog.Spec.modify_bind (R := fun _ => True) (fun y _ => resumes y) fun _ _ => trivial
    -- the latch is set at the flush
    · rintro y ⟨hy, rfl⟩
      have latched := (hy.1 (by cases signal <;> rfl)).2
      exact absurd latched unlatched
  by_cases parked : ∃ race, phase = .parked race
  · obtain ⟨race, rfl⟩ := parked
    refine Prog.Spec.gets_bind fun settled => Prog.Spec.ite (fun _ => ?_) fun _ x hx => hx.1
    exact Prog.Spec.modify_bind (R := fun _ => True) (fun y _ => resumes y) fun _ _ => trivial
  · exact works waiting fun race same => parked ⟨race, same⟩

/-- While a signal may be given: it finds the latch, or the race. -/
def Hears (signal : Signal) (n : Nat) : Phase cfg.net → Exec cfg S → Prop
  | .parked race, x => x.io.parkedOnWakeUp = race.wakeUp ∧ (n < given signal x → x.io.raceSettled = true)
  | .exit, _ | .ended, _ | .crashed _, _ => True
  | _, x => x.io.parkedOnWakeUp = false ∧ (n < given signal x → x.io.wakeUpPending = true)

theorem hears_of_latch {signal : Signal} {n : Nat} {phase : Phase cfg.net} {x : Exec cfg S}
    (parked : ∀ race, phase ≠ .parked race)
    (latch : x.io.parkedOnWakeUp = false ∧ (n < given signal x → x.io.wakeUpPending = true)) :
    Hears signal n phase x := by
  cases phase with
  | parked race => exact absurd rfl (parked race)
  | exit | ended | crashed => trivial
  | _ => exact latch

theorem Hears.heeds {signal : Signal} {n : Nat} {phase : Phase cfg.net} {x : Exec cfg S}
    (h : Hears signal n phase x) (more : n < given signal x) : Heeds signal phase x := by
  refine ⟨fun past => ?_, ?_⟩
  · cases phase with
    | parked | exit | ended | crashed => cases signal <;> cases past
    | _ => exact ⟨h.1, h.2 more⟩
  · rintro ⟨race, rfl⟩
    exact h.2 more

theorem hears_executeLoop (confined : Confined B) (races : Races B) (signal : Signal) {m : Machine cfg S}
    (waits : WaitsAt B m.phase m.exec) :
    Prog.Spec (· = m.exec) (executeLoop B m.phase) (Hears signal (given signal m.exec))
      fun e => Hears signal (given signal m.exec) (.crashed e) := by
  obtain ⟨x, phase⟩ := m
  have works (waiting : phase ≠ .flush) (parked : ∀ race, phase ≠ .parked race)
      (awake : x.io.parkedOnWakeUp = false) :
      Prog.Spec (· = x) (executeLoop B phase) (Hears signal (given signal x))
        fun e => Hears signal (given signal x) (.crashed e) := by
    refine ((latch_vigil signal (P := fun latch k => given signal x < k → latch = true)
      fun _ _ => rfl).executeLoop confined phase waiting parked).conseq ?_ (fun next y hy => ?_) fun _ _ _ => trivial
    · rintro y rfl
      exact ⟨awake, fun more => absurd more (lt_irrefl _)⟩
    · refine hears_of_latch (fun race same => ?_) hy.2
      have after := hy.1
      rw [same] at after
      cases phase with
      | flush => exact waiting rfl
      | parked race => exact parked race rfl
      | _ => cases after
  cases phase with
  | flush =>
    refine ((parkOrResume_waits races (E := fun _ _ => True)).and (parkOrResume_history x.history
      (E := fun _ _ => True))).conseq ?_
      (fun next y hy => ?_) fun _ _ _ => trivial
    · rintro y rfl
      exact ⟨waits, rfl⟩
    have silent : ¬ given signal x < given signal y := by
      unfold given
      rw [hy.2]
      exact lt_irrefl _
    cases next with
    | parked race => exact ⟨hy.1.1, fun more => absurd more silent⟩
    | exit | ended | crashed => trivial
    | _ => exact ⟨hy.1, fun more => absurd more silent⟩
  | parked race =>
    refine Prog.Spec.gets_bind fun settled => Prog.Spec.ite (fun _ => ?_) fun _ => ?_
    · refine Prog.Spec.modify_bind (R := Hears signal (given signal x) .resuming) (fun y hy => hy) ?_
      rintro y ⟨rfl, _⟩
      exact ⟨rfl, fun more => absurd more (lt_irrefl _)⟩
    · rintro y ⟨rfl, _⟩
      exact ⟨waits.1, fun more => absurd more (lt_irrefl _)⟩
  | exit =>
    refine Prog.Spec.bind (Q := fun _ _ => True) (fun y _ => ?_) fun _ _ _ => trivial
    rcases (finishLoop B).run y with ⟨_ | _, _⟩ <;> trivial
  | ended => exact fun _ _ => trivial
  | crashed e => exact fun _ _ => trivial
  | _ => exact works (fun h => by cases h) (fun _ h => by cases h) waits

section Runs

variable [Value V] {new : Except Thrown (Exec cfg S)} (lawful : Lawful B.toStoreOps) (confined : Confined B)
  (races : Races B) (built : ∀ x, new = .ok x → Built B x)
include lawful confined races

/-- The step that gives a signal. -/
theorem hears_step (signal : Signal) {m : Machine cfg S} {label : Label cfg} (waits : WaitsAt B m.phase m.exec)
    (promised : ∀ race, m.phase = .parked race → race.wakeUp = true) :
    Hears signal (given signal m.exec) (step B m label).phase (step B m label).exec := by
  have waked : Hears signal (given signal m.exec) m.phase m.exec := by
    cases hphase : m.phase with
    | parked race =>
      rw [hphase] at waits
      exact ⟨waits.1, fun more => absurd more (lt_irrefl _)⟩
    | exit | ended | crashed => trivial
    | _ =>
      rw [hphase] at waits
      exact ⟨waits, fun more => absurd more (lt_irrefl _)⟩
  have ambient (open_ : yields m.phase = true) : Ambient B (Hears signal (given signal m.exec) m.phase) := by
    cases hphase : m.phase with
    | parked race =>
      have on := promised race hphase
      have settled := settled_ambient (B := B)
      exact
        { call := fun x call h => by
            obtain ⟨parked, woken⟩ := wakes_hostCall B.toStoreOps signal x call
            refine ⟨parked.trans h.1, fun more => ?_⟩
            rcases woken with ⟨same, _, kept⟩ | ⟨_, settles⟩
            · rw [same] at more
              rw [kept]
              exact h.2 more
            · rw [settles, h.1, on, Bool.true_or]
          appended := fun x event h => ⟨h.1, fun more => h.2 (by
            have same : given signal (recorded (.appended event) x) = given signal x :=
              given_recorded (by cases signal <;> rfl) x
            exact same ▸ more)⟩
          epoch := fun _ h => h
          update := fun _ _ _ _ h _ _ => h
          raceSettled := fun _ h => ⟨h.1, fun _ => rfl⟩
          epochs := fun _ _ h => h
          delivered := fun x tid h _ => by
            rw [wakeUp_eq]
            refine ⟨h.1, fun _ => ?_⟩
            show (x.io.parkedOnWakeUp || x.io.raceSettled) = true
            rw [h.1, on, Bool.true_or] }
    | ended | crashed => exact trivial_ambient
    | created | flush | resuming =>
      exact latch_ambient signal (P := fun latch k => given signal m.exec < k → latch = true) fun _ _ => rfl
    | _ => rw [hphase] at open_; cases open_
  exact step_around (I := Hears signal (given signal m.exec)) _ (fun open_ => (ambient open_).toAround)
    (fun open_ tid => (ambient open_).deliverCompletion lawful _ tid)
    (fun _ => hears_executeLoop confined races signal waits) waked

omit races in
/-- A signal that has been given is kept until the loop looks. -/
theorem heeds_step (signal : Signal) {m : Machine cfg S} {label : Label cfg} (h : Heeds signal m.phase m.exec)
    (looks : label = .tick → examines signal m.phase = false) :
    Heeds signal (step B m label).phase (step B m label).exec := by
  have ambient (open_ : yields m.phase = true) : Ambient B (Heeds signal m.phase : Exec cfg S → Prop) := by
    exact (latch_ambient signal (P := fun latch _ => latch = true) fun _ => rfl).imp.and settled_ambient.imp
  exact step_around (I := Heeds signal) _ (fun open_ => (ambient open_).toAround)
    (fun open_ tid => (ambient open_).deliverCompletion lawful _ tid)
    (fun ticks => (heeds_executeLoop confined signal (looks ticks)).conseq (by rintro _ rfl; exact h)
      (fun _ _ => id) fun _ _ => id) h

omit confined races in
/-- A closed executor that waits hears of no event. -/
theorem deaf_step (signal : Signal) {m : Machine cfg S} {label : Label cfg} (waits : WaitsAt B m.phase m.exec)
    (more : given signal m.exec < given signal (step B m label).exec)
    (open_ : signal = .stop → ∀ race, m.phase = .parked race → race.wakeUp = true) :
    ∀ race, m.phase = .parked race → race.wakeUp = true := by
  cases signal with
  | stop => exact open_ rfl
  | event =>
    intro race parked
    cases deaf : race.wakeUp with
    | true => rfl
    | false =>
      rw [parked] at waits
      have ambient := closed_ambient (B := B) (given .event m.exec)
      have kept := step_around (I := fun _ x => x.io.closed = true ∧ given .event x = given .event m.exec)
        label (fun _ => ambient.toAround) (fun _ tid => ambient.deliverCompletion lawful _ tid)
        (fun _ => ?_) ⟨(waits.2.1 deaf).1, rfl⟩
      · exact absurd kept.2 (ne_of_gt more)
      rw [parked]
      refine Prog.Spec.gets_bind fun settled => Prog.Spec.ite (fun _ => ?_) fun _ => ?_
      · refine Prog.Spec.modify_bind (R := fun x : Exec cfg S => x.io.closed = true ∧
          given .event x = given .event m.exec) (fun x hx => hx) ?_
        rintro x ⟨rfl, _⟩
        exact ⟨(waits.2.1 deaf).1, rfl⟩
      · rintro x ⟨rfl, _⟩
        exact ⟨(waits.2.1 deaf).1, rfl⟩

end Runs

variable [Value V] [ToString N]

theorem BitmapNetExecutor.races : Races (BitmapNetExecutor.backend cfg) := by
  intro s tid held
  refine ⟨Nat.pos_of_ne_zero fun empty => ?_, ?_⟩
  · have absent := (OrderedMap.size_eq_zero_iff s.inFlight).mp empty tid
    have held' : (s.inFlight.get? tid).isSome = true := held
    rw [absent] at held'
    cases held'
  · by_contra outside
    have absent := (OrderedMap.get?_eq_none_iff s.inFlight tid).mpr outside
    have held' : (s.inFlight.get? tid).isSome = true := held
    rw [absent] at held'
    cases held'

/-- A completion that is queued has settled the race of a parked loop; an event that is accepted, and a
drain or close, keep the loop from waiting, or have settled its race, until it looks.  The exception is
a drain or close of an executor that was closed when it parked. -/
theorem no_wakeUp_lost (cfg : Setting V N) :
    (∀ m, Reachable (BitmapNetExecutor.backend cfg) (BitmapNetExecutor.new cfg) m →
      ∀ race, m.phase = .parked race → m.exec.io.completionQueue ≠ [] → m.exec.io.raceSettled = true) ∧
    ∀ (signal : Signal) m label, Reachable (BitmapNetExecutor.backend cfg) (BitmapNetExecutor.new cfg) m →
      given signal m.exec < given signal (step (BitmapNetExecutor.backend cfg) m label).exec →
      (signal = .stop → ∀ race, m.phase = .parked race → race.wakeUp = true) →
      ∀ m', Reaches (step (BitmapNetExecutor.backend cfg))
          (fun m label => label = .tick → examines signal m.phase = false)
          (step (BitmapNetExecutor.backend cfg) m label) m' →
        ∀ race, m'.phase = .parked race → m'.exec.io.raceSettled = true := by
  have lawful : Lawful (BitmapNetExecutor.backend cfg).toStoreOps := BitmapNetExecutor.lawful cfg
  have confined : Confined (BitmapNetExecutor.backend cfg) := BitmapNetExecutor.confined
  have races : Races (BitmapNetExecutor.backend cfg) := BitmapNetExecutor.races
  have waits (m : Machine cfg (BitmapStore cfg))
      (h : Reachable (BitmapNetExecutor.backend cfg) (BitmapNetExecutor.new cfg) m) :=
    waitsAt_reachable lawful confined races (fun _ hx => (BitmapNetExecutor.built hx).1) h
  refine ⟨fun m reachable race parked => ?_, fun signal m label reachable more open_ m' later race parked => ?_⟩
  · have at_ := waits m reachable
    rw [parked] at at_
    exact at_.2.2
  · have promised := deaf_step lawful signal (waits m reachable) more open_
    have heard := (hears_step lawful confined races signal (waits m reachable) promised).heeds more
    have kept := later.invariant (I := fun m => Heeds signal m.phase m.exec) heard
      fun m label h looks => heeds_step lawful confined signal h looks
    exact kept.2 ⟨race, parked⟩

/-- An event that finds the loop parked. -/
theorem no_wakeUp_lost_parked : ∃ (m : Machine joinSetting (BitmapStore joinSetting)) (race : Race joinSetting.net),
    m.phase = .parked race ∧ m.exec.io.externalQueue ≠ [] ∧ m.exec.io.raceSettled = true := by
  have parked : ∃ m : Machine joinSetting (BitmapStore joinSetting),
      Reachable (BitmapNetExecutor.backend joinSetting) (BitmapNetExecutor.new joinSetting) m ∧
        m.phase = .parked { flights := [], wakeUp := true, timer := none } ∧
        given .event m.exec < given .event (step (BitmapNetExecutor.backend joinSetting) m
          (.call (.inject "left" ⟨some 1, 0⟩))).exec ∧
        (step (BitmapNetExecutor.backend joinSetting) m (.call (.inject "left" ⟨some 1, 0⟩))).phase =
          .parked { flights := [], wakeUp := true, timer := none } ∧
        (step (BitmapNetExecutor.backend joinSetting) m
          (.call (.inject "left" ⟨some 1, 0⟩))).exec.io.externalQueue ≠ [] :=
    ⟨_, ⟨_, rfl, Reaches.foldl (List.replicate 9 .tick) .start⟩, by decide +kernel⟩
  obtain ⟨m, reachable, _, more, stays, queued⟩ := parked
  exact ⟨_, _, stays, queued, (no_wakeUp_lost joinSetting).2 .event m _ reachable more
    (fun other => by cases other) _ .start _ stays⟩

/-- A second close, while the closed executor waits for what is in flight. -/
theorem wakeUp_lost_closed : ∃ (m : Machine lateSetting (BitmapStore lateSetting)) (race : Race lateSetting.net),
    Reachable (BitmapNetExecutor.backend lateSetting) (BitmapNetExecutor.new lateSetting) m ∧
      given .stop m.exec <
        given .stop (step (BitmapNetExecutor.backend lateSetting) m (.call .close)).exec ∧
      (step (BitmapNetExecutor.backend lateSetting) m (.call .close)).phase = .parked race ∧
      (step (BitmapNetExecutor.backend lateSetting) m (.call .close)).exec.io.raceSettled = false := by
  refine ⟨_, { flights := [⟨0, by decide⟩], wakeUp := false, timer := none }, ⟨_, rfl, Reaches.foldl
    (List.replicate 15 .tick ++ .call .close :: List.replicate 9 .tick) .start⟩, ?_⟩
  decide +kernel

end LibPetri.Verified

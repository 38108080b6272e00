import LibPetri.Verified.CountRuns
import LibPetri.Verified.EventPromises
import LibPetri.Verified.Reaping
import LibPetri.Verified.TerminalStop

/-! # Runs that end by themselves

The loop may stop because it was closed, because a terminal place is marked, or because it has found nothing left to
do.  In the last case nothing is left: no firing is in flight, and no transition can fire in the marking of the end,
unless its own deadline has disabled it.
-/

namespace LibPetri.Verified

open LibPetri.Basis LibPetri.Core LibPetri.Runtime LibPetri.Verification CompiledNet Executor

variable {V N : Type} [LinearOrder N] {cfg : Setting V N} {S : Type} {B : Backend cfg S}
  {verdict : Tid cfg.net → Flight V N → Except Thrown Unit} {x y : Exec cfg S} {tid : Tid cfg.net}

/-! ## The number of firings in flight -/

/-- The transitions with a firing in flight. -/
def inFlightSet (B : Backend cfg S) (s : S) : Finset (Tid cfg.net) :=
  Finset.univ.filter fun tid => (B.flight? tid s).isSome = true

/-- The store counts its firings right. -/
def Tallied (B : Backend cfg S) (x : Exec cfg S) : Prop := B.inFlightSize x.store = (inFlightSet B x.store).card

theorem mem_inFlightSet {s : S} : tid ∈ inFlightSet B s ↔ (B.flight? tid s).isSome = true := by
  rw [inFlightSet, Finset.mem_filter]
  exact and_iff_right (Finset.mem_univ tid)

theorem tallied_ofStock : OfStock (Tallied B) := by
  intro x y same h
  have store : y.store = x.store := congrArg Stock.store same
  unfold Tallied
  rwa [store]

theorem Tallied.same (h : Tallied B x) (flights : ∀ tid, B.flight? tid y.store = B.flight? tid x.store)
    (size : B.inFlightSize y.store = B.inFlightSize x.store) : Tallied B y := by
  have sets : inFlightSet B y.store = inFlightSet B x.store := by
    ext tid
    rw [mem_inFlightSet, mem_inFlightSet, flights]
  unfold Tallied
  rw [size, sets]
  exact h

theorem Tallied.idle (h : Tallied B x) (none_runs : B.inFlightSize x.store = 0) (tid : Tid cfg.net) :
    B.flight? tid x.store = none := by
  have empty : inFlightSet B x.store = ∅ := Finset.card_eq_zero.mp (h.symm.trans none_runs)
  have absent : tid ∉ inFlightSet B x.store := by
    rw [empty]
    exact Finset.notMem_empty tid
  rw [mem_inFlightSet, Option.not_isSome_iff_eq_none] at absent
  exact absent

theorem Tallied.register (lawful : Lawful B.toStoreOps) (h : Tallied B x) (flight : Flight V N)
    (absent : B.flight? tid x.store = none) : Tallied B (stored (B.register tid flight x.store) x) := by
  have new : tid ∉ inFlightSet B x.store := by
    rw [mem_inFlightSet, absent]
    exact Bool.false_ne_true
  have sets : inFlightSet B (B.register tid flight x.store) = insert tid (inFlightSet B x.store) := by
    ext other
    rw [mem_inFlightSet, lawful.flight?_register, Finset.mem_insert, mem_inFlightSet]
    by_cases own : other = tid
    · simp [own]
    · simp [own]
  show B.inFlightSize (B.register tid flight x.store) = (inFlightSet B (B.register tid flight x.store)).card
  rw [lawful.size_register tid flight x.store absent, sets, Finset.card_insert_of_notMem new]
  exact congrArg (· + 1) h

theorem Tallied.unregister (lawful : Lawful B.toStoreOps) (h : Tallied B x)
    (held : (B.flight? tid x.store).isSome = true) : Tallied B (stored (B.unregister tid x.store) x) := by
  have sets : inFlightSet B (B.unregister tid x.store) = (inFlightSet B x.store).erase tid := by
    ext other
    rw [mem_inFlightSet, lawful.flight?_unregister, Finset.mem_erase, mem_inFlightSet]
    by_cases own : other = tid
    · simp [own]
    · simp [own]
  show B.inFlightSize (B.unregister tid x.store) = (inFlightSet B (B.unregister tid x.store)).card
  rw [lawful.size_unregister tid x.store held, sets, Finset.card_erase_of_mem (mem_inFlightSet.mpr held)]
  exact congrArg (· - 1) h

/-- Taking tokens leaves the firings alone. -/
theorem tallied_consuming (lawful : Lawful B.toStoreOps) (tid : Tid cfg.net) :
    Consuming B.toStoreOps tid (Tallied B) (fun _ => Tallied B) fun _ => Tallied B where
  stable _ := tallied_ofStock.hostStable
  first spec _ c x h := by
    have flights := lawful.flights_removeFirst spec.place x.store
    rcases taken : B.removeFirst spec.place x.store with ⟨_ | token, s⟩
    · rw [taken] at flights
      exact Tallied.same (y := stored s x) h flights.1 flights.2
    · rw [taken] at flights
      exact Tallied.same (y := stored s x) h flights.1 flights.2
  matching spec _ key _ name c x h := by
    have flights := lawful.flights_removeFirstMatching spec.place (named key name) x.store
    rcases taken : B.removeFirstMatching spec.place (named key name) x.store with ⟨e | _ | ⟨index, token⟩, s⟩
    · rw [taken] at flights
      exact Tallied.same (y := stored s x) h flights.1 flights.2
    · rw [taken] at flights
      exact Tallied.same (y := stored s x) h flights.1 flights.2
    · rw [taken] at flights
      exact Tallied.same (y := stored s x) h flights.1 flights.2
  counting spec _ key name c x e h _ := h
  reset p _ c x h := by
    have flights := lawful.flights_removeAll p x.store
    exact Tallied.same (y := stored (B.removeAll p x.store).2 x) h flights.1 flights.2
  unmatched _ h := h
  matched x _ h _ := h
  unbound _ _ h _ := h
  reads _ _ _ h := h
  dry _ _ _ h := h

theorem steady_tallied (conforms : Conforms B verdict) :
    Steady B verdict ⟨Tallied B, Tallied B, Tallied B, Tallied B⟩ := by
  have aloof : Aloof B (Tallied B) := tallied_ofStock.calm.aloof
  refine tallied_ofStock.calm.steady (fun x tid flight flight' h held same => ?_) (fun tid x h coherent on _ => ?_)
    (fun tid flight x h _ held lands => ?_) fun i event x h _ projects => ?_
  · have some_ : (B.flight? tid x.store).isSome = true := by
      rw [held]
      rfl
    have sets : inFlightSet B (B.update tid flight' x.store) = inFlightSet B x.store := by
      ext other
      rw [mem_inFlightSet, mem_inFlightSet, isSome_update conforms.lawful held]
    show B.inFlightSize (B.update tid flight' x.store) = (inFlightSet B (B.update tid flight' x.store)).card
    rw [conforms.lawful.size_update tid flight' x.store some_, sets]
    exact h
  · have rule : FiringRule B tid x (Tallied B) (fun _ => Tallied B) (fun _ => Tallied B) (Tallied B) (Tallied B)
        (Tallied B) :=
      { consuming := tallied_consuming conforms.lawful tid
        start := h
        aloof := fun _ => aloof
        throws := fun _ _ _ h => h
        launches := fun c flight y h absent _ => Tallied.register conforms.lawful h flight absent
        contains := fun _ _ h => h
        aloofR := aloof
        forgets := fun _ h => h
        aloofQ := aloof
        crashes := fun _ h => h.elim id id }
    exact rule.fireTransitionContained conforms coherent on
  · have off : Tallied B (settledAt B tid flight x) :=
      Tallied.unregister conforms.lawful h (by rw [held]; rfl)
    have rule : CompletionRule B tid flight x (fun _ => Tallied B) (Tallied B) (Tallied B) (Tallied B) :=
      { start := off
        aloof := fun _ => aloof
        deposit := fun _ _ _ y z _ h _ d _ _ => h.same d.flights d.size
        lands := fun _ h => h
        aloofQ := aloof
        refused := fun _ h => h
        failed := off
        aloofF := aloof
        fails := fun _ h => h
        crashes := fun _ h => h }
    exact rule.completeTransition conforms held lands
  · exact admitEvent_rule conforms (A := Tallied B) projects tallied_ofStock.hostStable
      (fun y d _ _ => Tallied.same (x := admittingAt i event x) h d.flights d.size) fun y h => h

theorem tallied_built (built : Built B x) : Tallied B x := by
  have empty : inFlightSet B x.store = ∅ := by
    refine Finset.eq_empty_of_forall_notMem fun tid mem => ?_
    rw [mem_inFlightSet, built.flights] at mem
    cases mem
  unfold Tallied
  rw [built.size, empty, Finset.card_empty]

/-! ## Nothing left -/

/-- No firing is in flight, and each transition fails its check or has been disabled by its deadline. -/
structure Settles (B : Backend cfg S) (x : Exec cfg S) : Prop where
  idle : ∀ tid, B.flight? tid x.store = none
  stuck : ∀ tid, canEnable B tid x.ctl.markingBitmap x = .ok false ∨ Reaped tid x.history

theorem Settles.internals (h : Settles B x) (same : Verified.internals y = Verified.internals x) : Settles B y := by
  have store : y.store = x.store := congrArg Internals.store same
  have ctl : y.ctl = x.ctl := congrArg Internals.ctl same
  have effects : y.history.filter internal = x.history.filter internal := congrArg Internals.effects same
  refine ⟨fun tid => store ▸ h.idle tid, fun tid => ?_⟩
  rw [ctl, canEnable_internals B same, ← reaped_filter, effects, reaped_filter]
  exact h.stuck tid

theorem rests_hostStable : HostStable B.toStoreOps (Settles B) := HostStable.of_respects fun _ _ same h => h.internals same

/-- An effect that moves no token goes on record. -/
theorem Settles.noted (h : Settles B x) {e : Effect cfg.net} (moves : ∀ p, ¬touches e p) : Settles B (recorded e x) :=
  ⟨h.idle, fun tid => (h.stuck tid).imp id fun reaped => reaped.cons fun p _ => moves p⟩

theorem enabledFlags_of_count (h : Flagged B x) (zero : x.ctl.enabledTransitionCount = 0) (tid : Tid cfg.net) :
    x.ctl.enabledFlags tid = false := by
  have empty : (Finset.univ.filter fun tid => x.ctl.enabledFlags tid = true) = ∅ := by
    have counted := h.counted
    rw [zero] at counted
    exact Finset.card_eq_zero.mp (by exact_mod_cast counted.symm)
  have absent := Finset.eq_empty_iff_forall_notMem.mp empty tid
  rw [Finset.mem_filter] at absent
  exact Bool.not_eq_true _ ▸ fun on => absent ⟨Finset.mem_univ tid, on⟩

/-- The loop stops by itself only there. -/
theorem rests_of_shouldTerminate (scanned : Scanned B x) (tallied : Tallied B x) (ends : shouldTerminate B x = true)
    (open_ : x.io.closed = false) : Settles B x := by
  have found : x.ctl.enabledTransitionCount = 0 ∧ B.inFlightSize x.store = 0 := by
    unfold shouldTerminate at ends
    rw [open_] at ends
    simp only [Bool.false_eq_true, if_false] at ends
    split at ends
    · simp only [Bool.and_eq_true, decide_eq_true_eq] at ends
      exact ⟨ends.1.2, ends.2.1⟩
    · simp only [Bool.and_eq_true, decide_eq_true_eq] at ends
      exact ⟨ends.1, ends.2.1⟩
  refine ⟨tallied.idle found.2, fun tid => ?_⟩
  rcases scanned.clear tid with agrees | inFlight | reaped
  · rw [enabledFlags_of_count scanned.toFlagged found.1] at agrees
    exact .inl agrees
  · rw [scanned.flights, tallied.idle found.2] at inFlight
    cases inFlight
  · exact .inr reaped

/-- Deadlines disable transitions, and leave the others as the scan has left them. -/
theorem enforceDeadline_scanned (now : Ms) (tid : Tid cfg.net) :
    Prog.Spec (Scanned B) (enforceDeadline B now tid) (fun _ => Scanned B) fun _ _ => True := by
  have stable : HostStable B.toStoreOps (Scanned B) := HostStable.of_respects fun x y same h =>
    { h.toCoherent.toFlagged.internals same with
      marked := fun p known => (h.marked p known).internals same
      settled := fun other => (h.settled other).internals same
      clear := fun other => (h.clear other).internals same }
  refine Prog.Spec.gets_bind fun c => Prog.Spec.ite (fun overdue => ?_) fun _ x hx => hx.1
  refine Prog.Spec.modify_bind (R := fun x => Scanned B (recorded (.reaped tid) x)) ?_ ?_
  · exact Prog.Spec.modify_bind (stable.emitEvent _) fun x h => h
  rintro x ⟨h, rfl⟩
  simp only [Bool.and_eq_true, Bool.not_eq_true', decide_eq_true_eq] at overdue
  have flags := h.toFlagged.disable overdue.1.1.2
  have clear (other : Tid cfg.net) : Clear B (recorded (.reaped tid) { x with ctl := disable tid x.ctl }) other := by
    by_cases own : other = tid
    · subst own
      exact .inr (.inr (.inl rfl))
    · rcases h.clear other with agrees | inFlight | reaped
      · refine .inl ?_
        show canEnable B other x.ctl.markingBitmap x = .ok (Function.update x.ctl.enabledFlags tid false other)
        rw [Function.update_of_ne own]
        exact agrees
      · exact .inr (.inl inFlight)
      · exact .inr (.inr (reaped.cons fun _ _ => id))
  exact
    { counted := flags.counted, exclusive := flags.exclusive, flights := flags.flights, marked := h.marked
      settled := fun other => (clear other).imp id .inr
      clear := clear }

theorem enforceDeadlines_scanned (now : Ms) :
    Prog.Spec (Scanned B) (enforceDeadlines B now) (fun _ => Scanned B) fun _ _ => True :=
  Prog.Spec.each fun tid _ => enforceDeadline_scanned now tid

/-! ## The end of the loop -/

/-- Why the loop has stopped, and that it has ended where it rests if neither a terminal place, nor the host, nor a
budget has ended it. -/
def RestAt (B : Backend cfg S) : Phase cfg.net → Exec cfg S → Prop
  | .exit, x => x.io.closed = true ∨ x.ctl.terminalReached = true ∨ Settles B x
  | .ended, x => x.io.reason = .quiescent → Settles B x
  | _, _ => True

theorem restAt_unlessTerminal {next : Phase cfg.net} (goes : ∀ x, RestAt B next x) :
    RestAt B (if x.ctl.terminalReached then .exit else next) x := by
  split
  next reached => exact .inr (.inl reached)
  next => exact goes x

theorem restAt_ambient {phase : Phase cfg.net} (open_ : yields phase = true) : Ambient B (RestAt B phase) := by
  cases phase with
  | created | flush | parked _ | resuming | crashed _ =>
    exact
      { call := fun _ _ _ => trivial, appended := fun _ _ _ => trivial, epoch := fun _ _ => trivial
        update := fun _ _ _ _ _ _ _ => trivial, raceSettled := fun _ _ => trivial
        epochs := fun _ _ _ => trivial, delivered := fun _ _ _ _ => trivial }
  | ended =>
    have decided {x y : Exec cfg S} (h : RestAt B .ended x) (same : Verified.internals y = Verified.internals x)
        (reason : y.io.reason = .quiescent → x.io.reason = .quiescent) : RestAt B .ended y :=
      fun quiet => (h (reason quiet)).internals same
    exact
      { call := fun x call h => decided h (internals_hostCall _ x call) fun quiet => by
          rcases reason_hostCall B.toStoreOps x call with same | ⟨-, -, stopped⟩
          · exact same.symm.trans quiet
          · rw [stopped] at quiet
            cases quiet
        appended := fun x event h => decided h rfl id
        epoch := fun x h => decided h rfl id
        update := fun x tid flight flight' h held _ quiet => by
          have idle := (h quiet).idle tid
          rw [held] at idle
          cases idle
        raceSettled := fun x h => decided h rfl id
        epochs := fun x n h => decided h rfl id
        delivered := fun x tid h held quiet => by
          have quiet : x.io.reason = .quiescent := by
            rw [wakeUp_eq] at quiet
            exact quiet
          rw [(h quiet).idle tid] at held
          cases held }
  | _ => cases open_

theorem finishLoop_rests (undecided : Undecided x) (stopped : RestAt B .exit x) :
    Prog.Spec (· = x) (finishLoop B) (fun _ => RestAt B .ended) fun _ _ => True := by
  have stays : Prog.Spec (Settles B) (finishLoop B) (fun _ => Settles B) fun _ _ => True := by
    have stable : HostStable B.toStoreOps (Settles B) := rests_hostStable
    have moved {x : Exec cfg S} (h : Settles B x) (io : Io cfg.net) : Settles B { x with io := io } := ⟨h.idle, h.stuck⟩
    refine Prog.Spec.modify_bind (R := Settles B) ?_ fun x h => moved h _
    refine Prog.Spec.bind (Q := fun _ => Settles B) ?_ fun _ => ?_
    · refine Prog.Spec.gets_bind fun pending => Prog.Spec.modify_bind (R := Settles B) ?_ fun x h => moved h.1 _
      exact Prog.Spec.each fun event _ x h => h.noted fun _ => id
    refine Prog.Spec.modify_bind (R := Settles B) ?_ fun x h => moved h _
    refine Prog.Spec.gets_bind fun marking => ?_
    refine Prog.Spec.bind ((stable.emitEvent _).conseq (fun x h => h.1) (fun _ _ => id) fun _ _ => id) fun _ => ?_
    refine Prog.Spec.bind (Q := fun _ => Settles B) (fun x h => moved h _) fun now => ?_
    refine Prog.Spec.gets_bind fun startMs => ?_
    refine Prog.Spec.bind ((stable.emitEvent _).conseq (fun x h => h.1) (fun _ _ => id) fun _ _ => id) fun _ => ?_
    exact fun x h => h.noted fun _ => id
  have named : outcome x ≠ .running := by
    unfold outcome
    rcases undecided with running | stopped
    · rw [if_pos running]
      split
      · nofun
      · split <;> nofun
    · rw [stopped]
      nofun
  rcases stopped with closed | reached | rests
  · refine (finishLoop_outcome x fun _ _ => True).conseq (fun _ => id) (fun _ y given quiet => ?_) fun _ _ => id
    rw [given named, outcome, closed] at quiet
    rcases undecided with running | stopped
    · rw [if_pos running] at quiet
      split at quiet <;> cases quiet
    · rw [stopped] at quiet
      cases quiet
  · refine (finishLoop_outcome x fun _ _ => True).conseq (fun _ => id) (fun _ y given quiet => ?_) fun _ _ => id
    rw [given named, outcome, reached] at quiet
    rcases undecided with running | stopped
    · rw [if_pos running] at quiet
      cases quiet
    · rw [stopped] at quiet
      cases quiet
  · exact stays.conseq (by rintro _ rfl; exact rests) (fun _ y h _ => h) fun _ _ => id

/-- What the other invariants say where it matters how the loop stops. -/
structure Meanwhile (B : Backend cfg S) (phase : Phase cfg.net) (x : Exec cfg S) : Prop where
  running : phase = .head → x.io.running = true
  scanned : phase = .deadlines → Scanned B x ∧ Tallied B x
  undecided : phase = .exit → Undecided x

theorem restAt_executeLoop {phase : Phase cfg.net} (meanwhile : Meanwhile B phase x) (h : RestAt B phase x) :
    Prog.Spec (· = x) (executeLoop B phase) (RestAt B) fun _ _ => True := by
  have anything {α : Type} {P : Exec cfg S → Prop} (m : Method cfg S α) :
      Prog.Spec P m (fun _ _ => True) fun _ _ => True := by
    intro x _
    rcases m.run x with ⟨e | a, y⟩ <;> trivial
  have goes (next : Phase cfg.net) (loops : ∀ x, RestAt B next x) :
      Prog.Spec (fun _ => True) (unlessTerminal next : Method cfg S (Phase cfg.net)) (RestAt B) fun _ _ => True :=
    unlessTerminal_spec fun x _ => restAt_unlessTerminal loops
  cases phase with
  | created => exact Prog.Spec.bind (anything _) fun _ x _ => trivial
  | head =>
    refine Prog.Spec.gets_bind fun y => Prog.Spec.ite (fun _ => ?_) fun stops => ?_
    · exact Prog.Spec.ite (fun _ _ _ => trivial) fun _ _ _ => trivial
    · rintro z ⟨rfl, rfl⟩
      rw [id, meanwhile.running rfl, Bool.true_and, Bool.not_eq_true', Bool.not_eq_false] at stops
      exact .inr (.inl stops)
  | completing i len =>
    refine completing_spec (R := fun _ => True) (fun tid => anything _) (fun _ _ _ => trivial)
      (fun _ _ _ _ => trivial) fun y _ _ => ?_
    exact restAt_unlessTerminal (x := { y with io := { y.io with completionQueue := [] } }) fun _ => trivial
  | «external» =>
    refine Prog.Spec.gets_bind fun y => Prog.Spec.ite (fun _ => ?_) fun _ _ _ => trivial
    exact (goes .scan fun _ => trivial).conseq (fun _ _ => trivial) (fun _ _ => id) fun _ _ => id
  | admitting i len =>
    refine admitting_spec (R := fun _ => True) (fun event => anything _) (fun _ _ _ => trivial)
      (fun _ _ _ _ => trivial) fun y _ _ => ?_
    exact restAt_unlessTerminal (x := { y with io := dropDeposited y.io }) fun _ => trivial
  | scan => exact Prog.Spec.bind (anything _) fun _ x _ => trivial
  | deadlines =>
    refine deadlines_spec (R := fun x => Scanned B x ∧ Tallied B x) ?_ (fun now => ?_) (fun y found ends => ?_)
      (fun _ _ _ => trivial) fun _ _ _ _ => trivial
    · rintro _ rfl
      obtain ⟨scanned, tallied⟩ := meanwhile.scanned rfl
      exact ⟨{ scanned.toCoherent.withIo _ with clear := scanned.clear }, tallied⟩
    · have tallied : Prog.Spec (Tallied B) (enforceDeadlines B now) (fun _ => Tallied B) fun _ _ => True :=
        tallied_ofStock.calm.aloof.enforceDeadlines now
      exact ((enforceDeadlines_scanned now).and tallied).conseq (fun _ => id) (fun _ _ => id) fun _ _ _ => trivial
    · cases closed : y.io.closed with
      | true => exact .inl closed
      | false => exact .inr (.inr (rests_of_shouldTerminate found.1 found.2 ends closed))
  | firingImmediate rest =>
    cases rest with
    | nil => exact fun _ _ => trivial
    | cons tid rest => exact Prog.Spec.bind (anything _) fun _ x _ => trivial
  | firingGeneral rest snap =>
    cases rest with
    | nil => exact fun _ _ => trivial
    | cons tid rest => exact Prog.Spec.bind (anything _) fun _ x _ => trivial
  | fired =>
    refine Prog.Spec.gets_bind fun y => Prog.Spec.ite (fun _ _ _ => trivial) fun _ => ?_
    exact Prog.Spec.ite (fun _ _ _ => trivial) fun _ _ _ => trivial
  | flush =>
    refine Prog.Spec.gets_bind fun y => Prog.Spec.ite (fun _ => Prog.Spec.bind (anything _) fun _ _ _ => trivial) fun _ => ?_
    refine Prog.Spec.ite (fun _ _ _ => trivial) fun _ => Prog.Spec.ite (fun _ _ _ => trivial) fun _ => ?_
    refine Prog.Spec.ite (fun _ => Prog.Spec.bind (anything _) fun _ _ _ => trivial) fun _ => ?_
    refine Prog.Spec.bind (anything _) fun now => Prog.Spec.ite (fun _ _ _ => trivial) fun _ => ?_
    exact Prog.Spec.bind (anything _) fun _ _ _ => trivial
  | parked race =>
    refine Prog.Spec.gets_bind fun settled => Prog.Spec.ite (fun _ => ?_) fun _ _ _ => trivial
    exact Prog.Spec.bind (anything _) fun _ x _ => trivial
  | resuming => exact fun _ _ => trivial
  | exit =>
    exact Prog.Spec.bind (finishLoop_rests (meanwhile.undecided rfl) h) fun _ x rests => rests
  | ended =>
    rintro _ rfl
    exact h
  | crashed e => exact fun _ _ => trivial

/-! ## Along a run -/

/-- A transition that can fire passes its check. -/
theorem canEnable_of_fireable (masks : ByMasks B) (marked : ∀ p ∈ placesById cfg.net, Marked B x p)
    (mirror : CachesMirror B x) {chosen : Option N}
    (fireable : Fireable (transition tid) chosen fun p => B.queue p x.store)
    (safe : SafeStamps (transition tid) fun p => B.queue p x.store) :
    canEnable B tid x.ctl.markingBitmap x ≠ .ok false := by
  intro stuck
  have asked : ∀ spec ∈ (transition tid).inputSpecs, spec.requiredCount ≤ (B.queue spec.place x.store).length :=
    fun spec mem => (fireable.takeable spec mem).enough.trans List.countP_le_length
  have bit {p : PlaceName} (known : p ∈ placesById cfg.net) (filled : B.queue p x.store ≠ []) :
      x.ctl.markingBitmap.testBit (placeId cfg.net p) = true := by
    rw [marked p known, Bool.not_eq_true', List.isEmpty_eq_false_iff]
    exact filled
  have mask : B.maskAllows tid x.ctl.markingBitmap = true := by
    rw [masks, canEnableBitmap_iff]
    refine ⟨fun p needed => ?_, fun p mem => ?_⟩
    · rcases needed with input | read
      · obtain ⟨spec, mem, rfl⟩ := List.mem_map.mp input
        have some_token := ((transition tid).required_pos spec mem).trans (asked spec mem)
        exact bit (known_of_input mem) (List.length_pos_iff.mp some_token)
      · exact bit (known_of_read read) (fireable.reads p read)
    · rw [marked p (known_of_inhibitor mem), fireable.inhibitors p mem]
      rfl
  have cardinality : hasCardinality B tid x = true := (hasCardinality_iff B tid x).mpr fun _ => asked
  unfold canEnable at stuck
  rw [mask, cardinality] at stuck
  simp only [Bool.not_true, Bool.false_eq_true, if_false] at stuck
  split at stuck
  next joins =>
    cases binding : bindingOf B.toStoreOps tid x with
    | error e =>
      rw [binding] at stuck
      cases stuck
    | ok found =>
      rw [binding] at stuck
      have unbound : found.isSome = false := Except.ok.inj stuck
      have searched := mirror.findBinding_eq binding safe
      obtain rfl : found = chosen := Except.ok.inj (searched.symm.trans (fireable.binding safe))
      have bound := fireable.bound
      rw [unbound, show (transition tid).matchSpec.isSome = true from joins] at bound
      cases bound
  next => cases stuck

/-- Nothing is in flight, and each transition cannot fire, whatever name it would take, unless it has been reaped: its
bound has passed, and no token has moved in its places since. -/
structure AtRest (B : Backend cfg S) (x : Exec cfg S) : Prop where
  idle : ∀ tid, B.flight? tid x.store = none
  dead : ∀ tid, (isReapable (transition tid).timing = true ∧ Reaped tid x.history) ∨
    ∀ chosen, SafeStamps (transition tid) (fun p => B.queue p x.store) →
      ¬Fireable (transition tid) chosen fun p => B.queue p x.store

theorem Settles.atRest (h : Settles B x) (masks : ByMasks B) (marked : ∀ p ∈ placesById cfg.net, Marked B x p)
    (mirror : CachesMirror B x) (fair : ReapsFairly x.history) : AtRest B x := by
  refine ⟨h.idle, fun tid => ?_⟩
  rcases h.stuck tid with fails | reaped
  · exact .inr fun chosen safe fireable => canEnable_of_fireable masks marked mirror fireable safe fails
  · exact .inl ⟨fair tid reaped.mem, reaped⟩

variable [Value V]

theorem rests_of_reachable (conforms : Conforms B verdict) (confined : Confined B)
    {new : Except Thrown (Exec cfg S)} (built : ∀ x, new = .ok x → Built B x) {m : Machine cfg S}
    (run : ReachableBy B new (CleanDeposits B verdict) m) : RestAt B m.phase m.exec := by
  have invariant : ReachableBy B new (CleanDeposits B verdict) m ∧ RestAt B m.phase m.exec := by
    refine run.invariant (I := fun m => ReachableBy B new (CleanDeposits B verdict) m ∧ RestAt B m.phase m.exec)
      (fun x made => ⟨⟨x, made, .start⟩, trivial⟩) fun m label h clean => ?_
    obtain ⟨run, h⟩ := h
    have after : ReachableBy B new (CleanDeposits B verdict) (step B m label) := by
      obtain ⟨x, made, reaches⟩ := run
      exact ⟨x, made, reaches.step label clean⟩
    refine ⟨after, step_invariant conforms.lawful (fun _ => restAt_ambient) (fun _ => ?_) h⟩
    refine restAt_executeLoop ⟨fun head => ?_, fun deadlines => ?_, fun exits => ?_⟩ h
    · have minding : EventsAt (fun _ => True) m.phase m.exec :=
        eventsAt_reachable conforms confined trivial built (.inl trivial) run
      rw [head] at minding
      exact minding.passing.running
    · have tallied := (steady_tallied conforms).reachable conforms built (fun x made => tallied_built (built x made)) run
      have scanned := tallied.2
      rw [deadlines] at scanned
      exact ⟨scanned, at_uniform tallied.1⟩
    · have stages := ((terminal_steady conforms).reachable conforms built
        (fun x made => loop_of_built (built x made)) run).1
      rw [exits] at stages
      exact stages.1
  exact invariant.2

theorem atRest_of_reachable (conforms : Conforms B verdict) (confined : Confined B) (unreaps : Unreaps B)
    {new : Except Thrown (Exec cfg S)} (built : ∀ x, new = .ok x → Built B x) {m : Machine cfg S}
    (run : ReachableBy B new (CleanDeposits B verdict) m) (mirror : CachesMirror B m.exec) (ended : m.phase = .ended)
    (quiescent : m.exec.io.reason = .quiescent) : AtRest B m.exec := by
  have rests := rests_of_reachable conforms confined built run
  have tallied := (steady_tallied conforms).reachable conforms built (fun x made => tallied_built (built x made)) run
  have coherent := tallied.2
  rw [ended] at rests coherent
  have fair := reapsFairly_of_reachable conforms.lawful unreaps built run
  exact (rests quiescent).atRest conforms.masks coherent.marked mirror fair

variable [ToString N]

end LibPetri.Verified

import LibPetri.Verified.Reachable
import LibPetri.Verified.Firing

/-! # What moves between the steps of the loop

At a yield point the host, the actions in flight and the timers may move before the loop does.
`Around` collects what a property must survive of that, `Ambient` with the callbacks of settled actions.
-/

namespace LibPetri.Verified

open LibPetri.Basis LibPetri.Core LibPetri.Runtime CompiledNet Executor

variable {V N : Type} [LinearOrder N] {cfg : Setting V N} {S : Type}

/-- Two records of one firing: what it consumed stays, what it has written and how it ended may
change. -/
structure SameFiring (flight flight' : Flight V N) : Prop where
  inputs : flight'.inputs = flight.inputs
  consumed : flight'.consumed = flight.consumed
  matchedName : flight'.matchedName = flight.matchedName

structure Around (B : Backend cfg S) (I : Exec cfg S → Prop) : Prop extends
    HostStable B.toStoreOps I where
  update : ∀ x tid flight flight', I x → B.flight? tid x.store = some flight →
    SameFiring flight flight' → I (stored (B.update tid flight' x.store) x)
  raceSettled : ∀ x, I x → I { x with io := { x.io with raceSettled := true } }
  epochs : ∀ x n, I x → I { x with io := { x.io with epochReads := n } }

structure Ambient (B : Backend cfg S) (I : Exec cfg S → Prop) : Prop extends Around B I where
  delivered : ∀ x tid, I x → (B.flight? tid x.store).isSome = true →
    I { x with io := wakeUp { x.io with completionQueue := x.io.completionQueue ++ [tid] } }

variable {B : Backend cfg S} {I J : Exec cfg S → Prop}

namespace Around

variable (h : Around B I) {E : Thrown → Exec cfg S → Prop}
include h

theorem actLater (tid : Tid cfg.net) (step : ActionStep V) :
    Prog.Spec I (actLater B tid step) (fun _ => I) E := by
  refine Prog.Spec.gets_bind fun found => ?_
  cases found with
  | none =>
    exact Prog.Spec.bind ((actionStep_spec h.toHostStable _ true [] step).conseq (fun x hx => hx.1)
      (fun _ _ => id) fun _ _ => id) fun _ x hx => hx
  | some flight =>
    have held : HostStable B.toStoreOps fun x => I x ∧ B.flight? tid x.store = some flight :=
      h.toHostStable.and (HostStable.of_internals fun i => B.flight? tid i.store = some flight)
    refine Prog.Spec.bind (actionStep_spec held _ _ _ step) fun entries x hx => ?_
    exact h.update x tid flight _ hx.1 hx.2 ⟨rfl, rfl, rfl⟩

theorem withFlight (tid : Tid cfg.net) {f : Flight V N → Method cfg S (Flight V N)}
    (change : ∀ flight, Prog.Spec (fun x => I x ∧ B.flight? tid x.store = some flight) (f flight)
      (fun flight' x => (I x ∧ B.flight? tid x.store = some flight) ∧ SameFiring flight flight') E) :
    Prog.Spec I (withFlight B tid f) (fun _ => I) E := by
  refine Prog.Spec.gets_bind fun found => ?_
  cases found with
  | none => exact fun x hx => hx.1
  | some flight =>
    refine Prog.Spec.bind (change flight) fun flight' x hx => ?_
    exact h.update x tid flight flight' hx.1.1 hx.1.2 hx.2

theorem settleAction (tid : Tid cfg.net) (error : Option Thrown) :
    Prog.Spec I (settleAction B tid error) (fun _ => I) E := by
  refine h.withFlight tid fun flight => ?_
  cases flight.status with
  | running | settled _ | delivered => exact fun x hx => ⟨hx, rfl, rfl, rfl⟩

theorem timeOutAction [Value V] (tid : Tid cfg.net) :
    Prog.Spec I (timeOutAction B tid) (fun _ => I) E := by
  refine h.withFlight tid fun flight => ?_
  have same : Prog.Spec (fun x => I x ∧ B.flight? tid x.store = some flight)
      (pure flight : Method cfg S (Flight V N))
      (fun flight' x => (I x ∧ B.flight? tid x.store = some flight) ∧ SameFiring flight flight') E :=
    fun x hx => ⟨hx, rfl, rfl, rfl⟩
  cases flight.status with
  | running =>
    cases (transition tid).actionTimeout with
    | none => exact same
    | some timeout =>
      refine Prog.Spec.gets_bind fun reads => ?_
      refine Prog.Spec.modify_bind (R := fun x => I x ∧ B.flight? tid x.store = some flight) ?_
        fun x hx => ⟨h.epochs x _ hx.1.1, hx.1.2⟩
      have held : HostStable B.toStoreOps fun x => I x ∧ B.flight? tid x.store = some flight :=
        h.toHostStable.and (HostStable.of_internals fun i => B.flight? tid i.store = some flight)
      split
      · exact Prog.Spec.bind (held.emitEvent _) fun _ x hx => ⟨hx, rfl, rfl, rfl⟩
      · exact fun x hx => ⟨hx, rfl, rfl, rfl⟩
  | settled _ => exact same
  | delivered => exact same

/-- A label that is not a step of the loop keeps the phase and the property. -/
theorem perform [Value V] (phase : Phase cfg.net) {label : Label cfg} (moves : label ≠ .tick)
    (delivers : ∀ tid, Prog.Spec I (deliverCompletion B (raceOf phase) tid) (fun _ => I) E) : Prog.Spec I (perform B phase label) (fun phase' x => phase' = phase ∧ I x) E := by
  have stays {m : Method cfg S Unit} (hm : Prog.Spec I m (fun _ => I) E) :
      Prog.Spec I (if yields phase then do m; pure phase else pure phase)
        (fun phase' x => phase' = phase ∧ I x) E := by
    refine Prog.Spec.ite (fun _ => ?_) fun _ x hx => ⟨rfl, hx⟩
    exact Prog.Spec.bind hm fun _ x hx => ⟨rfl, hx⟩
  cases label with
  | tick => exact absurd rfl moves
  | call call => exact stays fun x hx => h.call x call hx
  | act tid step => exact stays (h.actLater tid step)
  | settle tid error => exact stays (h.settleAction tid error)
  | timeOut tid => exact stays (h.timeOutAction tid)
  | deliver tid => exact stays (delivers tid)
  | timer =>
    refine Prog.Spec.ite (fun _ => Prog.Spec.ite (fun _ => ?_) fun _ => ?_) fun _ x hx => ⟨rfl, hx⟩
    · exact Prog.Spec.modify_bind (R := I) (fun x hx => ⟨rfl, hx⟩) fun x hx => h.raceSettled x hx
    · exact fun x hx => ⟨rfl, hx⟩

end Around

namespace Ambient

theorem and (hI : Ambient B I) (hJ : Ambient B J) : Ambient B fun x => I x ∧ J x :=
  { hI.toHostStable.and hJ.toHostStable with
    update := fun x tid flight flight' h held same =>
      ⟨hI.update x tid flight flight' h.1 held same, hJ.update x tid flight flight' h.2 held same⟩
    delivered := fun x tid h held => ⟨hI.delivered x tid h.1 held, hJ.delivered x tid h.2 held⟩
    raceSettled := fun x h => ⟨hI.raceSettled x h.1, hJ.raceSettled x h.2⟩
    epochs := fun x n h => ⟨hI.epochs x n h.1, hJ.epochs x n h.2⟩ }

/-- A property asked for under a condition the state does not decide. -/
theorem imp {p : Prop} (h : Ambient B I) : Ambient B fun x => p → I x :=
  { call := fun x call hx hp => h.call x call (hx hp)
    appended := fun x event hx hp => h.appended x event (hx hp)
    epoch := fun x hx hp => h.epoch x (hx hp)
    update := fun x tid flight flight' hx held same hp => h.update x tid flight flight' (hx hp) held same
    delivered := fun x tid hx held hp => h.delivered x tid (hx hp) held
    raceSettled := fun x hx hp => h.raceSettled x (hx hp)
    epochs := fun x n hx hp => h.epochs x n (hx hp) }

theorem deliverCompletion (h : Ambient B I) {E : Thrown → Exec cfg S → Prop} (lawful : Lawful B.toStoreOps)
    (race : Option (Race cfg.net))
    (tid : Tid cfg.net) : Prog.Spec I (deliverCompletion B race tid) (fun _ => I) E := by
  refine Prog.Spec.gets_bind fun found => ?_
  cases found with
  | none => exact fun x hx => hx.1
  | some flight =>
    cases hstatus : flight.status with
    | running =>
      simp only [hstatus]
      exact fun x hx => hx.1
    | settled error =>
      simp only [hstatus]
      refine Prog.Spec.modify_bind (R := fun x => I x ∧ (B.flight? tid x.store).isSome = true) ?_ ?_
      · rintro x ⟨hx, held⟩
        have woken := h.delivered x tid hx held
        show I { x with io := if race.any fun race => decide (tid ∈ race.flights) then _ else _ }
        split
        · exact h.raceSettled _ woken
        · exact woken
      · rintro x ⟨hx, held⟩
        refine ⟨h.update x tid flight _ hx held ⟨rfl, rfl, rfl⟩, ?_⟩
        show (B.flight? tid (B.update tid _ x.store)).isSome = true
        rw [lawful.flight?_update, if_pos rfl]
        rfl
    | delivered =>
      simp only [hstatus]
      exact fun x hx => hx.1

end Ambient

/-! ## Program points -/

section Phases

variable {B : Backend cfg S} {P R : Exec cfg S → Prop} {Q : Phase cfg.net → Exec cfg S → Prop}
  {E : Thrown → Exec cfg S → Prop}

theorem unlessTerminal_spec {next : Phase cfg.net}
    (h : ∀ x, R x → Q (if x.ctl.terminalReached then .exit else next) x) :
    Prog.Spec R (unlessTerminal next) Q E := by
  refine Prog.Spec.gets_bind fun reached => Prog.Spec.ite (fun exits => ?_) fun goes => ?_
  · rintro x ⟨hx, rfl⟩
    have := h x hx
    rwa [if_pos exits] at this
  · rintro x ⟨hx, rfl⟩
    have := h x hx
    rwa [if_neg goes] at this

/-- The end of a pass over a queue: on to the next entry, or past the pass. -/
theorem pass_spec {i len : Nat} {again next : Phase cfg.net} {f : Io cfg.net → Io cfg.net}
    (more : ∀ x, R x → x.ctl.terminalReached = false → i + 1 < len → Q again x)
    (done : ∀ x, R x → x.ctl.terminalReached = true ∨ len ≤ i + 1 →
      Q (if x.ctl.terminalReached then .exit else next) { x with io := f x.io }) :
    Prog.Spec R (do
      let terminal ← Prog.gets fun x => x.ctl.terminalReached
      if terminal || len ≤ i + 1 then do
        setIo f
        unlessTerminal next
      else pure again) Q E := by
  refine Prog.Spec.gets_bind fun terminal => Prog.Spec.ite (fun ends => ?_) fun goes => ?_
  · simp only [Bool.or_eq_true, decide_eq_true_eq] at ends
    refine Prog.Spec.modify_bind (R := fun x => Q (if x.ctl.terminalReached then .exit else next) x) ?_ ?_
    · exact unlessTerminal_spec fun _ => id
    · rintro x ⟨hx, rfl⟩
      exact done x hx ends
  · simp only [Bool.or_eq_true, decide_eq_true_eq, not_or, Bool.not_eq_true] at goes
    rintro x ⟨hx, rfl⟩
    exact more x hx goes.1 (by omega)

theorem completing_spec {i len : Nat}
    (complete : ∀ tid, Prog.Spec (fun x => P x ∧ x.io.completionQueue[i]? = some tid)
      (completeTransition B tid) (fun _ => R) E)
    (absent : ∀ x, P x → x.io.completionQueue[i]? = none → R x)
    (more : ∀ x, R x → x.ctl.terminalReached = false → i + 1 < len → Q (.completing (i + 1) len) x)
    (done : ∀ x, R x → x.ctl.terminalReached = true ∨ len ≤ i + 1 →
      Q (if x.ctl.terminalReached then .exit else .external)
        { x with io := { x.io with completionQueue := [] } }) :
    Prog.Spec P (executeLoop B (.completing i len)) Q E := by
  refine Prog.Spec.gets_bind fun found => ?_
  cases found with
  | none => exact (pass_spec more done).conseq (fun x h => absent x h.1 h.2) (fun _ _ => id) fun _ _ => id
  | some tid => exact Prog.Spec.bind (complete tid) fun _ => pass_spec more done

theorem admitting_spec {i len : Nat}
    (takes : ∀ event, Prog.Spec (fun x => P x ∧ x.io.externalQueue[i]? = some event)
      (admitEvent B i event) (fun _ => R) E)
    (absent : ∀ x, P x → x.io.externalQueue[i]? = none → R x)
    (more : ∀ x, R x → x.ctl.terminalReached = false → i + 1 < len → Q (.admitting (i + 1) len) x)
    (done : ∀ x, R x → x.ctl.terminalReached = true ∨ len ≤ i + 1 →
      Q (if x.ctl.terminalReached then .exit else .scan) { x with io := dropDeposited x.io }) :
    Prog.Spec P (executeLoop B (.admitting i len)) Q E := by
  refine Prog.Spec.gets_bind fun found => ?_
  cases found with
  | none => exact (pass_spec more done).conseq (fun x h => absent x h.1 h.2) (fun _ _ => id) fun _ _ => id
  | some event => exact Prog.Spec.bind (takes event) fun _ => pass_spec more done

theorem deadlines_spec (read : ∀ x, P x → R { x with io := { x.io with nowReads := x.io.nowReads + 1 } })
    (enforce : ∀ now, Prog.Spec R (enforceDeadlines B now) (fun _ => R) E)
    (exits : ∀ x, R x → shouldTerminate B x = true → Q .exit x)
    (immediate : ∀ x, R x → shouldTerminate B x = false → Q (.firingImmediate (List.finRange _)) x)
    (general : ∀ x now, R x → shouldTerminate B x = false →
      Q (.firingGeneral (readyTransitions B now x.ctl) x.ctl.markingBitmap) x) :
    Prog.Spec P (executeLoop B .deadlines) Q E := by
  refine Prog.Spec.bind (Q := fun _ => R) read fun now => ?_
  have turn : Prog.Spec R (do
      let x ← Prog.gets id
      if shouldTerminate B x then pure .exit
      else if allImmediate cfg && allSamePriority cfg then
        pure (.firingImmediate (List.finRange _))
      else pure (.firingGeneral (readyTransitions B now x.ctl) x.ctl.markingBitmap)) Q E := by
    refine Prog.Spec.gets_bind fun x => Prog.Spec.ite (fun ends => ?_) fun goes => ?_
    · rintro y ⟨hy, rfl⟩
      exact exits y hy ends
    rw [Bool.not_eq_true] at goes
    refine Prog.Spec.ite (fun _ => ?_) fun _ => ?_
    · rintro y ⟨hy, rfl⟩
      exact immediate y hy goes
    · rintro y ⟨hy, rfl⟩
      exact general y now hy goes
  exact Prog.Spec.ite (fun _ => Prog.Spec.bind (enforce now) fun _ => turn) fun _ => turn

end Phases

/-! ## Runs -/

/-- A property of machines, phase by phase, that the loop and everything around it keep along the runs
whose steps meet `Ok`. -/
theorem step_around [Value V] {I : Phase cfg.net → Exec cfg S → Prop} {m : Machine cfg S} (label : Label cfg)
    (around : yields m.phase = true → Around B (I m.phase))
    (delivers : yields m.phase = true → ∀ tid,
      Prog.Spec (I m.phase) (deliverCompletion B (raceOf m.phase) tid) (fun _ => I m.phase)
        fun e => I (.crashed e))
    (tick : label = .tick → Prog.Spec (· = m.exec) (executeLoop B m.phase) I fun e => I (.crashed e))
    (h : I m.phase m.exec) : I (step B m label).phase (step B m label).exec := by
  have kept : Prog.Spec (· = m.exec) (Executor.perform B m.phase label) I fun e => I (.crashed e) := by
    by_cases ticks : label = .tick
    · subst ticks
      exact tick rfl
    by_cases open_ : yields m.phase = true
    · refine ((around open_).perform m.phase ticks (delivers open_)).conseq (by rintro _ rfl; exact h)
        (fun phase x hx => ?_) fun _ _ => id
      rw [hx.1]
      exact hx.2
    · have idle : Executor.perform B m.phase label = pure m.phase := by
        cases label with
        | tick => exact absurd rfl ticks
        | call | act | settle | timeOut | deliver | timer => exact if_neg open_
      rw [idle]
      rintro _ rfl
      exact h
  unfold step
  rcases run : (Executor.perform B m.phase label).run m.exec with ⟨e | phase, x⟩
  · exact kept.of_error rfl run
  · exact kept.of_ok rfl run

theorem step_invariant [Value V] (lawful : Lawful B.toStoreOps) {I : Phase cfg.net → Exec cfg S → Prop}
    (ambient : ∀ phase, yields phase = true → Ambient B (I phase)) {m : Machine cfg S} {label : Label cfg}
    (tick : label = .tick → Prog.Spec (· = m.exec) (executeLoop B m.phase) I fun e => I (.crashed e))
    (h : I m.phase m.exec) : I (step B m label).phase (step B m label).exec :=
  step_around label (fun open_ => (ambient m.phase open_).toAround)
    (fun open_ tid => (ambient m.phase open_).deliverCompletion lawful _ tid) tick h

end LibPetri.Verified

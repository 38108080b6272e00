import LibPetri.Runtime.ExecuteLoop

/-! # Host calls

Wherever an executor appends an event, the host may call back.  `HostStable` collects the properties
no such call can break; every method that emits keeps them through its emissions.  A property of what
the host cannot reach (`internals`) is host stable.
-/

namespace LibPetri.Verified

open LibPetri.Basis LibPetri.Core LibPetri.Runtime CompiledNet Executor

variable {V N : Type} [LinearOrder N] {cfg : Setting V N} {S : Type} {ops : StoreOps cfg S}

/-- Kept by every call of the host, by every append, and by every reading of the epoch clock. -/
structure HostStable (ops : StoreOps cfg S) (I : Exec cfg S → Prop) : Prop where
  call : ∀ x call, I x → I (hostCall ops x call)
  appended : ∀ x event, I x →
    I { x with io := { x.io with appends := x.io.appends + 1 }, history := .appended event :: x.history }
  epoch : ∀ x, I x → I { x with io := { x.io with epochReads := x.io.epochReads + 1 } }

namespace HostStable

variable {I J : Exec cfg S → Prop}

theorem and (hI : HostStable ops I) (hJ : HostStable ops J) : HostStable ops fun x => I x ∧ J x where
  call x c h := ⟨hI.call x c h.1, hJ.call x c h.2⟩
  appended x e h := ⟨hI.appended x e h.1, hJ.appended x e h.2⟩
  epoch x h := ⟨hI.epoch x h.1, hJ.epoch x h.2⟩

theorem or (hI : HostStable ops I) (hJ : HostStable ops J) : HostStable ops fun x => I x ∨ J x where
  call x c h := h.imp (hI.call x c) (hJ.call x c)
  appended x e h := h.imp (hI.appended x e) (hJ.appended x e)
  epoch x h := h.imp (hI.epoch x) (hJ.epoch x)

theorem append (hI : HostStable ops I) {x : Exec cfg S} (event : NetEvent V) (h : I x) :
    I (Executor.append ops event x) := by
  unfold Executor.append
  split
  · exact List.foldlRecOn _ _ (hI.appended x event h) fun y hy call _ => hI.call y call hy
  · exact h

/-- An emission answers, whatever the host does meanwhile. -/
theorem emitEvent (hI : HostStable ops I) (event : Ms → NetEvent V) {E : Thrown → Exec cfg S → Prop} :
    Prog.Spec I (Executor.emitEvent ops event) (fun _ => I) E :=
  Prog.Spec.bind (Q := fun _ => I) (fun x hx => hI.epoch x hx) fun _ _ hx => hI.append _ hx

theorem warn (hI : HostStable ops I) (message transitionName : String)
    {E : Thrown → Exec cfg S → Prop} :
    Prog.Spec I (Executor.warn ops message transitionName) (fun _ => I) E := hI.emitEvent _

theorem emitFailed (hI : HostStable ops I) (transitionName : String) (err : String × String)
    {E : Thrown → Exec cfg S → Prop} :
    Prog.Spec I (Executor.emitFailed ops transitionName err) (fun _ => I) E := hI.emitEvent _

end HostStable

/-! ## What the host cannot reach -/

/-- Written by the executor itself. -/
def internal {net : PetriNet V N} : Effect net → Bool
  | .appended _ | .unregistered _ | .refused _ | .accepted _ | .snapshotTaken _ _
  | .snapshotRefused | .drained | .closed => false
  | _ => true

/-- The part of the state no host call changes. -/
structure Internals (cfg : Setting V N) (S : Type) where
  store : S
  ctl : Control cfg.net
  completionQueue : List (Tid cfg.net)
  externalCursor : Nat
  running : Bool
  nowReads : Nat
  firings : Nat
  effects : List (Effect cfg.net)

def internals (x : Exec cfg S) : Internals cfg S where
  store := x.store
  ctl := x.ctl
  completionQueue := x.io.completionQueue
  externalCursor := x.io.externalCursor
  running := x.io.running
  nowReads := x.io.nowReads
  firings := x.io.firings
  effects := x.history.filter internal

omit [LinearOrder N] in
theorem wakeUp_eq {net : PetriNet V N} (io : Io (V := V) net) : wakeUp io =
    { io with
      raceSettled := io.parkedOnWakeUp || io.raceSettled
      wakeUpPending := !io.parkedOnWakeUp || io.wakeUpPending } := by
  unfold wakeUp
  cases io.parkedOnWakeUp <;> rfl

theorem internals_inject (place : PlaceName) (token : Token V) (x : Exec cfg S) :
    internals (inject place token x) = internals x := by
  unfold inject
  split
  · rfl
  · split
    · rfl
    · simp only [wakeUp_eq]
      rfl

theorem internals_close (x : Exec cfg S) : internals (close x) = internals x := by
  unfold close
  rw [wakeUp_eq]
  rfl

theorem internals_hostCall (ops : StoreOps cfg S) (x : Exec cfg S) (call : HostCall V) :
    internals (hostCall ops x call) = internals x := by
  cases call with
  | inject place token => exact internals_inject _ _ _
  | injectValue place value => exact internals_inject _ _ _
  | injectNoAwait place value =>
    show internals (injectNoAwait place value x) = internals x
    unfold injectNoAwait
    split
    · exact internals_inject _ _ _
    · exact internals_inject _ _ _
  | snapshot =>
    show internals (Executor.snapshot ops x) = internals x
    unfold Executor.snapshot
    split <;> rfl
  | drain =>
    show internals (drain x) = internals x
    unfold drain
    rw [wakeUp_eq]
    rfl
  | close => exact internals_close x
  | expireBudget closing =>
    have stopped : internals (if x.io.reason = .running then
        { x with io := { x.io with reason := .stopped } } else x) = internals x := by
      split <;> rfl
    show internals (expireBudget closing x) = internals x
    unfold expireBudget
    cases closing with
    | true => exact (internals_close _).trans stopped
    | false => exact stopped

/-- A call leaves at most one entry in the history, which is its own. -/
theorem history_hostCall (ops : StoreOps cfg S) (x : Exec cfg S) (call : HostCall V) :
    (hostCall ops x call).history = x.history ∨
      ∃ e, internal e = false ∧ (hostCall ops x call).history = e :: x.history := by
  have injected (place : PlaceName) (token : Token V) (x : Exec cfg S) :
      ∃ e, internal e = false ∧ (inject place token x).history = e :: x.history := by
    unfold inject
    split
    · exact ⟨_, rfl, rfl⟩
    · split <;> exact ⟨_, rfl, rfl⟩
  cases call with
  | inject place token => exact Or.inr (injected _ _ _)
  | injectValue place value => exact Or.inr (injected _ _ _)
  | injectNoAwait place value =>
    show (injectNoAwait place value x).history = _ ∨ ∃ e, _ ∧ (injectNoAwait place value x).history = _
    unfold injectNoAwait
    split <;> exact Or.inr (injected _ _ _)
  | snapshot =>
    show (Executor.snapshot ops x).history = _ ∨ ∃ e, _ ∧ (Executor.snapshot ops x).history = _
    unfold Executor.snapshot
    split <;> exact Or.inr ⟨_, rfl, rfl⟩
  | drain => exact Or.inr ⟨_, rfl, rfl⟩
  | close => exact Or.inr ⟨_, rfl, rfl⟩
  | expireBudget closing =>
    have same : (if x.io.reason = .running then
        { x with io := { x.io with reason := .stopped } } else x).history = x.history := by
      split <;> rfl
    show (expireBudget closing x).history = _ ∨ ∃ e, _ ∧ (expireBudget closing x).history = _
    unfold expireBudget
    cases closing with
    | true => exact Or.inr ⟨_, rfl, congrArg (Effect.closed :: ·) same⟩
    | false => exact Or.inl same

/-- A property of the history that no entry of the host breaks. -/
theorem HostStable.of_history {P : List (Effect cfg.net) → Prop}
    (more : ∀ e history, internal e = false → P history → P (e :: history)) :
    HostStable ops fun x => P x.history where
  call x call h := by
    rcases history_hostCall ops x call with same | ⟨e, outside, added⟩
    · rwa [same]
    · rw [added]
      exact more e _ outside h
  appended x event h := more _ _ rfl h
  epoch _ h := h

theorem HostStable.of_internals (P : Internals cfg S → Prop) :
    HostStable ops fun x => P (internals x) where
  call x call h := by rwa [internals_hostCall]
  appended _ _ h := h
  epoch _ h := h

theorem HostStable.of_respects {I : Exec cfg S → Prop}
    (h : ∀ x y, internals y = internals x → I x → I y) : HostStable ops I where
  call x call := h x _ (internals_hostCall ops x call)
  appended _ _ := h _ _ rfl
  epoch _ := h _ _ rfl

end LibPetri.Verified

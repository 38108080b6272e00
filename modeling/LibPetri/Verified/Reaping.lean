import LibPetri.Verification.Reaping
import LibPetri.Verified.Outside

/-! # What is reaped

Only the deadline pass reaps, and only transitions with a deadline or a window.  Every other operation of an executor
leaves the record of what has been reaped as it is.
-/

namespace LibPetri.Verified

open LibPetri.Basis LibPetri.Core LibPetri.Runtime LibPetri.Verification CompiledNet Executor

variable {V N : Type} [LinearOrder N] {cfg : Setting V N} {S : Type}

def isReap {net : PetriNet V N} : Effect net → Bool
  | .reaped _ => true
  | _ => false

omit [LinearOrder N] in
theorem isReap_of_external {net : PetriNet V N} {e : Effect net} (outside : internal e = false) : isReap e = false := by
  cases e with
  | reaped => cases outside
  | _ => rfl

/-- A property of the history that no effect but a reap breaks. -/
structure Unreaping (P : List (Effect cfg.net) → Prop) : Prop where
  more : ∀ e history, isReap e = false → P history → P (e :: history)

/-- The property holds of the record. -/
abbrev OnRecord (P : List (Effect cfg.net) → Prop) (x : Exec cfg S) : Prop := P x.history

/-- A program keeps a property of the record, however it ends. -/
abbrev Records (P : List (Effect cfg.net) → Prop) {α : Type} (m : Method cfg S α) : Prop :=
  Prog.Spec (OnRecord P) m (fun _ => OnRecord P) fun _ => OnRecord P

/-- The operations an executor implements its own way record no reap. -/
structure Unreaps (B : Backend cfg S) : Prop where
  consume : ∀ {P}, Unreaping P → ∀ tid, Records P (B.consume tid)
  discard : ∀ {P}, Unreaping P → ∀ tid, Records P (B.discard tid)
  validateOutput : ∀ {P}, Unreaping P → ∀ tid flight, Records P (B.validateOutput tid flight)
  produceToken : ∀ {P}, Unreaping P → ∀ p token name, Records P (B.produceToken p token name)

namespace Unreaping

variable {B : Backend cfg S} {P : List (Effect cfg.net) → Prop} (h : Unreaping P)
include h

theorem hostStable {ops : StoreOps cfg S} : HostStable ops (OnRecord P : Exec cfg S → Prop) :=
  HostStable.of_history fun e history outside => h.more e history (isReap_of_external outside)

theorem emitEvent {ops : StoreOps cfg S} (event : Ms → NetEvent V) : Records P (emitEvent ops event) :=
  h.hostStable.emitEvent event

theorem record {e : Effect cfg.net} (other : isReap e = false) : Records (S := S) P (record e) :=
  fun x hx => h.more e x.history other hx

omit h in
theorem setCtl (f : Control cfg.net → Control cfg.net) : Records (S := S) P (setCtl f) := fun _ hx => hx

omit h in
theorem clock : Records (S := S) P (nowMs : Method cfg S Ms) := fun _ hx => hx

omit h in
theorem markDirty (pid : Nat) : Records (S := S) P (markDirty pid) := Prog.Spec.each fun _ _ => setCtl _

omit h in
theorem cacheAddToken (pid : Nat) (token : Token V) : Records (S := S) P (cacheAddToken pid token) := by
  refine Prog.Spec.each fun target _ => Prog.Spec.gets_bind fun cache => ?_
  cases cache with
  | none => exact fun x hx => hx.1
  | some cache =>
    cases (transition target.1).matchSpec.bind fun ms => ms.keys[target.2]? with
    | none => exact fun x hx => hx.1
    | some mk =>
      refine Prog.Spec.lift_bind (fun name _ => ?_) fun e _ x hx => hx.1
      cases name with
      | none => exact fun x hx => hx.1
      | some name => exact fun x hx => hx.1

omit h in
theorem checkEnabled (tid : Tid cfg.net) (snap : Bitset (placeCount cfg.net)) : Records P (checkEnabled B tid snap) :=
  Aloof.checkEnabled (fun _ _ hx => hx) tid snap

theorem scan : Records P (updateDirtyTransitions B) := by
  refine Prog.Spec.bind clock fun now => ?_
  refine Prog.Spec.gets_bind fun snap => Prog.Spec.gets_bind fun dirty => ?_
  refine Prog.Spec.modify_bind (R := OnRecord P) ?_ fun x hx => hx.1.1
  refine Prog.Spec.bind (Prog.Spec.each fun tid _ => ?_) fun _ => ?_
  · refine Prog.Spec.gets_bind fun inFlight => Prog.Spec.ite (fun _ x hx => hx.1) fun _ => ?_
    refine Prog.Spec.gets_bind fun was => ?_
    refine Prog.Spec.bind ((checkEnabled tid snap).conseq (fun x hx => hx.1.1) (fun _ _ => id) fun _ _ => id)
      fun can => Prog.Spec.gets_bind fun restart => ?_
    refine Prog.Spec.ite (fun _ => ?_) fun _ => Prog.Spec.ite (fun _ x hx => hx.1) fun _ =>
      Prog.Spec.ite (fun _ => ?_) fun _ x hx => hx.1
    · exact Prog.Spec.modify_bind (h.emitEvent _) fun x hx => hx.1
    · exact Prog.Spec.modify_bind (h.emitEvent _) fun x hx => hx.1
  · exact Prog.Spec.gets_bind fun pending => Prog.Spec.ite (fun _ x hx => hx.1) fun _ x hx => hx.1

omit h in
theorem updateBitmapAfterConsumption (tid : Tid cfg.net) : Records P (updateBitmapAfterConsumption B tid) := by
  refine Prog.Spec.each fun pid _ => Prog.Spec.gets_bind fun left => ?_
  have rest : Records P (do
      Executor.markDirty pid
      if (left : WithTop Nat) < restartThreshold cfg.net pid then flagIntermediateDisablements B tid pid
      else pure ()) := by
    refine Prog.Spec.bind (markDirty pid) fun _ => Prog.Spec.ite (fun _ => ?_) fun _ x hx => hx
    refine Prog.Spec.each fun other _ => Prog.Spec.gets_bind fun c => Prog.Spec.ite (fun _ x hx => hx.1) fun _ => ?_
    refine Prog.Spec.bind ((checkEnabled other _).conseq (fun x hx => hx.1) (fun _ _ => id) fun _ _ => id)
      fun stays => ?_
    exact Prog.Spec.ite (fun _ x hx => hx) fun _ => setCtl _
  refine Prog.Spec.ite (fun _ => ?_) fun _ => ?_
  · exact Prog.Spec.modify_bind rest fun x hx => hx.1
  · exact rest.conseq (fun x hx => hx.1) (fun _ _ => id) fun _ _ => id

variable (unreaps : Unreaps B)
include unreaps

theorem fireTransition (tid : Tid cfg.net) : Records P (fireTransition B tid) := by
  refine Prog.Spec.bind (h.record rfl) fun _ => Prog.Spec.bind (unreaps.consume h tid) fun c => ?_
  refine Prog.Spec.bind (updateBitmapAfterConsumption tid) fun _ => ?_
  refine Prog.Spec.bind (h.emitEvent _) fun _ => Prog.Spec.gets_bind fun start => ?_
  refine Prog.Spec.modify_bind (R := OnRecord P) ?_ fun x hx => hx.1
  have rest : Records P (do
      let entries ← executeAction B.toStoreOps (transition tid) start.syncSteps []
      let startMs ← nowMs
      launch B tid
        { inputs := c.inputs, entries := entries, detached := false, consumed := c.consumed
          startMs := startMs, status := .running, error := none, matchedName := c.matchedName }) := by
    refine Prog.Spec.bind (executeAction_spec h.hostStable _ _ _) fun entries => ?_
    exact Prog.Spec.bind clock fun startMs x hx => h.more _ _ rfl hx
  cases start.provider with
  | some e => exact fun x hx => hx
  | none => exact rest

theorem fireTransitionContained (tid : Tid cfg.net) : Records P (fireTransitionContained B tid) := by
  refine Prog.Spec.bind (setCtl _) fun _ => Prog.Spec.tryCatch (E := fun _ => OnRecord P) ?_ fun e => ?_
  · exact Prog.Spec.bind (h.fireTransition unreaps tid) fun _ => setCtl _
  refine Prog.Spec.bind (setCtl _) fun _ => Prog.Spec.bind (h.record rfl) fun _ => ?_
  have rest : Records P (do
      B.discard tid
      Executor.updateBitmapAfterConsumption B tid
      Executor.setCtl fun c => { c with matchCaches := Function.update c.matchCaches tid none }
      let err ← Prog.lift (asError e)
      emitFailed B.toStoreOps (transition tid).name err
      markTransitionDirty tid) := by
    refine Prog.Spec.bind (unreaps.discard h tid) fun _ => ?_
    refine Prog.Spec.bind (updateBitmapAfterConsumption tid) fun _ => Prog.Spec.bind (setCtl _) fun _ => ?_
    refine Prog.Spec.lift_bind (fun err _ => ?_) fun _ _ x hx => hx
    exact Prog.Spec.bind (h.emitEvent _) fun _ => setCtl _
  refine Prog.Spec.gets_bind fun flag => Prog.Spec.ite (fun _ => ?_) fun _ => ?_
  · exact Prog.Spec.modify_bind rest fun x hx => hx.1
  · exact rest.conseq (fun x hx => hx.1) (fun _ _ => id) fun _ _ => id

theorem completeTransition (tid : Tid cfg.net) : Records P (completeTransition B tid) := by
  refine Prog.Spec.gets_bind fun found => ?_
  cases found with
  | none => exact fun x hx => hx.1
  | some flight =>
    have fails (e : Thrown) : Records P (failCompletion B tid e) := by
      refine Prog.Spec.bind (h.record rfl) fun _ => Prog.Spec.lift_bind (fun err _ => ?_) fun _ _ x hx => hx
      exact Prog.Spec.bind (h.emitEvent _) fun _ => setCtl _
    refine Prog.Spec.modify_bind (R := OnRecord P) ?_ fun x hx => h.more _ _ rfl hx.1
    refine Prog.Spec.modify_bind (R := OnRecord P) ?_ fun x hx => hx
    refine Prog.Spec.bind (setCtl _) fun _ => ?_
    cases flight.error.filter Thrown.truthy with
    | some e => exact fails e
    | none =>
      refine Prog.Spec.bind (setCtl _) fun _ => Prog.Spec.tryCatch (E := fun _ => OnRecord P) ?_ fun e => ?_
      · refine Prog.Spec.bind (unreaps.validateOutput h tid flight) fun _ => ?_
        refine Prog.Spec.bind (Prog.Spec.each fun entry _ =>
          Prog.Spec.bind (unreaps.produceToken h _ _ _) fun _ => h.emitEvent _) fun _ => ?_
        refine Prog.Spec.bind (setCtl _) fun _ => Prog.Spec.bind (setCtl _) fun _ => ?_
        refine Prog.Spec.bind (h.record rfl) fun _ => ?_
        exact Prog.Spec.bind clock fun _ => h.emitEvent _
      · exact Prog.Spec.bind (setCtl _) fun _ => fails e

theorem admitEvent (i : Nat) (event : ExternalEvent V) : Records P (admitEvent B i event) := by
  refine Prog.Spec.modify_bind (R := OnRecord P) ?_ fun x hx => hx
  refine Prog.Spec.bind (h.record rfl) fun _ => Prog.Spec.tryCatch (E := fun _ => OnRecord P) ?_ fun e => ?_
  · refine Prog.Spec.bind (unreaps.produceToken h _ _ _) fun _ => ?_
    exact Prog.Spec.bind (h.emitEvent _) fun _ => h.record rfl
  · exact Prog.Spec.lift_bind (fun _ _ => h.record rfl) fun _ _ x hx => hx

omit unreaps in
theorem finishLoop : Records P (finishLoop B) := by
  refine Prog.Spec.modify_bind (R := OnRecord P) ?_ fun x hx => hx
  refine Prog.Spec.bind (Q := fun _ => OnRecord P) ?_ fun _ => ?_
  · refine Prog.Spec.gets_bind fun pending => Prog.Spec.modify_bind (R := OnRecord P) ?_ fun x hx => hx.1
    exact Prog.Spec.each fun event _ => h.record rfl
  refine Prog.Spec.modify_bind (R := OnRecord P) ?_ fun x hx => hx
  refine Prog.Spec.gets_bind fun marking => ?_
  refine Prog.Spec.bind ((h.emitEvent _).conseq (fun x hx => hx.1) (fun _ _ => id) fun _ _ => id) fun _ => ?_
  refine Prog.Spec.bind clock fun now => Prog.Spec.gets_bind fun startMs => ?_
  refine Prog.Spec.bind ((h.emitEvent _).conseq (fun x hx => hx.1) (fun _ _ => id) fun _ _ => id) fun _ => ?_
  exact h.record rfl

omit unreaps h in
theorem parkOrResume : Records P (parkOrResume B) := by
  refine Prog.Spec.gets_bind fun x => Prog.Spec.ite (fun _ => ?_) fun _ => ?_
  · exact Prog.Spec.modify_bind (R := OnRecord P) (fun y hy => hy) fun y hy => hy.1
  refine Prog.Spec.ite (fun _ y hy => hy.1) fun _ => Prog.Spec.ite (fun _ y hy => hy.1) fun _ => ?_
  refine Prog.Spec.ite (fun _ => ?_) fun _ => ?_
  · exact Prog.Spec.modify_bind (R := OnRecord P) (fun y hy => hy) fun y hy => hy.1
  refine Prog.Spec.bind (clock.conseq (fun y hy => hy.1) (fun _ _ => id) fun _ _ => id) fun now => ?_
  refine Prog.Spec.ite (fun _ y hy => hy) fun _ => ?_
  exact Prog.Spec.modify_bind (R := OnRecord P) (fun y hy => hy) fun y hy => hy

/-- The loop records reaps in its deadline pass alone. -/
theorem executeLoop (deadlines : ∀ now, Records P (enforceDeadlines B now)) (phase : Phase cfg.net) :
    Records P (executeLoop B phase) := by
  have done {next : Phase cfg.net} : Records (S := S) P (unlessTerminal next) := unlessTerminal_spec fun _ => id
  cases phase with
  | created =>
    refine Prog.Spec.bind (Q := fun _ => OnRecord P) ?_ fun _ x hx => hx
    refine Prog.Spec.modify_bind (R := OnRecord P) ?_ fun x hx => hx
    refine Prog.Spec.bind (h.emitEvent _) fun _ => ?_
    refine Prog.Spec.modify_bind (R := OnRecord P) ?_ fun x hx => hx
    exact Prog.Spec.gets_bind fun marking =>
      (h.emitEvent _).conseq (fun x hx => hx.1) (fun _ _ => id) fun _ _ => id
  | head =>
    refine Prog.Spec.gets_bind fun x => Prog.Spec.ite (fun _ => ?_) fun _ y hy => hy.1
    exact Prog.Spec.ite (fun _ y hy => hy.1) fun _ y hy => hy.1
  | completing i len =>
    refine completing_spec (R := OnRecord P) (fun tid => ?_) (fun _ hx _ => hx) (fun _ hx _ _ => hx)
      fun _ hx _ => hx
    exact (h.completeTransition unreaps tid).conseq (fun x hx => hx.1) (fun _ _ => id) fun _ _ => id
  | «external» =>
    refine Prog.Spec.gets_bind fun x => Prog.Spec.ite (fun _ => ?_) fun _ y hy => hy.1
    exact done.conseq (fun y hy => hy.1) (fun _ _ => id) fun _ _ => id
  | admitting i len =>
    refine admitting_spec (R := OnRecord P) (fun event => ?_) (fun _ hx _ => hx) (fun _ hx _ _ => hx)
      fun _ hx _ => hx
    exact (h.admitEvent unreaps i event).conseq (fun x hx => hx.1) (fun _ _ => id) fun _ _ => id
  | scan => exact Prog.Spec.bind h.scan fun _ x hx => hx
  | deadlines =>
    exact deadlines_spec (R := OnRecord P) (fun _ hx => hx) deadlines (fun _ hx _ => hx)
      (fun _ hx _ => hx) fun _ _ hx _ => hx
  | firingImmediate rest =>
    cases rest with
    | nil => exact fun x hx => hx
    | cons tid rest =>
      refine Prog.Spec.bind (Q := fun _ => OnRecord P) ?_ fun _ x hx => hx
      refine Prog.Spec.gets_bind fun c => Prog.Spec.ite (fun _ x hx => hx.1) fun _ => ?_
      refine Prog.Spec.bind ((checkEnabled tid _).conseq (fun x hx => hx.1) (fun _ _ => id) fun _ _ => id) fun fires => ?_
      exact Prog.Spec.ite (fun _ => h.fireTransitionContained unreaps tid) fun _ => setCtl _
  | firingGeneral rest snap =>
    cases rest with
    | nil => exact fun x hx => hx
    | cons tid rest =>
      refine Prog.Spec.bind (Q := fun _ => OnRecord P) ?_ fun _ x hx => hx
      refine Prog.Spec.gets_bind fun on => Prog.Spec.ite (fun _ => ?_) fun _ x hx => hx.1
      refine Prog.Spec.bind ((checkEnabled tid _).conseq (fun x hx => hx.1) (fun _ _ => id) fun _ _ => id) fun fires => ?_
      refine Prog.Spec.ite (fun _ => ?_) fun _ x hx => hx
      exact Prog.Spec.bind (h.fireTransitionContained unreaps tid) fun _ x hx => hx
  | fired =>
    refine Prog.Spec.gets_bind fun x => Prog.Spec.ite (fun _ y hy => hy.1) fun _ => ?_
    exact Prog.Spec.ite (fun _ y hy => hy.1) fun _ y hy => hy.1
  | flush => exact parkOrResume
  | parked race =>
    refine Prog.Spec.gets_bind fun settled => Prog.Spec.ite (fun _ => ?_) fun _ y hy => hy.1
    exact Prog.Spec.modify_bind (R := OnRecord P) (fun y hy => hy) fun y hy => hy.1
  | resuming => exact fun x hx => hx
  | exit => exact Prog.Spec.bind h.finishLoop fun _ x hx => hx
  | ended => exact fun x hx => hx
  | crashed e => exact fun _ hx => hx

end Unreaping

/-! ## The two executors -/

section Executors

variable {B : Backend cfg S} {P : List (Effect cfg.net) → Prop} {tid : Tid cfg.net}

theorem Unreaping.consuming (h : Unreaping P) (tid : Tid cfg.net) :
    Consuming B.toStoreOps tid (OnRecord P) (fun _ => OnRecord P) fun _ => OnRecord P where
  stable _ := h.hostStable
  first spec _ c x hx := by
    rcases B.removeFirst spec.place x.store with ⟨_ | token, s⟩
    · exact hx
    · exact h.more _ _ rfl hx
  matching spec _ key _ name c x hx := by
    rcases B.removeFirstMatching spec.place (named key name) x.store with ⟨e | _ | ⟨index, token⟩, s⟩
    · exact hx
    · exact hx
    · exact h.more _ _ rfl hx
  counting _ _ _ _ _ _ _ hx _ := hx
  reset p _ c x hx := h.more _ _ rfl hx
  unmatched _ hx := hx
  matched _ _ hx _ := hx
  unbound _ _ hx _ := hx
  reads _ _ _ hx := hx
  dry _ _ _ hx := hx

theorem Conforms.unreaps {verdict : Tid cfg.net → Flight V N → Except Thrown Unit} (conforms : Conforms B verdict)
    (discard : ∀ {P}, Unreaping P → ∀ tid, Records P (B.discard tid))
    (produceToken : ∀ {P}, Unreaping P → ∀ p token name, Records P (B.produceToken p token name)) : Unreaps B where
  consume h tid := conforms.consume tid (h.consuming tid)
  discard := discard
  validateOutput h tid flight :=
    (conforms.validates tid flight h.hostStable (fun _ _ hx => hx) fun _ _ hx _ => hx).conseq (fun _ => id)
      (fun _ _ hx => hx.2) fun _ _ => id
  produceToken := produceToken

/-- The tail of a deposit: the bit, the dirty set, the terminal flag. -/
theorem Unreaping.marks (pid : Nat) :
    Records P (do
      Executor.setCtl fun c => { c with markingBitmap := c.markingBitmap.setBit pid }
      Executor.markDirty pid
      if terminalFlag cfg.net pid then Executor.setCtl fun c => { c with terminalReached := true }
      else pure () : Method cfg S Unit) := by
  refine Prog.Spec.bind (setCtl _) fun _ => Prog.Spec.bind (markDirty pid) fun _ => ?_
  exact Prog.Spec.ite (fun _ => setCtl _) fun _ x hx => hx

variable [Value V] [ToString N]

namespace BitmapNetExecutor

open LibPetri.Runtime.BitmapNetExecutor

theorem unreaps : Unreaps (backend cfg) := by
  refine conforms.unreaps (fun {P} h tid => ?_) fun {P} h p token name => ?_
  · refine Prog.Spec.gets_bind fun found => ?_
    cases found with
    | none => exact fun x hx => hx.1
    | some _ => exact Prog.Spec.modify_bind (Unreaping.setCtl _) fun x hx => hx.1
  · refine Prog.Spec.modify_bind (R := OnRecord P) ?_ fun x hx => hx
    refine Prog.Spec.bind (h.record rfl) fun _ => ?_
    cases tryPlaceId cfg.net p with
    | some pid => exact Prog.Spec.bind (Unreaping.cacheAddToken pid token) fun _ => Unreaping.marks pid
    | none =>
      refine Prog.Spec.gets_bind fun warned => Prog.Spec.ite (fun _ x hx => hx.1) fun _ => ?_
      exact Prog.Spec.modify_bind (h.emitEvent _) fun x hx => hx.1

end BitmapNetExecutor

namespace PrecompiledNetExecutor

open LibPetri.Runtime.PrecompiledNetExecutor

theorem unreaps : Unreaps (backend cfg) := by
  refine conforms.unreaps (fun {P} h tid => ?_) fun {P} h p token name => ?_
  · refine Prog.Spec.gets_bind fun found => Prog.Spec.ite (fun _ => ?_) fun _ x hx => hx.1
    exact Prog.Spec.modify_bind (Unreaping.setCtl _) fun x hx => hx.1
  · show Records P (produceToken p token name)
    unfold produceToken
    cases tryPlaceId cfg.net p with
    | some pid =>
      refine Prog.Spec.bind (Unreaping.cacheAddToken pid token) fun _ => ?_
      refine Prog.Spec.modify_bind (R := OnRecord P) ?_ fun x hx => hx
      exact Prog.Spec.bind (h.record rfl) fun _ => Unreaping.marks pid
    | none =>
      refine Prog.Spec.gets_bind fun retained => Prog.Spec.modify_bind (R := OnRecord P) ?_ fun x hx => hx.1
      refine Prog.Spec.bind (h.record rfl) fun _ => ?_
      exact Prog.Spec.ite (fun _ x hx => hx) fun _ => h.emitEvent _

end PrecompiledNetExecutor

end Executors

/-! ## Along a run -/

section Runs

variable {B : Backend cfg S} {x : Exec cfg S} {history : List (Effect cfg.net)} {tid : Tid cfg.net}

/-- Whatever has been reaped can be. -/
def ReapsFairly {net : PetriNet V N} (history : List (Effect net)) : Prop :=
  ∀ tid, .reaped tid ∈ history → isReapable (transition tid).timing = true

omit [LinearOrder N] in
theorem ReapsFairly.cons {e : Effect cfg.net} (h : ReapsFairly history)
    (fair : ∀ tid, e = .reaped tid → isReapable (transition tid).timing = true) : ReapsFairly (e :: history) := by
  intro tid mem
  rcases List.mem_cons.mp mem with now | earlier
  · exact fair tid now.symm
  · exact h tid earlier

omit [LinearOrder N] in
theorem unreaping_reapsFairly : Unreaping (ReapsFairly : List (Effect cfg.net) → Prop) where
  more e history other h := h.cons fun tid same => by
    rw [same] at other
    cases other

omit [LinearOrder N] in
theorem Reaped.mem (h : Reaped tid history) : .reaped tid ∈ history := by
  induction history with
  | nil => exact h.elim
  | cons e older ih =>
    rcases h with rfl | ⟨-, h⟩
    · exact List.mem_cons_self
    · exact List.mem_cons_of_mem _ (ih h)

/-- The deadline pass reaps a transition whose bound can pass. -/
theorem enforceDeadlines_reapsFairly (now : Ms) : Records ReapsFairly (enforceDeadlines B now) := by
  refine Prog.Spec.each fun tid _ => Prog.Spec.gets_bind fun c => Prog.Spec.ite (fun overdue => ?_) fun _ x hx => hx.1
  simp only [Bool.and_eq_true] at overdue
  refine Prog.Spec.modify_bind (R := OnRecord ReapsFairly) ?_ fun x hx => hx.1
  refine Prog.Spec.modify_bind (unreaping_reapsFairly.emitEvent _) fun x hx => hx.cons fun other same => ?_
  cases same
  rw [isReapable_eq, Bool.and_eq_true]
  exact ⟨overdue.1.1.1.1, overdue.1.1.1.2⟩

theorem onRecord_ambient {P : List (Effect cfg.net) → Prop} (h : Unreaping P) : Ambient B (OnRecord P) :=
  { h.hostStable with
    update := fun _ _ _ _ hx _ _ => hx
    delivered := fun _ _ hx _ => hx
    raceSettled := fun _ hx => hx
    epochs := fun _ _ hx => hx }

omit [LinearOrder N] in
theorem reapsFairly_seeds {events : List (NetEvent V)} {tokens : List (PlaceName × List (Token V))} :
    ReapsFairly (events.map Effect.appended ++
      (tokens.flatMap fun e => e.2.map fun token => (Effect.seeded e.1 token : Effect cfg.net)).reverse) := by
  intro tid mem
  rcases List.mem_append.mp mem with mem | mem
  · obtain ⟨_, -, same⟩ := List.mem_map.mp mem
    cases same
  · obtain ⟨_, -, mem⟩ := List.mem_flatMap.mp (List.mem_reverse.mp mem)
    obtain ⟨_, -, same⟩ := List.mem_map.mp mem
    cases same

theorem reapsFairly_of_reachable [Value V] (lawful : Lawful B.toStoreOps) (unreaps : Unreaps B)
    {new : Except Thrown (Exec cfg S)} (built : ∀ x, new = .ok x → Built B x)
    {Ok : Machine cfg S → Label cfg → Prop} {m : Machine cfg S} (run : ReachableBy B new Ok m) :
    ReapsFairly m.exec.history := by
  refine run.invariant (I := fun m => ReapsFairly m.exec.history) (fun x made => ?_) fun m label h _ => ?_
  · obtain ⟨events, history⟩ := (built x made).history
    show ReapsFairly x.history
    rw [history]
    exact reapsFairly_seeds
  · refine step_invariant lawful (I := fun _ => OnRecord ReapsFairly)
      (fun _ _ => onRecord_ambient unreaping_reapsFairly) (fun _ => ?_) h
    exact (unreaping_reapsFairly.executeLoop unreaps enforceDeadlines_reapsFairly m.phase).conseq
      (by rintro _ rfl; exact h) (fun _ _ => id) fun _ _ => id

end Runs

end LibPetri.Verified

import LibPetri.Verified.CoherentRuns

/-! # Invariants of the tokens

An invariant about tokens, flights, caches or history ignores the bookkeeping of enablement (`Aloof`),
so the scan, the deadlines and the update of the bits keep it for free.  What is left to check, firing
by firing and deposit by deposit, is collected by the rules of this module, and `Steady` carries it
along runs.
-/

namespace LibPetri.Verified

open LibPetri.Basis LibPetri.Core LibPetri.Runtime CompiledNet Executor

variable {V N : Type} [LinearOrder N] {cfg : Setting V N} {S : Type}

structure Aloof (B : Backend cfg S) (I : Exec cfg S → Prop) : Prop extends HostStable B.toStoreOps I where
  bookkeeping : ∀ x (c : Control cfg.net), c.matchCaches = x.ctl.matchCaches →
    c.terminalReached = x.ctl.terminalReached → c.unsettled = x.ctl.unsettled → I x → I { x with ctl := c }
  clock : ∀ x n, I x → I { x with io := { x.io with nowReads := n } }
  starts : ∀ x n, I x → I { x with io := { x.io with firings := n } }
  reaped : ∀ x tid, I x → I (recorded (.reaped tid) x)

namespace Aloof

variable {B : Backend cfg S} {I J : Exec cfg S → Prop}

theorem and (hI : Aloof B I) (hJ : Aloof B J) : Aloof B fun x => I x ∧ J x :=
  { hI.toHostStable.and hJ.toHostStable with
    bookkeeping := fun x c caches terminal unsettled h =>
      ⟨hI.bookkeeping x c caches terminal unsettled h.1, hJ.bookkeeping x c caches terminal unsettled h.2⟩
    clock := fun x n h => ⟨hI.clock x n h.1, hJ.clock x n h.2⟩
    starts := fun x n h => ⟨hI.starts x n h.1, hJ.starts x n h.2⟩
    reaped := fun x tid h => ⟨hI.reaped x tid h.1, hJ.reaped x tid h.2⟩ }

variable (h : Aloof B I) {E : Thrown → Exec cfg S → Prop}
include h

theorem control {f : Control cfg.net → Control cfg.net} (caches : ∀ c, (f c).matchCaches = c.matchCaches)
    (terminal : ∀ c, (f c).terminalReached = c.terminalReached) (unsettled : ∀ c, (f c).unsettled = c.unsettled) :
    Prog.Spec I (setCtl f : Method cfg S Unit) (fun _ => I) E :=
  fun x hx => h.bookkeeping x _ (caches _) (terminal _) (unsettled _) hx

theorem nowMs : Prog.Spec I (nowMs : Method cfg S Ms) (fun _ => I) E := fun x hx => h.clock x _ hx

theorem markDirty (pid : Nat) : Prog.Spec I (markDirty pid : Method cfg S Unit) (fun _ => I) E :=
  Prog.Spec.each fun _ _ => h.control (fun _ => rfl) (fun _ => rfl) fun _ => rfl

variable (throws : ∀ e x, I x → E e x)
include throws

omit h in
theorem checkEnabled (tid : Tid cfg.net) (snap : Bitset (placeCount cfg.net)) :
    Prog.Spec I (checkEnabled B tid snap) (fun _ => I) E := by
  intro x hx
  have run : (Executor.checkEnabled B tid snap).run x = (canEnable B tid snap x, x) := rfl
  rw [run]
  cases canEnable B tid snap x with
  | ok _ => exact hx
  | error e => exact throws e x hx

theorem scanTransition (now : Ms) (snap : Bitset (placeCount cfg.net)) (tid : Tid cfg.net) :
    Prog.Spec I (scanTransition B now snap tid) (fun _ => I) E := by
  refine Prog.Spec.gets_bind fun inFlight => Prog.Spec.ite (fun _ x hx => hx.1) fun _ => ?_
  refine Prog.Spec.gets_bind fun was => ?_
  refine Prog.Spec.bind ((checkEnabled throws tid snap).conseq (fun x hx => hx.1.1) (fun _ _ => id)
    fun _ _ => id) fun can => Prog.Spec.gets_bind fun restart => ?_
  refine Prog.Spec.ite (fun _ => ?_) fun _ => Prog.Spec.ite (fun _ => ?_) fun _ => Prog.Spec.ite (fun _ => ?_)
    fun _ x hx => hx.1
  · exact Prog.Spec.modify_bind (h.emitEvent _) fun x hx => h.bookkeeping x _ rfl rfl rfl hx.1
  · exact fun x hx => h.bookkeeping x _ rfl rfl rfl hx.1
  · exact Prog.Spec.modify_bind (h.emitEvent _) fun x hx => h.bookkeeping x _ rfl rfl rfl hx.1

theorem updateDirtyTransitions : Prog.Spec I (updateDirtyTransitions B) (fun _ => I) E := by
  refine Prog.Spec.bind h.nowMs fun now => Prog.Spec.gets_bind fun snap => Prog.Spec.gets_bind fun dirty => ?_
  refine Prog.Spec.modify_bind (R := I) ?_ fun x hx => h.bookkeeping x _ rfl rfl rfl hx.1.1
  refine Prog.Spec.bind (Prog.Spec.each fun tid _ => h.scanTransition throws now snap tid) fun _ => ?_
  refine Prog.Spec.gets_bind fun pending => Prog.Spec.ite (fun _ x hx => ?_) fun _ x hx => hx.1
  exact h.bookkeeping x _ rfl rfl rfl hx.1

omit throws in
theorem enforceDeadlines (now : Ms) : Prog.Spec I (enforceDeadlines B now) (fun _ => I) E := by
  refine Prog.Spec.each fun tid _ => Prog.Spec.gets_bind fun c => Prog.Spec.ite (fun _ => ?_) fun _ x hx => hx.1
  refine Prog.Spec.modify_bind (R := I) ?_ fun x hx => h.bookkeeping x _ rfl rfl rfl hx.1
  exact Prog.Spec.modify_bind (h.emitEvent _) fun x hx => h.reaped x tid hx

theorem flagIntermediateDisablements (tid : Tid cfg.net) (pid : Nat) :
    Prog.Spec I (flagIntermediateDisablements B tid pid) (fun _ => I) E := by
  refine Prog.Spec.each fun other _ => Prog.Spec.gets_bind fun c =>
    Prog.Spec.ite (fun _ x hx => hx.1) fun _ => ?_
  refine Prog.Spec.bind ((checkEnabled throws other _).conseq (fun x hx => hx.1) (fun _ _ => id)
    fun _ _ => id) fun stays => Prog.Spec.ite (fun _ x hx => hx) fun _ x hx => ?_
  exact h.bookkeeping x _ rfl rfl rfl hx

theorem updateBitmapAfterConsumption (tid : Tid cfg.net) :
    Prog.Spec I (updateBitmapAfterConsumption B tid) (fun _ => I) E := by
  refine Prog.Spec.each fun pid _ => Prog.Spec.gets_bind fun left => ?_
  have marks : Prog.Spec I (do
      Executor.markDirty pid
      if (left : WithTop Nat) < restartThreshold cfg.net pid then
        Executor.flagIntermediateDisablements B tid pid
      else pure ()) (fun _ => I) E := by
    refine Prog.Spec.bind (h.markDirty pid) fun _ => ?_
    exact Prog.Spec.ite (fun _ => h.flagIntermediateDisablements throws tid pid) fun _ x hx => hx
  refine Prog.Spec.ite (fun _ => ?_) fun _ => marks.conseq (fun x hx => hx.1) (fun _ _ => id) fun _ _ => id
  exact Prog.Spec.modify_bind marks fun x hx => h.bookkeeping x _ rfl rfl rfl hx.1

end Aloof

/-! ## Firings -/

variable {B : Backend cfg S} {verdict : Tid cfg.net → Flight V N → Except Thrown Unit}
  {tid : Tid cfg.net} {x₀ : Exec cfg S}

/-- The state with the flag of a firing, completion or admission in progress. -/
def unsettled (on : Bool) (x : Exec cfg S) : Exec cfg S :=
  { x with ctl := { x.ctl with unsettled := on } }

/-- The state once a firing is registered. -/
def launchedAt (B : Backend cfg S) (tid : Tid cfg.net) (flight : Flight V N) (x : Exec cfg S) : Exec cfg S :=
  recorded (.launched tid flight.inputs flight.consumed flight.matchedName) { x with
    store := B.register tid flight x.store
    ctl := disable tid { x.ctl with inFlightFlags := Function.update x.ctl.inFlightFlags tid true } }

/-- A flight as a firing starts it on what it has consumed. -/
structure Starts (c : Consumption V N) (flight : Flight V N) : Prop where
  inputs : flight.inputs = c.inputs
  consumed : flight.consumed = c.consumed
  matchedName : flight.matchedName = c.matchedName

/-- What is left to check of a firing from `x₀`: `I` from consumption to launch, `E` where it throws,
`R` while the throw is contained, `Q` after, `X` where even containment throws. -/
structure FiringRule (B : Backend cfg S) (tid : Tid cfg.net) (x₀ : Exec cfg S)
    (Start : Exec cfg S → Prop) (I : Consumption V N → Exec cfg S → Prop)
    (E : Thrown → Exec cfg S → Prop) (R Q X : Exec cfg S → Prop) : Prop where
  consuming : Consuming B.toStoreOps tid Start I E
  start : Start (recorded (.began tid) (unsettled true x₀))
  aloof : ∀ c, Aloof B (I c)
  throws : ∀ c e x, I c x → E e x
  launches : ∀ c flight x, I c x → B.flight? tid x.store = none → Starts c flight →
    Q (unsettled false (launchedAt B tid flight x))
  contains : ∀ e x, E e x → R (recorded (.aborted tid) (unsettled false x))
  aloofR : Aloof B R
  forgets : ∀ x, R x → Q { x with ctl := { x.ctl with
    matchCaches := Function.update x.ctl.matchCaches tid none } }
  aloofQ : Aloof B Q
  crashes : ∀ x, R x ∨ Q x → X x

/-- The same where the consumption stage is specified as a whole. -/
structure StagedFiring (B : Backend cfg S) (tid : Tid cfg.net) (x₀ : Exec cfg S)
    (I : Consumption V N → Exec cfg S → Prop) (E : Thrown → Exec cfg S → Prop) (R Q X : Exec cfg S → Prop) :
    Prop where
  consume : Prog.Spec (· = recorded (.began tid) (unsettled true x₀)) (B.consume tid) I E
  aloof : ∀ c, Aloof B (I c)
  throws : ∀ c e x, I c x → E e x
  launches : ∀ c flight x, I c x → B.flight? tid x.store = none → Starts c flight →
    Q (unsettled false (launchedAt B tid flight x))
  contains : ∀ e x, E e x → R (recorded (.aborted tid) (unsettled false x))
  aloofR : Aloof B R
  forgets : ∀ x, R x → Q { x with ctl := { x.ctl with
    matchCaches := Function.update x.ctl.matchCaches tid none } }
  aloofQ : Aloof B Q
  crashes : ∀ x, R x ∨ Q x → X x

section Firing

variable {Start : Exec cfg S → Prop} {I : Consumption V N → Exec cfg S → Prop}
  {E : Thrown → Exec cfg S → Prop} {R Q X : Exec cfg S → Prop} (conforms : Conforms B verdict)
  (before : Coherent B x₀) (on : x₀.ctl.enabledFlags tid = true)
include before on

/-- Nothing is registered for a transition that is enabled. -/
theorem idle_of_enabled : x₀.ctl.inFlightFlags tid = false ∧ B.flight? tid x₀.store = none := by
  have flag := before.flights tid
  have free := before.exclusive tid on
  refine ⟨free, Option.not_isSome_iff_eq_none.mp ?_⟩
  rw [← flag, free]
  exact Bool.false_ne_true

include conforms

section Staged

variable (rule : StagedFiring B tid x₀ I E R Q X)
include rule

/-- The firing itself, up to its registration. -/
theorem StagedFiring.fireTransition : Prog.Spec (· = unsettled true x₀) (fireTransition B tid)
    (fun _ x => Q (unsettled false x)) E := by
  have stable (c : Consumption V N) : Aloof B fun x => I c x ∧ B.flight? tid x.store = none :=
    { (rule.aloof c).toHostStable.and (HostStable.of_internals fun i => B.flight? tid i.store = none) with
      bookkeeping := fun x b caches terminal same h => ⟨(rule.aloof c).bookkeeping x b caches terminal same h.1, h.2⟩
      clock := fun x n h => ⟨(rule.aloof c).clock x n h.1, h.2⟩
      starts := fun x n h => ⟨(rule.aloof c).starts x n h.1, h.2⟩
      reaped := fun x other h => ⟨(rule.aloof c).reaped x other h.1, h.2⟩ }
  refine Prog.Spec.modify_bind (R := (· = recorded (.began tid) (unsettled true x₀))) ?_ (by rintro _ rfl; rfl)
  -- consumption registers nothing
  have idle := midTake_consume conforms tid (recorded (.began tid) (unsettled true x₀))
  have both := (rule.consume.and idle).conseq
    (fun y (same : y = recorded (.began tid) (unsettled true x₀)) => ⟨same, same ▸ ⟨MidFire.refl, rfl⟩⟩)
    (fun c y h => show I c y ∧ B.flight? tid y.store = none from
      ⟨h.1, (h.2.1.flights tid).trans (idle_of_enabled before on).2⟩)
    fun e y h => h.1
  refine Prog.Spec.bind both fun c => ?_
  have throws (e : Thrown) (x : Exec cfg S) (h : I c x ∧ B.flight? tid x.store = none) : E e x :=
    rule.throws c e x h.1
  refine Prog.Spec.bind ((stable c).updateBitmapAfterConsumption throws tid) fun _ => ?_
  refine Prog.Spec.bind ((stable c).emitEvent _) fun _ => Prog.Spec.gets_bind fun start => ?_
  refine Prog.Spec.modify_bind (R := fun x => I c x ∧ B.flight? tid x.store = none) ?_
    fun x hx => (stable c).starts x _ hx.1
  have rest : Prog.Spec (fun x => I c x ∧ B.flight? tid x.store = none) (do
      let entries ← executeAction B.toStoreOps (transition tid) start.syncSteps []
      let startMs ← nowMs
      launch B tid
        { inputs := c.inputs, entries := entries, detached := false, consumed := c.consumed
          startMs := startMs, status := .running, error := none, matchedName := c.matchedName })
      (fun _ x => Q (unsettled false x)) E := by
    refine Prog.Spec.bind (executeAction_spec (stable c).toHostStable _ _ _) fun entries => ?_
    refine Prog.Spec.bind (stable c).nowMs fun startMs x hx => ?_
    exact rule.launches c _ x hx.1 hx.2 ⟨rfl, rfl, rfl⟩
  cases start.provider with
  | some e => exact throws e
  | none => exact rest

/-- The firing, with its containment. -/
theorem StagedFiring.fireTransitionContained : Prog.Spec (· = x₀) (fireTransitionContained B tid)
    (fun _ => Q) fun _ => X := by
  refine Prog.Spec.modify_bind (R := (· = unsettled true x₀)) ?_ (by rintro _ rfl; rfl)
  -- beside the rule, a throw leaves the middle of the firing, where nothing is registered
  have mid : MidTake B tid x₀ (unsettled true x₀) :=
    ⟨MidFire.refl.frame rfl rfl rfl rfl rfl (fun _ _ => rfl) (fun _ _ => Or.inr rfl) (fun _ => id) fun _ => id,
      rfl⟩
  have both := (rule.fireTransition conforms before on).and ((fireTransition_spec conforms.toLawfulBackend
    before on (midTake_consume conforms tid x₀)).conseq
      (fun y (same : y = unsettled true x₀) => same ▸ mid) (fun _ _ => id) fun _ _ => id)
  refine Prog.Spec.tryCatch (E := fun e x => E e x ∧ MidFire B tid x₀ x) ?_ fun e => ?_
  · refine Prog.Spec.bind (both.conseq (by rintro _ rfl; exact ⟨rfl, rfl⟩) (fun _ _ h => h.1)
      fun _ _ => id) fun _ x hx => hx
  let Idle (x : Exec cfg S) : Prop := x.ctl.inFlightFlags tid = false ∧ B.flight? tid x.store = none
  have idle {x : Exec cfg S} (h : MidFire B tid x₀ x) : Idle x := by
    have start := idle_of_enabled before on
    exact ⟨(congrFun h.inFlight tid).trans start.1, (h.flights tid).trans start.2⟩
  refine Prog.Spec.modify_bind (R := fun x => R (recorded (.aborted tid) x) ∧ Idle x) ?_
    fun x h => ⟨rule.contains e x h.1, (idle h.2).1, (idle h.2).2⟩
  refine Prog.Spec.modify_bind (R := fun x => R x ∧ Idle x) ?_ fun x h => h
  have rest : Prog.Spec (fun x => R x ∧ Idle x) (do
      B.discard tid
      updateBitmapAfterConsumption B tid
      setCtl fun c => { c with matchCaches := Function.update c.matchCaches tid none }
      let err ← Prog.lift (asError e)
      emitFailed B.toStoreOps (transition tid).name err
      markTransitionDirty tid) (fun _ => Q) fun _ => X := by
    refine Prog.Spec.bind (Q := fun _ => R) ?_ fun _ => ?_
    · rintro x ⟨hx, free, absent⟩
      rw [conforms.discard tid x free absent]
      exact hx
    refine Prog.Spec.bind (rule.aloofR.updateBitmapAfterConsumption
      (fun _ x hx => rule.crashes x (Or.inl hx)) tid) fun _ => ?_
    refine Prog.Spec.modify_bind (R := Q) ?_ fun x hx => rule.forgets x hx
    refine Prog.Spec.lift_bind (fun err _ => ?_) fun _ _ x hx => rule.crashes x (Or.inr hx)
    refine Prog.Spec.bind (rule.aloofQ.emitFailed _ _) fun _ => ?_
    exact rule.aloofQ.control (fun _ => rfl) (fun _ => rfl) fun _ => rfl
  refine Prog.Spec.gets_bind fun flag => Prog.Spec.ite (fun _ => ?_) fun _ => ?_
  · exact Prog.Spec.modify_bind rest fun x h => ⟨rule.aloofR.bookkeeping x _ rfl rfl rfl h.1.1, h.1.2⟩
  · exact rest.conseq (fun x h => h.1) (fun _ _ => id) fun _ _ => id

end Staged

variable (rule : FiringRule B tid x₀ Start I E R Q X)
include rule

omit before on in
theorem FiringRule.staged : StagedFiring B tid x₀ I E R Q X where
  consume := (conforms.consume tid rule.consuming).conseq
    (fun y (same : y = recorded (.began tid) (unsettled true x₀)) => same ▸ rule.start) (fun _ _ => id) fun _ _ => id
  aloof := rule.aloof
  throws := rule.throws
  launches := rule.launches
  contains := rule.contains
  aloofR := rule.aloofR
  forgets := rule.forgets
  aloofQ := rule.aloofQ
  crashes := rule.crashes

theorem FiringRule.fireTransitionContained : Prog.Spec (· = x₀) (Executor.fireTransitionContained B tid)
    (fun _ => Q) fun _ => X := (rule.staged conforms).fireTransitionContained conforms before on

end Firing

/-! ## Invariants a firing cannot touch -/

/-- Written by a firing up to its launch. -/
def ofFiring {net : PetriNet V N} : Effect net → Bool
  | .began _ | .took _ _ _ | .reset _ _ | .launched _ _ _ _ | .aborted _ => true
  | _ => false

/-- An invariant of the history, the events and the terminal flag. -/
structure Apart (B : Backend cfg S) (I : Exec cfg S → Prop) : Prop extends Aloof B I where
  stored : ∀ x s, I x → I (stored s x)
  withCaches : ∀ x caches, I x → I (withCaches caches x)
  unsettled : ∀ x on, I x → I (unsettled on x)
  ofFiring : ∀ x e, ofFiring e = true → I x → I (recorded e x)

theorem Apart.taking {I : Exec cfg S → Prop} (h : Apart B I) {X : Exec cfg S → Prop} (crashes : ∀ x, I x → X x)
    (t : Transition V N) : Taking B.toStoreOps t (fun _ => I) fun _ => X where
  stable _ := h.toHostStable
  first spec _ c x hx := by
    rcases B.removeFirst spec.place x.store with ⟨_ | token, s⟩
    · exact h.stored x s hx
    · exact h.ofFiring _ _ rfl (h.stored x s hx)
  matching spec _ key _ name c x hx := by
    rcases B.removeFirstMatching spec.place (named key name) x.store with ⟨e | _ | ⟨index, token⟩, s⟩
    · exact crashes _ (h.stored x s hx)
    · exact h.stored x s hx
    · exact h.ofFiring _ _ rfl (h.stored x s hx)
  counting spec _ key name c x e hx _ := crashes x hx
  reset p _ c x hx := h.ofFiring _ _ rfl (h.stored x _ hx)

theorem Apart.firingRule {I X : Exec cfg S → Prop} (h : Apart B I) (crashes : ∀ x, I x → X x) (start : I x₀) :
    FiringRule B tid x₀ I (fun _ => I) (fun _ => I) I I X where
  consuming :=
    { h.taking (fun _ => id) (transition tid) with
      unmatched := fun _ hx => hx
      matched := fun x _ hx _ => h.withCaches x _ hx
      unbound := fun _ _ hx _ => hx
      reads := fun _ _ _ hx => hx
      dry := fun _ _ _ hx => hx }
  start := h.ofFiring _ _ rfl (h.unsettled _ _ start)
  aloof _ := h.toAloof
  throws _ _ _ hx := hx
  launches c flight x hx _ _ := by
    have registered := h.stored x (B.register tid flight x.store) hx
    refine h.unsettled _ _ (h.ofFiring _ _ rfl ?_)
    exact h.bookkeeping (Verified.stored _ x) (disable tid { x.ctl with
      inFlightFlags := Function.update x.ctl.inFlightFlags tid true }) rfl rfl rfl registered
  contains e x hx := h.ofFiring _ _ rfl (h.unsettled _ _ hx)
  aloofR := h.toAloof
  forgets x hx := h.withCaches x _ hx
  aloofQ := h.toAloof
  crashes x hx := crashes x (hx.elim id id)

/-! ## Completions -/

/-- The state once a completed firing is off the books. -/
def settledAt (B : Backend cfg S) (tid : Tid cfg.net) (flight : Flight V N) (x : Exec cfg S) : Exec cfg S :=
  recorded (.settled tid flight.entries) { x with
    store := B.unregister tid x.store
    ctl := { x.ctl with inFlightFlags := Function.update x.ctl.inFlightFlags tid false } }

/-- What is left to check of the completion of `flight` from `x₀`: `U` once it is off the books, `D`
for each output that has landed, `F` if it fails, `Q` after, `X` where reporting a failure throws. -/
structure CompletionRule (B : Backend cfg S) (tid : Tid cfg.net) (flight : Flight V N) (x₀ : Exec cfg S)
    (D : List (PlaceName × Token V) → Exec cfg S → Prop) (F Q X : Exec cfg S → Prop) : Prop where
  start : D [] (unsettled true (settledAt B tid flight x₀))
  aloof : ∀ entries, Aloof B (D entries)
  deposit : ∀ done entry rest x y, flight.entries = done ++ entry :: rest → D done x →
    Projects x.ctl.matchCaches entry.1 entry.2 → Deposited B entry.1 entry.2 x y → y.io = x.io → y.history = .deposited entry.1 entry.2 :: x.history →
    D (done ++ [entry]) y
  lands : ∀ x, D flight.entries x → Q (recorded (.landed tid) (unsettled false x))
  aloofQ : Aloof B Q
  refused : ∀ x, D [] x → F (recorded (.failed tid) (unsettled false x))
  failed : F (recorded (.failed tid) (settledAt B tid flight x₀))
  aloofF : Aloof B F
  fails : ∀ x, F x → Q x
  crashes : ∀ x, F x → X x

section Completion

variable {flight : Flight V N} {D : List (PlaceName × Token V) → Exec cfg S → Prop} {F Q X : Exec cfg S → Prop}

/-- A failure, reported. -/
theorem failCompletion_rule (aloof : Aloof B Q) (crashes : ∀ x, Q x → X x) (e : Thrown) :
    Prog.Spec (fun x => Q (recorded (.failed tid) x)) (failCompletion B tid e) (fun _ => Q) fun _ => X := by
  refine Prog.Spec.modify_bind (R := Q) ?_ fun x h => h
  refine Prog.Spec.lift_bind (fun err _ => ?_) fun _ _ x hx => crashes x hx
  refine Prog.Spec.bind (aloof.emitFailed _ _) fun _ => ?_
  exact aloof.control (fun _ => rfl) (fun _ => rfl) fun _ => rfl

variable (conforms : Conforms B verdict) (rule : CompletionRule B tid flight x₀ D F Q X)
include conforms rule

/-- Outputs land one by one. -/
theorem CompletionRule.deposits (done rest : List (PlaceName × Token V)) (split : flight.entries = done ++ rest)
    (projects : ∀ entry ∈ rest, Projects x₀.ctl.matchCaches entry.1 entry.2)
    {E : Thrown → Exec cfg S → Prop} :
    Prog.Spec (fun x => D done x ∧ ∀ other, (x.ctl.matchCaches other).isSome = (x₀.ctl.matchCaches other).isSome)
      (Prog.each rest (depositEntry B (transition tid).name)) (fun _ => D flight.entries) E := by
  induction rest generalizing done with
  | nil =>
    rintro x ⟨hx, _⟩
    rw [split, List.append_nil]
    exact hx
  | cons entry rest ih =>
    have live : HostStable B.toStoreOps fun x =>
        ∀ other, (x.ctl.matchCaches other).isSome = (x₀.ctl.matchCaches other).isSome :=
      HostStable.of_internals fun i =>
        ∀ other, (i.ctl.matchCaches other).isSome = (x₀.ctl.matchCaches other).isSome
    have stable := (rule.aloof (done ++ [entry])).toHostStable.and live
    refine Prog.Spec.bind (Q := fun _ x => D (done ++ [entry]) x ∧
      ∀ other, (x.ctl.matchCaches other).isSome = (x₀.ctl.matchCaches other).isSome)
      (Prog.Spec.of_each fun x hx => ?_) fun _ =>
        ih (done ++ [entry]) (by rw [split, List.append_assoc]; rfl)
          fun other h => projects other (List.mem_cons_of_mem _ h)
    have answers := (projects entry List.mem_cons_self).congr hx.2
    refine Prog.Spec.bind (conforms.deposits _ answers stable fun y d io history => ?_) fun _ => stable.emitEvent _
    exact ⟨rule.deposit done entry rest x y split hx.1 answers d io history,
      fun other => (d.isSome_cache other).trans (hx.2 other)⟩

theorem CompletionRule.completeTransition (held : B.flight? tid x₀.store = some flight)
    (lands : Lands B verdict tid x₀) :
    Prog.Spec (· = x₀) (completeTransition B tid) (fun _ => Q) fun _ => X := by
  refine Prog.Spec.gets_at ?_
  rw [held]
  refine Prog.Spec.modify_bind (R := (· = recorded (.settled tid flight.entries) x₀)) ?_
    (by rintro _ rfl; rfl)
  refine Prog.Spec.modify_bind (R := (· = recorded (.settled tid flight.entries)
    (stored (B.unregister tid x₀.store) x₀))) ?_ (by rintro _ rfl; rfl)
  refine Prog.Spec.modify_bind (R := (· = settledAt B tid flight x₀)) ?_ (by rintro _ rfl; rfl)
  cases failed : flight.error.filter Thrown.truthy with
  | some e =>
    exact (failCompletion_rule rule.aloofF rule.crashes e).conseq
      (fun y (same : y = settledAt B tid flight x₀) => same ▸ rule.failed) (fun _ x hx => rule.fails x hx) fun _ _ => id
  | none =>
    let live (x : Exec cfg S) : Prop :=
      ∀ other, (x.ctl.matchCaches other).isSome = (x₀.ctl.matchCaches other).isSome
    have start : D [] (unsettled true (settledAt B tid flight x₀)) ∧
        live (unsettled true (settledAt B tid flight x₀)) := ⟨rule.start, fun _ => rfl⟩
    refine Prog.Spec.modify_bind (R := fun x => D [] x ∧ live x) ?_ (by rintro _ rfl; exact start)
    refine Prog.Spec.tryCatch (E := fun _ => D []) ?_ fun e => ?_
    · have stable : HostStable B.toStoreOps fun x => D [] x ∧ live x :=
        (rule.aloof []).toHostStable.and (HostStable.of_internals fun i =>
          ∀ other, (i.ctl.matchCaches other).isSome = (x₀.ctl.matchCaches other).isSome)
      refine Prog.Spec.bind (conforms.validates tid flight stable
        (fun x warned h => ⟨(rule.aloof []).bookkeeping x _ rfl rfl rfl h.1, h.2⟩) fun x e h _ => h.1) fun _ => ?_
      refine Prog.Spec.bind (Q := fun _ => D flight.entries) ?_ fun _ => ?_
      · by_cases valid : verdict tid flight = .ok ()
        · exact (rule.deposits conforms [] flight.entries rfl (lands flight held failed valid)).conseq
            (fun x h => h.2) (fun _ _ => id) fun _ _ => id
        · exact fun x h => absurd h.1 valid
      refine Prog.Spec.bind ((rule.aloof _).control (fun _ => rfl) (fun _ => rfl) fun _ => rfl) fun _ => ?_
      refine Prog.Spec.modify_bind (R := fun x => Q (recorded (.landed tid) x)) ?_ fun x h => rule.lands x h
      refine Prog.Spec.modify_bind (R := Q) ?_ fun x h => h
      exact Prog.Spec.bind rule.aloofQ.nowMs fun now => rule.aloofQ.emitEvent _
    · have reported : Prog.Spec (fun x => F (recorded (.failed tid) x)) (failCompletion B tid e) (fun _ => Q)
          fun _ => X :=
        (failCompletion_rule rule.aloofF rule.crashes e).conseq (fun _ => id) (fun _ x hx => rule.fails x hx)
          fun _ _ => id
      exact Prog.Spec.modify_bind reported fun x h => rule.refused x h

end Completion

/-! ## External events -/

/-- The state once an event has been taken from the queue. -/
def admittingAt (i : Nat) (event : ExternalEvent V) (x : Exec cfg S) : Exec cfg S :=
  recorded (.admitting event) { x with io := { x.io with externalCursor := i + 1 } }

theorem admitEvent_rule (conforms : Conforms B verdict) {i : Nat} {event : ExternalEvent V}
    {A Q : Exec cfg S → Prop} (projects : Projects x₀.ctl.matchCaches event.place event.token)
    (stable : HostStable B.toStoreOps A)
    (deposit : ∀ y, Deposited B event.place event.token (admittingAt i event x₀) y →
      y.io = (admittingAt i event x₀).io →
      y.history = .deposited event.place event.token :: (admittingAt i event x₀).history → A y)
    (resolves : ∀ x, A x → Q (recorded (.resolved event.id true) x)) {E : Thrown → Exec cfg S → Prop} :
    Prog.Spec (· = x₀) (admitEvent B i event) (fun _ => Q) E := by
  refine Prog.Spec.modify_bind (R := (· = { x₀ with io := { x₀.io with externalCursor := i + 1 } })) ?_
    (by rintro _ rfl; rfl)
  refine Prog.Spec.modify_bind (R := (· = admittingAt i event x₀)) ?_ (by rintro _ rfl; rfl)
  refine Prog.Spec.tryCatch (E := fun _ _ => False) ?_ fun _ _ => False.elim
  refine Prog.Spec.bind (conforms.deposits "" (I := A) projects stable deposit) fun _ => ?_
  exact Prog.Spec.bind (stable.emitEvent _) fun _ x h => resolves x h

/-! ## Runs -/

/-- What holds of the loop, past a stop, once the run has ended, and where an exception has left it. -/
structure Stages (cfg : Setting V N) (S : Type) where
  loop : Exec cfg S → Prop
  stopped : Exec cfg S → Prop
  ended : Exec cfg S → Prop
  crashed : Exec cfg S → Prop

/-- The loop goes on, or a terminal place has stopped it. -/
def Stages.standing (s : Stages cfg S) (x : Exec cfg S) : Prop :=
  s.loop x ∨ x.ctl.terminalReached = true ∧ s.stopped x

/-- What holds at each program point. -/
def Stages.at (s : Stages cfg S) : Phase cfg.net → Exec cfg S → Prop
  | .head => s.standing
  | .exit => s.stopped
  | .ended => s.ended
  | .crashed _ => s.crashed
  | _ => s.loop

/-- The reason a run ends with. -/
def outcome (x : Exec cfg S) : TerminationReason :=
  if x.io.reason = .running then
    if x.ctl.terminalReached then .terminal
    else if x.io.closed then .closed
    else .quiescent
  else x.io.reason

/-- Stages a run goes through.  They ignore the bookkeeping and the queues of events, but may look at
the reason. -/
structure Steady (B : Backend cfg S) (verdict : Tid cfg.net → Flight V N → Except Thrown Unit)
    (s : Stages cfg S) : Prop where
  loop : Aloof B s.loop
  io : ∀ x io, io.reason = x.io.reason → s.loop x → s.loop { x with io := io }
  update : ∀ x tid flight flight', s.loop x → B.flight? tid x.store = some flight →
    SameFiring flight flight' → s.loop (stored (B.update tid flight' x.store) x)
  /-- A terminal place is marked from the start. -/
  seeded : ∀ x bits dirty, s.loop x → s.stopped { x with ctl := { x.ctl with
    markingBitmap := bits, dirtySet := dirty, terminalReached := true } }
  fire : ∀ tid x, s.loop x → Coherent B x → x.ctl.enabledFlags tid = true →
    canEnable B tid x.ctl.markingBitmap x = .ok true →
    Prog.Spec (· = x) (fireTransitionContained B tid) (fun _ => s.loop) fun _ => s.crashed
  complete : ∀ tid flight x, s.loop x → Coherent B x → B.flight? tid x.store = some flight →
    Lands B verdict tid x →
    Prog.Spec (· = x) (completeTransition B tid) (fun _ => s.standing) fun _ => s.crashed
  takes : ∀ i event x, s.loop x → Coherent B x → Projects x.ctl.matchCaches event.place event.token →
    Prog.Spec (· = x) (admitEvent B i event) (fun _ => s.standing) fun _ => s.crashed
  exits : ∀ x, s.loop x → s.stopped x
  stopped : Ambient B s.stopped
  ioStopped : ∀ x io, io.reason = x.io.reason → s.stopped x → s.stopped { x with io := io }
  refused : ∀ x id, s.stopped x → s.stopped (recorded (.resolved id false) x)
  finishes : ∀ x, s.stopped x → s.ended { x with io := { x.io with reason := outcome x } }
  ended : Ambient B s.ended
  clockEnded : ∀ x n, s.ended x → s.ended { x with io := { x.io with nowReads := n } }
  recorded : ∀ x, s.ended x → s.ended (recorded .ended x)
  crashes : ∀ x, s.loop x → s.crashed x
  crashed : Ambient B s.crashed

namespace Steady

variable {s : Stages cfg S} (h : Steady B verdict s)
include h

theorem ambient : Ambient B s.loop :=
  { h.loop.toHostStable with
    update := h.update
    delivered := fun x tid hx _ => by
      rw [wakeUp_eq]
      exact h.io x _ rfl hx
    raceSettled := fun x hx => h.io x _ rfl hx, epochs := fun x _ hx => h.io x _ rfl hx }

theorem stop {x : Exec cfg S} (hx : s.standing x) : s.stopped x := hx.elim (h.exits x) And.right

theorem standing_hostStable : HostStable B.toStoreOps s.standing :=
  h.loop.toHostStable.or
    ((HostStable.of_internals fun i => i.ctl.terminalReached = true).and h.stopped.toHostStable)

theorem standing_io {x : Exec cfg S} {io : Io cfg.net} (same : io.reason = x.io.reason) (hx : s.standing x) :
    s.standing { x with io := io } := hx.imp (h.io x io same) fun hx => ⟨hx.1, h.ioStopped x io same hx.2⟩

theorem exitOr {x : Exec cfg S} (hx : s.standing x) (io : Io cfg.net) (kept : io.reason = x.io.reason)
    {next : Phase cfg.net} (same : s.at next = s.loop) :
    s.at (if x.ctl.terminalReached then .exit else next) { x with io := io } := by
  have moved := h.standing_io kept hx
  cases stopped : x.ctl.terminalReached with
  | true => exact h.stop moved
  | false =>
    simp only [Bool.false_eq_true, if_false]
    rw [same]
    refine moved.resolve_right fun on => ?_
    rw [stopped] at on
    exact Bool.noConfusion on.1

theorem startLoop {E : Thrown → Exec cfg S → Prop} :
    Prog.Spec s.loop (startLoop B) (fun _ => s.standing) E := by
  refine Prog.Spec.modify_bind (R := s.loop) ?_ fun x hx => h.io x _ rfl hx
  refine Prog.Spec.bind (h.loop.emitEvent _) fun _ => ?_
  refine Prog.Spec.modify_bind (R := s.standing) ?_ fun x hx => ?_
  · exact Prog.Spec.gets_bind fun marking =>
      (h.standing_hostStable.emitEvent _).conseq (fun x hx => hx.1) (fun _ _ => id) fun _ _ => id
  · by_cases same : (x.ctl.terminalReached || checkInitialTerminals B x) = x.ctl.terminalReached
    · exact Or.inl (h.loop.bookkeeping x _ rfl same rfl hx)
    · have reached : (x.ctl.terminalReached || checkInitialTerminals B x) = true := by
        cases hreached : x.ctl.terminalReached with
        | true => rfl
        | false => cases hcheck : checkInitialTerminals B x <;> simp_all
      refine Or.inr ⟨reached, ?_⟩
      rw [reached]
      exact h.seeded x _ _ hx

theorem finishLoop {E : Thrown → Exec cfg S → Prop} :
    Prog.Spec s.stopped (finishLoop B) (fun _ => s.ended) E := by
  refine Prog.Spec.modify_bind (R := s.stopped) ?_ fun x hx => h.ioStopped x _ rfl hx
  refine Prog.Spec.bind (Q := fun _ => s.stopped) ?_ fun _ => ?_
  · refine Prog.Spec.gets_bind fun pending => Prog.Spec.modify_bind (R := s.stopped) ?_ fun x hx =>
      h.ioStopped x _ rfl hx.1
    exact Prog.Spec.each fun event _ x hx => h.refused x event.id hx
  refine Prog.Spec.modify_bind (R := s.ended) ?_ fun x hx => h.finishes x hx
  refine Prog.Spec.gets_bind fun marking => ?_
  refine Prog.Spec.bind ((h.ended.emitEvent _).conseq (fun x hx => hx.1) (fun _ _ => id) fun _ _ => id)
    fun _ => ?_
  refine Prog.Spec.bind (Q := fun _ => s.ended) (fun x hx => h.clockEnded x _ hx) fun now => ?_
  refine Prog.Spec.gets_bind fun startMs => ?_
  refine Prog.Spec.bind ((h.ended.emitEvent _).conseq (fun x hx => hx.1) (fun _ _ => id) fun _ _ => id)
    fun _ => ?_
  exact fun x hx => h.recorded x hx

theorem fireImmediate (tid : Tid cfg.net) :
    Prog.Spec (fun x => s.loop x ∧ Coherent B x) (fireImmediate B tid) (fun _ => s.loop)
      fun _ => s.crashed := by
  refine Prog.Spec.gets_bind fun c => Prog.Spec.ite (fun _ x hx => hx.1.1) fun turn => ?_
  refine checkEnabled_bind (fun fires => Prog.Spec.ite (fun fire => ?_) fun _ => ?_) fun e x hx _ =>
    h.crashes x hx.1.1
  · rintro x ⟨⟨hx, rfl⟩, can⟩
    simp only [Bool.or_eq_true, Bool.not_eq_true', not_or, Bool.not_eq_false] at turn
    rw [fire] at can
    exact h.fire tid x hx.1 hx.2 turn.1 can x rfl
  · exact fun x hx => h.loop.bookkeeping x _ rfl rfl rfl hx.1.1.1

theorem fireReady (tid : Tid cfg.net) (rest : List (Tid cfg.net)) (snap : Bitset (placeCount cfg.net)) :
    Prog.Spec (fun x => s.loop x ∧ Awaiting B (tid :: rest) snap x) (fireReady B snap tid) (fun _ => s.loop)
      fun _ => s.crashed := by
  refine Prog.Spec.gets_bind fun enabled => Prog.Spec.ite (fun on => ?_) fun _ => ?_
  · refine checkEnabled_bind (fun fires => Prog.Spec.ite (fun fire => ?_) fun _ => ?_) fun e x hx _ =>
      h.crashes x hx.1.1
    · rintro x ⟨⟨⟨hx, awaiting⟩, rfl⟩, can⟩
      rw [fire, awaiting.snapped] at can
      exact Prog.Spec.bind (h.fire tid x hx awaiting.toCoherent on can) (fun _ y hy => hy) x rfl
    · exact fun x hx => h.loop.bookkeeping x _ rfl rfl rfl hx.1.1.1
  · exact fun x hx => h.loop.bookkeeping x _ rfl rfl rfl hx.1.1

theorem parkOrResume {E : Thrown → Exec cfg S → Prop} :
    Prog.Spec s.loop (parkOrResume B) s.at E := by
  refine Prog.Spec.gets_bind fun x => Prog.Spec.ite (fun _ => ?_) fun _ => ?_
  · exact Prog.Spec.modify_bind (R := s.loop) (fun y hy => hy) fun y hy => h.io y _ rfl hy.1
  refine Prog.Spec.ite (fun _ y hy => hy.1) fun _ => Prog.Spec.ite (fun _ y hy => hy.1) fun _ => ?_
  refine Prog.Spec.ite (fun _ => ?_) fun _ => ?_
  · exact Prog.Spec.modify_bind (R := s.loop) (fun y hy => hy) fun y hy => h.io y _ rfl hy.1
  refine Prog.Spec.bind (Q := fun _ => s.loop) (fun y hy => h.io y _ rfl hy.1) fun now => ?_
  refine Prog.Spec.ite (fun _ y hy => hy) fun _ => ?_
  exact Prog.Spec.modify_bind (R := s.loop) (fun y hy => hy) fun y hy => h.io y _ rfl hy

theorem executeLoop (phase : Phase cfg.net) :
    Prog.Spec (fun x => s.at phase x ∧ CoherentAt B phase x ∧ DepositsCleanly B verdict phase x)
      (executeLoop B phase) s.at fun _ => s.crashed := by
  cases phase with
  | created =>
    exact Prog.Spec.bind (h.startLoop.conseq (fun x hx => hx.1) (fun _ _ => id) fun _ _ => id)
      fun _ x hx => hx
  | head =>
    refine Prog.Spec.gets_bind fun x => Prog.Spec.ite (fun runs => ?_) fun _ y hy => h.stop hy.1.1
    have loops (y : Exec cfg S)
        (hy : (s.at .head y ∧ CoherentAt B .head y ∧ DepositsCleanly B verdict .head y) ∧ id y = x) :
        s.loop y := by
      obtain ⟨hy, rfl⟩ := hy
      refine hy.1.resolve_right fun stopped => ?_
      simp only [id, Bool.and_eq_true, Bool.not_eq_true'] at runs
      rw [stopped.1] at runs
      exact Bool.noConfusion runs.2
    exact Prog.Spec.ite (fun _ y hy => loops y hy) fun _ y hy => loops y hy
  | completing i len =>
    refine completing_spec (R := s.standing) (fun tid => ?_) (fun x hx _ => Or.inl hx.1)
      (fun x hx goes _ => hx.resolve_right fun stopped => ?_) fun x hx _ => h.exitOr hx _ (by rfl) rfl
    · refine Prog.Spec.of_each fun x hx => ?_
      cases held : B.flight? tid x.store with
      | none =>
        refine Prog.Spec.gets_at ?_
        rw [held]
        rintro _ rfl
        exact Or.inl hx.1.1
      | some flight => exact h.complete tid flight x hx.1.1 hx.1.2.1 held (hx.1.2.2 tid hx.2)
    · rw [stopped.1] at goes
      cases goes
  | «external» =>
    refine Prog.Spec.gets_bind fun x => Prog.Spec.ite (fun _ => ?_) fun _ y hy => hy.1.1
    exact unlessTerminal_spec fun y hy => h.exitOr (Or.inl hy.1.1) y.io rfl rfl
  | admitting i len =>
    refine admitting_spec (R := s.standing) (fun event => ?_) (fun x hx _ => Or.inl hx.1)
      (fun x hx goes _ => hx.resolve_right fun stopped => ?_) fun x hx _ => h.exitOr hx _ (by rfl) rfl
    · exact Prog.Spec.of_each fun x hx => h.takes i event x hx.1.1 hx.1.2.1 (hx.1.2.2 event hx.2)
    · rw [stopped.1] at goes
      cases goes
  | scan =>
    exact Prog.Spec.bind ((h.loop.updateDirtyTransitions fun _ x hx => h.crashes x hx).conseq
      (fun x hx => hx.1) (fun _ _ => id) fun _ _ => id) fun _ x hx => hx
  | deadlines =>
    exact deadlines_spec (R := s.loop) (fun x hx => h.loop.clock x _ hx.1)
      (fun now => h.loop.enforceDeadlines now) (fun x hx _ => h.exits x hx) (fun x hx _ => hx)
      fun x now hx _ => hx
  | firingImmediate rest =>
    cases rest with
    | nil => exact fun x hx => hx.1
    | cons tid rest =>
      exact Prog.Spec.bind ((h.fireImmediate tid).conseq (fun x hx => ⟨hx.1, hx.2.1⟩) (fun _ _ => id)
        fun _ _ => id) fun _ x hx => hx
  | firingGeneral rest snap =>
    cases rest with
    | nil => exact fun x hx => hx.1
    | cons tid rest =>
      exact Prog.Spec.bind ((h.fireReady tid rest snap).conseq (fun x hx => ⟨hx.1, hx.2.1⟩) (fun _ _ => id)
        fun _ _ => id) fun _ x hx => hx
  | fired =>
    refine Prog.Spec.gets_bind fun x => Prog.Spec.ite (fun _ y hy => Or.inl hy.1.1) fun _ => ?_
    exact Prog.Spec.ite (fun _ y hy => hy.1.1) fun _ y hy => hy.1.1
  | flush => exact h.parkOrResume.conseq (fun x hx => hx.1) (fun _ _ => id) fun _ _ => id
  | parked race =>
    refine Prog.Spec.gets_bind fun settled => Prog.Spec.ite (fun _ => ?_) fun _ y hy => hy.1.1
    exact Prog.Spec.modify_bind (R := s.loop) (fun y hy => hy) fun y hy => h.io y _ rfl hy.1.1
  | resuming => exact fun x hx => Or.inl hx.1
  | exit =>
    exact Prog.Spec.bind (h.finishLoop.conseq (fun x hx => hx.1) (fun _ _ => id) fun _ _ => id)
      fun _ x hx => hx
  | ended => exact fun x hx => hx.1
  | crashed e => exact fun _ hx => hx.1

theorem ambientAt {phase : Phase cfg.net} (open_ : yields phase = true) : Ambient B (s.at phase) := by
  cases phase with
  | created | flush | parked _ | resuming => exact h.ambient
  | ended => exact h.ended
  | crashed e => exact h.crashed
  | _ => cases open_

/-- Along every run whose deposits go through. -/
theorem reachable [Value V] (conforms : Conforms B verdict) {new : Except Thrown (Exec cfg S)}
    (built : ∀ x, new = .ok x → Built B x) (start : ∀ x, new = .ok x → s.loop x) {m : Machine cfg S}
    (run : ReachableBy B new (CleanDeposits B verdict) m) :
    s.at m.phase m.exec ∧ CoherentAt B m.phase m.exec := by
  refine run.invariant (I := fun m => s.at m.phase m.exec ∧ CoherentAt B m.phase m.exec)
    (fun x hx => ⟨start x hx, (built x hx).fresh⟩) fun m label hm clean => ⟨?_, ?_⟩
  · exact step_invariant conforms.lawful (fun _ => h.ambientAt)
      (fun ticks => (h.executeLoop m.phase).conseq (by rintro _ rfl; exact ⟨hm.1, hm.2, clean ticks⟩)
        (fun _ _ => id) fun _ _ => id) hm.1
  · exact coherentAt_step conforms hm.2 clean

end Steady

end LibPetri.Verified

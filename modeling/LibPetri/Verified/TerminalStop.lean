import LibPetri.Verified.TokenInvariants

/-! # A terminal place stops the run

The completion or admission whose deposit marks a terminal place is the last operation on tokens: all
its deposits land, nothing else is taken up, and the run ends.  A deposit that throws behind one that
marked a terminal place is left out (`CleanDeposits`).
-/

namespace LibPetri.Verified

open LibPetri.Basis LibPetri.Core LibPetri.Runtime CompiledNet Executor

variable {V N : Type} [LinearOrder N] {cfg : Setting V N} {S : Type}

/-! ## Operations in the history -/

/-- An operation on tokens is taken up: a firing, a completion, the admission of an event. -/
def opens {net : PetriNet V N} : Effect net → Bool
  | .began _ | .launched _ _ _ _ | .settled _ _ | .admitting _ => true
  | _ => false

def depositOf {net : PetriNet V N} : Effect net → Option (PlaceName × Token V)
  | .deposited p token => some (p, token)
  | _ => none

/-- The deposits of a stretch of history, oldest first. -/
def depositsIn {net : PetriNet V N} (history : List (Effect net)) : List (PlaceName × Token V) :=
  (history.filterMap depositOf).reverse

/-- A deposit into a terminal place. -/
def marksTerminal {net : PetriNet V N} (e : Effect net) : Bool :=
  (depositOf e).any fun entry => entry.1 ∈ net.terminals

/-- Neither a deposit nor the start of an operation. -/
def still {net : PetriNet V N} (e : Effect net) : Bool := !opens e && (depositOf e).isNone

omit [LinearOrder N] in
theorem still_of_external {net : PetriNet V N} {e : Effect net} (outside : internal e = false) :
    still e = true := by
  cases e with
  | appended | unregistered | refused | accepted | snapshotTaken | snapshotRefused | drained | closed => rfl
  | _ => cases outside

omit [LinearOrder N] in
theorem not_marksTerminal_of_still {net : PetriNet V N} {e : Effect net} (h : still e = true) :
    marksTerminal e = false := by
  cases e with
  | deposited => cases h
  | _ => rfl

/-- Since `opening` was taken up, `done` was deposited and nothing else was taken up; no deposit before
marked a terminal place. -/
def Since {net : PetriNet V N} (opening : Effect net) (done : List (PlaceName × Token V))
    (history : List (Effect net)) : Prop :=
  ∃ recent before, history = recent ++ opening :: before ∧ (∀ e ∈ recent, opens e = false) ∧
    depositsIn recent = done ∧ ∀ e ∈ before, marksTerminal e = false

omit [LinearOrder N] in
theorem Since.still {net : PetriNet V N} {opening e : Effect net} {done : List (PlaceName × Token V)}
    {history : List (Effect net)} (h : Since opening done history) (he : still e = true) :
    Since opening done (e :: history) := by
  obtain ⟨recent, before, rfl, closed, landed, earlier⟩ := h
  simp only [Verified.still, Bool.and_eq_true, Bool.not_eq_true', Option.isNone_iff_eq_none] at he
  refine ⟨e :: recent, before, rfl, List.forall_mem_cons.mpr ⟨he.1, closed⟩, ?_, earlier⟩
  rw [depositsIn, List.filterMap_cons_none he.2]
  exact landed

omit [LinearOrder N] in
theorem Since.deposited {net : PetriNet V N} {opening : Effect net} {done : List (PlaceName × Token V)}
    {history : List (Effect net)} (h : Since opening done history) (p : PlaceName) (token : Token V) :
    Since opening (done ++ [(p, token)]) (.deposited p token :: history) := by
  obtain ⟨recent, before, rfl, closed, landed, earlier⟩ := h
  refine ⟨.deposited p token :: recent, before, rfl, List.forall_mem_cons.mpr ⟨rfl, closed⟩, ?_, earlier⟩
  show ((p, token) :: recent.filterMap depositOf).reverse = _
  rw [List.reverse_cons, ← landed]
  rfl

/-- The operation that marked a terminal place is the last one, and complete. -/
def LastOperation {net : PetriNet V N} (history : List (Effect net)) : Prop :=
  (∃ tid entries, Since (.settled tid entries) entries history ∧ .landed tid ∈ history) ∨
    ∃ event, Since (.admitting event) [(event.place, event.token)] history ∧
      .resolved event.id true ∈ history

omit [LinearOrder N] in
theorem LastOperation.still {net : PetriNet V N} {history : List (Effect net)} (h : LastOperation history)
    {e : Effect net} (he : still e = true) : LastOperation (e :: history) := by
  rcases h with ⟨tid, entries, since, landed⟩ | ⟨event, since, resolved⟩
  · exact Or.inl ⟨tid, entries, since.still he, List.mem_cons_of_mem _ landed⟩
  · exact Or.inr ⟨event, since.still he, List.mem_cons_of_mem _ resolved⟩

/-! ## The reason -/

/-- No reason yet, or the budget has expired. -/
def Undecided (x : Exec cfg S) : Prop := x.io.reason = .running ∨ x.io.reason = .stopped

theorem reason_inject (place : PlaceName) (token : Token V) (x : Exec cfg S) :
    (inject place token x).io.reason = x.io.reason := by
  unfold inject
  split
  · rfl
  · split
    · rfl
    · simp only [wakeUp_eq]

theorem reason_close (x : Exec cfg S) : (close x).io.reason = x.io.reason := by
  unfold close
  rw [wakeUp_eq]

/-- The host reaches the reason through an expired budget alone. -/
theorem reason_hostCall (ops : StoreOps cfg S) (x : Exec cfg S) (call : HostCall V) :
    (hostCall ops x call).io.reason = x.io.reason ∨
      (∃ closing, call = .expireBudget closing) ∧ x.io.reason = .running ∧
        (hostCall ops x call).io.reason = .stopped := by
  cases call with
  | inject place token => exact Or.inl (reason_inject _ _ _)
  | injectValue place value => exact Or.inl (reason_inject _ _ _)
  | injectNoAwait place value =>
    refine Or.inl ?_
    show (injectNoAwait place value x).io.reason = _
    unfold injectNoAwait
    split <;> exact reason_inject _ _ _
  | snapshot =>
    refine Or.inl ?_
    show (Executor.snapshot ops x).io.reason = _
    unfold Executor.snapshot
    split <;> rfl
  | drain =>
    refine Or.inl ?_
    show (drain x).io.reason = _
    unfold drain
    rw [wakeUp_eq]
  | close => exact Or.inl (reason_close x)
  | expireBudget closing =>
    show (expireBudget closing x).io.reason = _ ∨ _ ∧ _ ∧ (expireBudget closing x).io.reason = _
    have kept (y : Exec cfg S) : (if closing then close y else y).io.reason = y.io.reason := by
      cases closing with
      | true => exact reason_close y
      | false => rfl
    unfold expireBudget
    rw [kept]
    by_cases running : x.io.reason = .running
    · rw [if_pos running]
      exact Or.inr ⟨⟨closing, rfl⟩, running, rfl⟩
    · rw [if_neg running]
      exact Or.inl rfl

theorem undecided_hostStable {ops : StoreOps cfg S} : HostStable ops fun x => Undecided x where
  call x call h := by
    rcases reason_hostCall ops x call with same | ⟨_, _, stopped⟩
    · unfold Undecided
      rwa [same]
    · exact Or.inr stopped
  appended _ _ h := h
  epoch _ h := h

/-- A reason that has been decided stays. -/
theorem decided_hostStable {ops : StoreOps cfg S} {P : TerminationReason → Prop} (never : ¬ P .running) :
    HostStable ops fun x : Exec cfg S => P x.io.reason where
  call x call h := by
    rcases reason_hostCall ops x call with same | ⟨_, running, _⟩
    · rwa [same]
    · rw [running] at h
      exact absurd h never
  appended _ _ h := h
  epoch _ h := h

/-! ## The stages of a run -/

/-- No deposit has marked a terminal place. -/
def Unmarked {net : PetriNet V N} (history : List (Effect net)) : Prop :=
  ∀ e ∈ history, marksTerminal e = false

omit [LinearOrder N] in
theorem Unmarked.cons {net : PetriNet V N} {history : List (Effect net)} (h : Unmarked history)
    {e : Effect net} (he : marksTerminal e = false) : Unmarked (e :: history) :=
  List.forall_mem_cons.mpr ⟨he, h⟩

variable (cfg S) in
def terminalStages : Stages cfg S where
  loop x := x.ctl.terminalReached = false ∧ Unmarked x.history ∧ Undecided x
  stopped x := Undecided x ∧
    (Unmarked x.history ∨ x.ctl.terminalReached = true ∧ LastOperation x.history)
  ended x := x.io.reason ≠ .running ∧
    (Unmarked x.history ∨ (x.io.reason = .terminal ∨ x.io.reason = .stopped) ∧ LastOperation x.history)
  crashed x := Unmarked x.history

variable {B : Backend cfg S} {verdict : Tid cfg.net → Flight V N → Except Thrown Unit}

theorem unmarked_hostStable {ops : StoreOps cfg S} : HostStable ops fun x => Unmarked x.history :=
  HostStable.of_history fun _ _ outside h => h.cons (not_marksTerminal_of_still (still_of_external outside))

theorem lastOperation_hostStable {ops : StoreOps cfg S} : HostStable ops fun x => LastOperation x.history :=
  HostStable.of_history fun _ _ outside h => h.still (still_of_external outside)

theorem reached_hostStable {ops : StoreOps cfg S} (b : Bool) :
    HostStable ops fun x => x.ctl.terminalReached = b :=
  HostStable.of_internals fun i => i.ctl.terminalReached = b

theorem loop_apart : Apart B (terminalStages cfg S).loop :=
  { (reached_hostStable false).and (unmarked_hostStable.and undecided_hostStable) with
    bookkeeping := fun x c _ terminal _ h => ⟨terminal.trans h.1, h.2⟩
    clock := fun _ _ h => h
    starts := fun _ _ h => h
    reaped := fun _ _ h => ⟨h.1, h.2.1.cons rfl, h.2.2⟩
    stored := fun _ _ h => h
    withCaches := fun _ _ h => h
    unsettled := fun _ _ h => h
    ofFiring := fun x e firing h => ⟨h.1, h.2.1.cons (by cases e <;> first | rfl | cases firing), h.2.2⟩ }

/-- What a completion or an admission has deposited so far. -/
def Depositing (opening : Effect cfg.net) (done : List (PlaceName × Token V)) (x : Exec cfg S) : Prop :=
  Since opening done x.history ∧
    x.ctl.terminalReached = done.any (fun entry => decide (entry.1 ∈ cfg.net.terminals)) ∧ Undecided x

theorem depositing_hostStable {ops : StoreOps cfg S} (opening : Effect cfg.net)
    (done : List (PlaceName × Token V)) : HostStable ops (Depositing opening done (S := S)) :=
  (HostStable.of_history fun _ _ outside h => h.still (still_of_external outside)).and
    ((reached_hostStable _).and undecided_hostStable)

theorem depositing_aloof (opening : Effect cfg.net) (done : List (PlaceName × Token V)) :
    Aloof B (Depositing opening done) :=
  { depositing_hostStable opening done with
    bookkeeping := fun _ _ _ terminal _ h => ⟨h.1, terminal.trans h.2.1, h.2.2⟩
    clock := fun _ _ h => h
    starts := fun _ _ h => h
    reaped := fun _ _ h => ⟨h.1.still rfl, h.2⟩ }

theorem Depositing.deposit {opening : Effect cfg.net} {done : List (PlaceName × Token V)} {x y : Exec cfg S}
    (h : Depositing opening done x) {p : PlaceName} {token : Token V} (d : Deposited B p token x y)
    (io : y.io = x.io) (history : y.history = .deposited p token :: x.history) :
    Depositing opening (done ++ [(p, token)]) y := by
  obtain ⟨since, terminal, undecided⟩ := h
  refine ⟨?_, ?_, ?_⟩
  · rw [history]
    exact since.deposited p token
  · rw [d.terminal, terminal, List.any_append, Bool.or_comm]
    simp
  · unfold Undecided
    rwa [io]

/-- As long as no terminal place is among the deposits, nothing is marked. -/
theorem Depositing.unmarked {opening : Effect cfg.net} {done : List (PlaceName × Token V)} {x : Exec cfg S}
    (h : Depositing opening done x) (outset : marksTerminal opening = false)
    (clear : x.ctl.terminalReached = false) : Unmarked x.history := by
  obtain ⟨⟨recent, before, history, _, landed, earlier⟩, terminal, _⟩ := h
  rw [clear, eq_comm, List.any_eq_false] at terminal
  rw [history]
  intro e he
  rcases List.mem_append.mp he with he | he
  · unfold marksTerminal
    cases hdeposit : depositOf e with
    | none => rfl
    | some entry =>
      have inside : entry ∈ done := by
        rw [← landed, depositsIn, List.mem_reverse, List.mem_filterMap]
        exact ⟨e, he, hdeposit⟩
      exact Bool.eq_false_iff.mpr (terminal entry inside)
  · rcases List.mem_cons.mp he with rfl | he
    · exact outset
    · exact earlier e he

/-- Once everything has landed: the loop goes on, or has met its end. -/
theorem Depositing.standing (opening : Effect cfg.net) (done : List (PlaceName × Token V)) {x : Exec cfg S}
    (h : Depositing opening done x) (outset : marksTerminal opening = false)
    (last : x.ctl.terminalReached = true → LastOperation x.history) :
    (terminalStages cfg S).standing x := by
  cases reached : x.ctl.terminalReached with
  | false => exact Or.inl ⟨reached, h.unmarked outset reached, h.2.2⟩
  | true => exact Or.inr ⟨reached, h.2.2, Or.inr ⟨reached, last reached⟩⟩

theorem standing_aloof : Aloof B (terminalStages cfg S).standing :=
  { loop_apart.toHostStable.or ((reached_hostStable true).and (undecided_hostStable.and
      (unmarked_hostStable.or ((reached_hostStable true).and lastOperation_hostStable)))) with
    bookkeeping := fun _ _ _ terminal _ h => h.imp (fun h => ⟨terminal.trans h.1, h.2⟩) fun h =>
      ⟨terminal.trans h.1, h.2.1, h.2.2.imp id fun last => ⟨terminal.trans last.1, last.2⟩⟩
    clock := fun _ _ h => h
    starts := fun _ _ h => h
    reaped := fun _ _ h => h.imp (fun h => ⟨h.1, h.2.1.cons rfl, h.2.2⟩) fun h =>
      ⟨h.1, h.2.1, h.2.2.imp (fun unmarked => unmarked.cons rfl) fun last => ⟨last.1, last.2.still rfl⟩⟩ }

theorem completion_terminal {tid : Tid cfg.net} {flight : Flight V N} {x : Exec cfg S}
    (h : (terminalStages cfg S).loop x) :
    CompletionRule B tid flight x (Depositing (.settled tid flight.entries)) (terminalStages cfg S).loop
      (terminalStages cfg S).standing (terminalStages cfg S).crashed where
  start := ⟨⟨[], x.history, rfl, nofun, rfl, h.2.1⟩, h.1, h.2.2⟩
  aloof := depositing_aloof _
  deposit _ _ _ _ _ _ hx _ d io history := hx.deposit d io history
  lands _ hy := Depositing.standing (.settled tid flight.entries) flight.entries
    ⟨hy.1.still rfl, hy.2⟩ rfl fun _ => Or.inl ⟨tid, flight.entries, hy.1.still rfl, List.mem_cons_self⟩
  aloofQ := standing_aloof
  refused _ hy := ⟨hy.2.1, (hy.unmarked rfl hy.2.1).cons rfl, hy.2.2⟩
  failed := ⟨h.1, (h.2.1.cons rfl).cons rfl, h.2.2⟩
  aloofF := loop_apart.toAloof
  fails _ := Or.inl
  crashes _ hy := hy.2.1

/-- A property of history, terminal flag and reason survives what moves between the steps. -/
theorem Ambient.of_hostStable {I : Exec cfg S → Prop} (stable : HostStable B.toStoreOps I)
    (same : ∀ x y, y.history = x.history → y.ctl = x.ctl → y.io.reason = x.io.reason → I x → I y) :
    Ambient B I :=
  { stable with
    update := fun x _ _ _ h _ _ => same x _ rfl rfl rfl h
    delivered := fun x _ h _ => same x _ rfl rfl (by rw [wakeUp_eq]) h
    raceSettled := fun x h => same x _ rfl rfl rfl h
    epochs := fun x _ h => same x _ rfl rfl rfl h }

theorem terminal_steady (conforms : Conforms B verdict) : Steady B verdict (terminalStages cfg S) where
  loop := loop_apart.toAloof
  io x io same h := ⟨h.1, h.2.1, by unfold Undecided; rw [same]; exact h.2.2⟩
  update _ _ _ _ h _ _ := h
  seeded _ _ _ h := ⟨h.2.2, Or.inl h.2.1⟩
  fire _ _ h coherent on _ :=
    (loop_apart.firingRule (fun _ hx => hx.2.1) h).fireTransitionContained conforms coherent on
  complete _ _ _ h _ held lands := (completion_terminal h).completeTransition conforms held lands
  takes i event x h _ projects := by
    refine admitEvent_rule conforms projects
      (A := Depositing (.admitting event) [(event.place, event.token)]) (depositing_hostStable _ _)
      (fun y d io history => ?_) fun y hy => ?_
    · have taken : Depositing (.admitting event) [] (admittingAt i event x) :=
        ⟨⟨[], x.history, rfl, nofun, rfl, h.2.1⟩, h.1, h.2.2⟩
      exact taken.deposit d io history
    · exact Depositing.standing (.admitting event) [(event.place, event.token)]
        ⟨hy.1.still rfl, hy.2⟩ rfl fun _ => Or.inr ⟨event, hy.1.still rfl, List.mem_cons_self⟩
  exits _ h := ⟨h.2.2, Or.inl h.2.1⟩
  stopped := Ambient.of_hostStable
    (undecided_hostStable.and (unmarked_hostStable.or ((reached_hostStable true).and lastOperation_hostStable)))
    fun x y history ctl reason h => by
      simp only [terminalStages, Undecided] at h ⊢
      rwa [history, ctl, reason]
  ioStopped x io same h := ⟨by unfold Undecided; rw [same]; exact h.1, h.2⟩
  refused _ _ h := ⟨h.1, h.2.imp (fun unmarked => unmarked.cons rfl) fun last => ⟨last.1, last.2.still rfl⟩⟩
  finishes x h := by
    obtain ⟨undecided, unmarked | ⟨reached, last⟩⟩ := h
    · refine ⟨?_, Or.inl unmarked⟩
      show outcome x ≠ _
      unfold outcome
      rcases undecided with running | stopped
      · rw [if_pos running]
        cases x.ctl.terminalReached <;> cases x.io.closed <;> simp
      · rw [stopped]
        simp
    · have decided : outcome x = .terminal ∨ outcome x = .stopped := by
        unfold outcome
        rcases undecided with running | stopped
        · rw [if_pos running, if_pos reached]
          exact Or.inl rfl
        · rw [stopped]
          exact Or.inr rfl
      refine ⟨fun running => ?_, Or.inr ⟨decided, last⟩⟩
      rcases decided with terminal | stopped
      · cases terminal.symm.trans running
      · cases stopped.symm.trans running
  ended := Ambient.of_hostStable
    ((decided_hostStable (P := fun r => r ≠ .running) fun h => h rfl).and (unmarked_hostStable.or
      ((decided_hostStable (P := fun r => r = .terminal ∨ r = .stopped) nofun).and lastOperation_hostStable)))
    fun x y history ctl reason h => by
      simp only [terminalStages] at h ⊢
      rwa [history, reason]
  clockEnded _ _ h := h
  recorded _ h := ⟨h.1, h.2.imp (fun unmarked => unmarked.cons rfl) fun last => ⟨last.1, last.2.still rfl⟩⟩
  crashes _ h := h.2.1
  crashed := Ambient.of_hostStable unmarked_hostStable fun x y history _ _ h => by
    simp only [terminalStages] at h ⊢
    rwa [history]

/-! ## The end of the run -/

/-- `executeLoop` past its loop ends the run, for the reason that stands by then. -/
theorem finishLoop_outcome (x : Exec cfg S) (E : Thrown → Exec cfg S → Prop) :
    Prog.Spec (· = x) (finishLoop B) (fun _ y => outcome x ≠ .running → y.io.reason = outcome x) E := by
  let Same (y : Exec cfg S) : Prop := outcome y = outcome x
  refine Prog.Spec.modify_bind (R := Same) ?_ (by rintro _ rfl; rfl)
  refine Prog.Spec.bind (Q := fun _ => Same) ?_ fun _ => ?_
  · refine Prog.Spec.gets_bind fun pending => Prog.Spec.modify_bind (R := Same) ?_ fun y hy => hy.1
    exact Prog.Spec.each fun event _ y hy => hy
  let Given (y : Exec cfg S) : Prop := outcome x ≠ .running → y.io.reason = outcome x
  have given : HostStable B.toStoreOps Given := by
    by_cases running : outcome x = .running
    · exact
        { call := fun _ _ _ ne => absurd running ne, appended := fun _ _ _ ne => absurd running ne
          epoch := fun _ _ ne => absurd running ne }
    · have stays : HostStable B.toStoreOps fun y : Exec cfg S => y.io.reason = outcome x :=
        decided_hostStable (P := fun r => r = outcome x) fun h => running h.symm
      exact
        { call := fun y call h ne => stays.call y call (h ne)
          appended := fun y event h ne => stays.appended y event (h ne)
          epoch := fun y h ne => stays.epoch y (h ne) }
  refine Prog.Spec.modify_bind (R := Given) ?_ fun y hy _ => hy
  refine Prog.Spec.gets_bind fun marking => ?_
  refine Prog.Spec.bind ((given.emitEvent _).conseq (fun x hx => hx.1) (fun _ _ => id) fun _ _ => id)
    fun _ => ?_
  refine Prog.Spec.bind (Q := fun _ => Given) (fun _ hy => hy) fun now => ?_
  refine Prog.Spec.gets_bind fun startMs => ?_
  refine Prog.Spec.bind ((given.emitEvent _).conseq (fun x hx => hx.1) (fun _ _ => id) fun _ _ => id)
    fun _ => ?_
  exact fun _ hy => hy

/-- A deposit has marked a terminal place: the operation it belongs to is the last one, and complete;
two turns later the run has ended, for the terminal place unless a budget had expired. -/
structure TerminalStop [Value V] (B : Backend cfg S) (m : Machine cfg S) : Prop where
  last : LastOperation m.exec.history
  ends : (run B m [.tick, .tick]).phase = .ended
  reason : (run B m [.tick, .tick]).exec.io.reason =
    if m.exec.io.reason = .stopped then .stopped else .terminal

section

variable [Value V]

theorem step_tick {m : Machine cfg S} {Q : Phase cfg.net → Exec cfg S → Prop}
    (h : Prog.Spec (· = m.exec) (executeLoop B m.phase) Q fun _ _ => False) :
    Q (step B m .tick).phase (step B m .tick).exec := by
  rcases ran : (executeLoop B m.phase).run m.exec with ⟨e | phase, y⟩
  · exact (h.of_error rfl ran).elim
  · have turn : step B m .tick = ⟨y, phase⟩ := by
      have ran : (perform B m.phase .tick).run m.exec = (.ok phase, y) := ran
      simp only [step, ran]
    rw [turn]
    exact h.of_ok rfl ran

omit [Value V] in
theorem outcome_reached {x : Exec cfg S} (undecided : Undecided x) (reached : x.ctl.terminalReached = true) :
    outcome x = if x.io.reason = .stopped then .stopped else .terminal := by
  unfold outcome
  rcases undecided with running | stopped
  · rw [if_pos running, if_pos reached, running]
    rfl
  · rw [stopped]
    rfl

theorem exit_ends {x : Exec cfg S} (undecided : Undecided x) (reached : x.ctl.terminalReached = true) :
    (step B ⟨x, .exit⟩ .tick).phase = .ended ∧ (step B ⟨x, .exit⟩ .tick).exec.io.reason =
      if x.io.reason = .stopped then .stopped else .terminal := by
  refine step_tick (Q := fun phase y => phase = .ended ∧ y.io.reason = _)
    (Prog.Spec.bind (finishLoop_outcome x _) fun _ y hy => ⟨rfl, ?_⟩)
  rw [outcome_reached undecided reached] at hy
  refine hy ?_
  split <;> simp

theorem head_leaves {x : Exec cfg S} (reached : x.ctl.terminalReached = true) :
    step B ⟨x, .head⟩ .tick = ⟨x, .exit⟩ := by
  have leaves := step_tick (B := B) (m := ⟨x, .head⟩) (Q := fun phase y => y = x ∧ phase = .exit) ?_
  · exact congrArg₂ Machine.mk leaves.1 leaves.2
  · refine Prog.Spec.gets_bind fun y => Prog.Spec.ite (fun runs => ?_) fun _ z hz => ⟨hz.1, rfl⟩
    rintro z ⟨rfl, rfl⟩
    simp [reached] at runs

theorem ended_rests {m : Machine cfg S} (ended : m.phase = .ended) : step B m .tick = m := by
  obtain ⟨x, phase⟩ := m
  cases ended
  rfl

omit [Value V] in
theorem loop_of_built {x : Exec cfg S} (built : Built B x) : (terminalStages cfg S).loop x := by
  obtain ⟨caches, _, ctl⟩ := built.ctl
  obtain ⟨reads, appends, io⟩ := built.io
  obtain ⟨events, history⟩ := built.history
  refine ⟨by rw [ctl]; rfl, ?_, Or.inl (by rw [io]; rfl)⟩
  rw [history]
  intro e he
  -- warnings of the constructor, and the seed
  rcases List.mem_append.mp he with he | he
  · obtain ⟨event, _, rfl⟩ := List.mem_map.mp he
    rfl
  · obtain ⟨entry, _, he⟩ := List.mem_flatMap.mp (List.mem_reverse.mp he)
    obtain ⟨token, _, rfl⟩ := List.mem_map.mp he
    rfl

theorem terminal_stop (conforms : Conforms B verdict) {new : Except Thrown (Exec cfg S)}
    (built : ∀ x, new = .ok x → Built B x) {m : Machine cfg S}
    (run : ReachableBy B new (CleanDeposits B verdict) m) (marked : ¬ Unmarked m.exec.history) :
    TerminalStop B m := by
  have stage := ((terminal_steady conforms).reachable conforms built
    (fun x hx => loop_of_built (built x hx)) run).1
  obtain ⟨x, phase⟩ := m
  have last_of (h : (terminalStages cfg S).stopped x) :
      Undecided x ∧ x.ctl.terminalReached = true ∧ LastOperation x.history :=
    ⟨h.1, h.2.resolve_left marked⟩
  cases phase with
  | created | completing | «external» | admitting | scan | deadlines | firingImmediate | firingGeneral | fired
  | flush | parked | resuming => exact absurd stage.2.1 marked
  | crashed => exact absurd stage marked
  | head =>
    obtain ⟨undecided, reached, last⟩ := last_of (stage.resolve_left fun h => marked h.2.1).2
    have leaves := head_leaves (B := B) reached
    have ends := exit_ends (B := B) undecided reached
    rw [← leaves] at ends
    exact ⟨last, ends.1, ends.2⟩
  | exit =>
    obtain ⟨undecided, reached, last⟩ := last_of stage
    have ends := exit_ends (B := B) undecided reached
    have rests := ended_rests (B := B) ends.1
    refine ⟨last, (congrArg Machine.phase rests).trans ends.1, ?_⟩
    exact (congrArg (fun m => m.exec.io.reason) rests).trans ends.2
  | ended =>
    obtain ⟨reason, last⟩ := stage.2.resolve_left marked
    refine ⟨last, rfl, ?_⟩
    show x.io.reason = if x.io.reason = .stopped then .stopped else .terminal
    rcases reason with terminal | stopped
    · rw [terminal]
      rfl
    · rw [stopped]
      rfl

/-- In both executors, along every run whose deposits go through. -/
theorem terminal_deposit_stops [ToString N] (cfg : Setting V N) :
    (∀ m, ReachableBy (BitmapNetExecutor.backend cfg) (BitmapNetExecutor.new cfg)
      (CleanDeposits (BitmapNetExecutor.backend cfg) BitmapNetExecutor.verdict) m →
      ∀ p token, .deposited p token ∈ m.exec.history → p ∈ cfg.net.terminals →
        TerminalStop (BitmapNetExecutor.backend cfg) m) ∧
    ∀ m, ReachableBy (PrecompiledNetExecutor.backend cfg) (PrecompiledNetExecutor.new cfg)
      (CleanDeposits (PrecompiledNetExecutor.backend cfg) PrecompiledNetExecutor.verdict) m →
      ∀ p token, .deposited p token ∈ m.exec.history → p ∈ cfg.net.terminals →
        TerminalStop (PrecompiledNetExecutor.backend cfg) m := by
  have marks {net : PetriNet V N} {history : List (Effect net)} {p : PlaceName} {token : Token V}
      (deposit : .deposited p token ∈ history) (terminal : p ∈ net.terminals) : ¬ Unmarked history := by
    intro unmarked
    have clear := unmarked _ deposit
    simp [marksTerminal, depositOf, terminal] at clear
  constructor
  · intro m reachable p token deposit terminal
    exact terminal_stop BitmapNetExecutor.conforms (fun _ hx => (BitmapNetExecutor.built hx).1) reachable
      (marks deposit terminal)
  · intro m reachable p token deposit terminal
    exact terminal_stop PrecompiledNetExecutor.conforms (fun _ hx => (PrecompiledNetExecutor.built hx).1)
      reachable (marks deposit terminal)

end

/-! ## A run that finishes -/

theorem job_nodup : ([In.one "job"].map In.place).Nodup := by decide

theorem job_required : ∀ spec ∈ [In.one "job"], 1 ≤ spec.requiredCount := by decide

def finishNet : PetriNet (Option Nat) Nat where
  name := "finish"
  places := ["job", "done"]
  transitions := [plain "finish" [.one "job"] (some (.place "done")) .immediate job_nodup job_required trivial]
  terminals := ["done"]
  terminals_declared := by decide

/-- One job, whose action writes its output at once. -/
def finishSetting : Setting (Option Nat) Nat :=
  { quiet finishNet [("job", [⟨none, 0⟩])] with start := fun _ => ⟨none, [.output "done" none]⟩ }

/-- The job runs, its action settles, and its completion is taken up. -/
def finishing : List (Label finishSetting) :=
  List.replicate 15 .tick ++ [.settle ⟨0, by decide⟩ none, .deliver ⟨0, by decide⟩] ++
    List.replicate 4 .tick

/-- The completion has marked the terminal place. -/
theorem terminal_deposit_stops_finishing : ∃ m : Machine finishSetting (BitmapStore finishSetting),
    m.phase = .exit ∧ TerminalStop (BitmapNetExecutor.backend finishSetting) m := by
  have finished : ∃ m, ReachableBy (BitmapNetExecutor.backend finishSetting)
      (BitmapNetExecutor.new finishSetting)
      (CleanDeposits (BitmapNetExecutor.backend finishSetting) BitmapNetExecutor.verdict) m ∧
        m.phase = .exit ∧ .deposited "done" ⟨none, 0⟩ ∈ m.exec.history :=
    ⟨_, ⟨_, rfl, Reaches.foldl_allOk finishing (by decide +kernel) .start⟩, by decide +kernel,
      by decide +kernel⟩
  obtain ⟨m, reachable, exits, deposit⟩ := finished
  exact ⟨m, exits, (terminal_deposit_stops finishSetting).1 m reachable "done" _ deposit (by decide)⟩

/-- A job whose second output feeds a join. -/
def joinFinishSetting : Setting (Option Nat) Nat :=
  { quiet
      { name := "finish"
        places := ["job", "done", "left", "right", "more"]
        transitions := [
          plain "finish" [.one "job"] (some (.and [.place "done", .place "left", .place "more"])) .immediate
            job_nodup job_required trivial, join]
        terminals := ["done"]
        terminals_declared := by decide }
      [("job", [⟨none, 0⟩])] with
    start := fun _ => ⟨none, [.output "done" none, .output "left" (some 0), .output "more" none]⟩ }

/-- A budget that expires before the completion is taken up decides the reason, and a projection that
throws behind the terminal deposit keeps the rest of the outputs from landing. -/
theorem finish_stopped :
    (∃ m : Machine finishSetting (BitmapStore finishSetting),
      Reachable (BitmapNetExecutor.backend finishSetting) (BitmapNetExecutor.new finishSetting) m ∧
        .deposited "done" ⟨none, 0⟩ ∈ m.exec.history ∧ m.phase = .ended ∧ m.exec.io.reason ≠ .terminal) ∧
    ∃ m : Machine joinFinishSetting (BitmapStore joinFinishSetting),
      Reachable (BitmapNetExecutor.backend joinFinishSetting)
        (BitmapNetExecutor.new joinFinishSetting) m ∧
        .deposited "done" ⟨none, 0⟩ ∈ m.exec.history ∧ m.phase = .ended ∧
        ∀ entry ∈ depositsIn m.exec.history, entry.1 ≠ "more" := by
  refine ⟨⟨_, ⟨_, rfl, Reaches.foldl (List.replicate 15 .tick ++ [.settle ⟨0, by decide⟩ none,
    .deliver ⟨0, by decide⟩, .call (.expireBudget false)] ++ List.replicate 5 .tick) .start⟩, ?_⟩,
    ⟨_, ⟨_, rfl, Reaches.foldl (List.replicate 17 .tick ++ [.settle ⟨0, by decide⟩ none,
    .deliver ⟨0, by decide⟩] ++ List.replicate 5 .tick) .start⟩, ?_⟩⟩
  · decide +kernel
  · decide +kernel

end LibPetri.Verified

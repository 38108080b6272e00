import LibPetri.Verified.Backends
import LibPetri.Verified.Interleaving

/-! # Coherence along runs

Every step of an executor keeps its state coherent, as long as no deposit meets a projection that
throws.
-/

namespace LibPetri.Verified

open LibPetri.Basis LibPetri.Core LibPetri.Runtime CompiledNet Executor

variable {V N : Type} [LinearOrder N] {cfg : Setting V N} {S : Type}

/-! ## Deposits that go through -/

theorem Projects.congr {caches caches' : Caches cfg} (live : ∀ tid, (caches' tid).isSome = (caches tid).isSome)
    {p : PlaceName} {token : Token V} (h : Projects caches p token) : Projects caches' p token := by
  intro known target htarget alive
  rw [live] at alive
  exact h known target htarget alive

/-- What the firing of `tid` in flight has written can be deposited, if it comes to that. -/
def Lands (B : Backend cfg S) (verdict : Tid cfg.net → Flight V N → Except Thrown Unit)
    (tid : Tid cfg.net) (x : Exec cfg S) : Prop :=
  ∀ flight, B.flight? tid x.store = some flight → flight.error.filter Thrown.truthy = none →
    verdict tid flight = .ok () → ∀ entry ∈ flight.entries, Projects x.ctl.matchCaches entry.1 entry.2

/-- No deposit of the step from this program point meets a projection of a live cache that throws:
neither one of what a completed firing has written, nor that of an event that is admitted. -/
def DepositsCleanly (B : Backend cfg S) (verdict : Tid cfg.net → Flight V N → Except Thrown Unit)
    (phase : Phase cfg.net) (x : Exec cfg S) : Prop :=
  match phase with
  | .completing i _ => ∀ tid, x.io.completionQueue[i]? = some tid → Lands B verdict tid x
  | .admitting i _ => ∀ event, x.io.externalQueue[i]? = some event →
    Projects x.ctl.matchCaches event.place event.token
  | _ => True

/-- The same of a step of the machine. -/
def CleanDeposits (B : Backend cfg S) (verdict : Tid cfg.net → Flight V N → Except Thrown Unit)
    (m : Machine cfg S) (label : Label cfg) : Prop :=
  label = .tick → DepositsCleanly B verdict m.phase m.exec

section Decidable

variable (B : Backend cfg S) (verdict : Tid cfg.net → Flight V N → Except Thrown Unit)

instance decidablePasses : (answer : Except Thrown Unit) → Decidable (answer = .ok ())
  | .ok _ => .isTrue rfl
  | .error _ => .isFalse nofun

instance (tid : Tid cfg.net) (x : Exec cfg S) : Decidable (Lands B verdict tid x) :=
  have (flight : Flight V N) : Decidable (flight.error.filter Thrown.truthy = none) :=
    decidable_of_iff _ Option.isNone_iff_eq_none
  have (flight : Flight V N) : Decidable (verdict tid flight = .ok ()) := decidablePasses _
  inferInstanceAs (Decidable (∀ flight ∈ B.flight? tid x.store, _ → _ → ∀ entry ∈ flight.entries, _))

instance (phase : Phase cfg.net) (x : Exec cfg S) : Decidable (DepositsCleanly B verdict phase x) :=
  match phase with
  | .completing i _ => inferInstanceAs (Decidable (∀ tid ∈ x.io.completionQueue[i]?, _))
  | .admitting i _ => inferInstanceAs (Decidable (∀ event ∈ x.io.externalQueue[i]?, _))
  | .created | .head | .external | .scan | .deadlines | .firingImmediate _ | .firingGeneral _ _ | .fired
  | .flush | .parked _ | .resuming | .exit | .ended | .crashed _ => inferInstanceAs (Decidable True)

instance (m : Machine cfg S) (label : Label cfg) : Decidable (CleanDeposits B verdict m label) :=
  match label with
  | .tick => decidable_of_iff (DepositsCleanly B verdict m.phase m.exec) ⟨fun h _ => h, fun h => h rfl⟩
  | .call _ | .act _ _ | .settle _ _ | .timeOut _ | .deliver _ | .timer => .isTrue nofun

end Decidable

/-! ## Completions -/

variable {B : Backend cfg S} {verdict : Tid cfg.net → Flight V N → Except Thrown Unit}
  {tid : Tid cfg.net}

theorem coherentBut_hostStable : HostStable B.toStoreOps (CoherentBut B tid) :=
  HostStable.of_respects fun _ _ same h =>
    { h.toFlagged.internals same with
      marked := fun p hp => (h.marked p hp).internals same
      settled := fun other ne => (h.settled other ne).internals same }

theorem Coherent.withIo {x : Exec cfg S} (h : Coherent B x) (io : Io cfg.net) :
    Coherent B { x with io := io } :=
  ⟨⟨h.counted, h.exclusive, h.flights⟩, h.marked, h.settled⟩

theorem Coherent.noted {x : Exec cfg S} (masks : ByMasks B) (h : Coherent B x) (e : Effect cfg.net)
    (moves : ∀ p, ¬ touches e p) : Coherent B (recorded e x) :=
  { h.toFlagged with
    marked := h.marked
    settled := fun other => (h.settled other).untouched masks ⟨fun _ _ => rfl, rfl⟩
      (fun _ _ => rfl) rfl id id fun reaped => reaped.cons fun p _ => moves p }

/-- A completion in progress: the firing is off the books, its transition not yet marked dirty. -/
structure Completing (B : Backend cfg S) (tid : Tid cfg.net) (live : Tid cfg.net → Bool)
    (x : Exec cfg S) : Prop extends CoherentBut B tid x where
  live : ∀ other, (x.ctl.matchCaches other).isSome = live other

theorem completing_hostStable {live : Tid cfg.net → Bool} :
    HostStable B.toStoreOps (Completing B tid live) := by
  have mid : HostStable B.toStoreOps (CoherentBut B tid) := coherentBut_hostStable
  have both := mid.and
    (HostStable.of_internals fun i => ∀ other, (i.ctl.matchCaches other).isSome = live other)
  exact
    { call := fun x call h => have h := both.call x call ⟨h.1, h.2⟩; ⟨h.1, h.2⟩
      appended := fun x event h => have h := both.appended x event ⟨h.1, h.2⟩; ⟨h.1, h.2⟩
      epoch := fun x h => have h := both.epoch x ⟨h.1, h.2⟩; ⟨h.1, h.2⟩ }

theorem Deposited.isSome_cache {p : PlaceName} {token : Token V} {x y : Exec cfg S}
    (d : Deposited B p token x y) (other : Tid cfg.net) :
    (y.ctl.matchCaches other).isSome = (x.ctl.matchCaches other).isSome := by
  rcases d.caches with ⟨same, _⟩ | ⟨_, mirrored⟩
  · rw [same]
  · rw [mirrored, isSome_mirrorAll]

theorem Deposited.completing {p : PlaceName} {token : Token V} {x y : Exec cfg S}
    {live : Tid cfg.net → Bool} (d : Deposited B p token x y) (masks : ByMasks B)
    (h : Completing B tid live x) : Completing B tid live y :=
  { d.flagged h.toFlagged with
    marked := fun q known => d.marked known (h.marked q known)
    settled := fun other ne => d.settled masks (h.settled other ne)
    live := fun other => (d.isSome_cache other).trans (h.live other) }

theorem CoherentBut.dirtied {x : Exec cfg S} (masks : ByMasks B) (h : CoherentBut B tid x) :
    Coherent B { x with ctl := { x.ctl with dirtySet := x.ctl.dirtySet.setBit tid } } :=
  { counted := h.counted, exclusive := h.exclusive, flights := h.flights, marked := h.marked
    settled := fun other => by
      have marks (j : Tid cfg.net) : (x.ctl.dirtySet.setBit tid).testBit j =
          (decide (tid.val = j.val) || x.ctl.dirtySet.testBit j) := Bitset.testBit_setBit _ tid.isLt _
      by_cases same : other = tid
      · subst same
        refine Or.inr (Or.inl ((marks other).trans ?_))
        simp
      · exact (h.settled other same).untouched masks ⟨fun _ _ => rfl, rfl⟩ (fun _ _ => rfl) rfl
          (fun dirty => (marks other).trans (by rw [dirty, Bool.or_true])) id id }

theorem failCompletion_spec (masks : ByMasks B) (e : Thrown) :
    Prog.Spec (CoherentBut B tid) (failCompletion B tid e) (fun _ => Coherent B) fun _ _ => True := by
  refine Prog.Spec.modify_bind (R := CoherentBut B tid) ?_ fun x h =>
    { h.toFlagged with
      marked := h.marked
      settled := fun other ne => (h.settled other ne).untouched masks ⟨fun _ _ => rfl, rfl⟩ (fun _ _ => rfl)
        rfl id id fun reaped => reaped.cons fun _ _ => id }
  refine Prog.Spec.lift_bind (fun err _ => ?_) fun _ _ _ _ => trivial
  exact Prog.Spec.bind (coherentBut_hostStable.emitFailed _ _) fun _ x h => h.dirtied masks

/-- A firing in flight is taken off the books. -/
theorem Coherent.unregistered {x : Exec cfg S} (backend : LawfulBackend B) (h : Coherent B x)
    (e : Effect cfg.net) (moves : ∀ p, ¬ touches e p) :
    CoherentBut B tid (recorded e { x with
      store := B.unregister tid x.store
      ctl := { x.ctl with inFlightFlags := Function.update x.ctl.inFlightFlags tid false } }) where
  counted := h.counted
  exclusive other enabled := by
    show Function.update x.ctl.inFlightFlags tid false other = false
    rw [Function.update_apply]
    split
    · rfl
    · exact h.exclusive other enabled
  flights other := by
    show Function.update x.ctl.inFlightFlags tid false other = (B.flight? other (B.unregister tid x.store)).isSome
    rw [Function.update_apply, backend.lawful.flight?_unregister]
    split
    · rfl
    · exact h.flights other
  marked p known := by
    show x.ctl.markingBitmap.testBit _ = !(B.queue p (B.unregister tid x.store)).isEmpty
    rw [backend.lawful.queue_unregister]
    exact h.marked p known
  settled other ne := by
    refine (h.settled other).untouched backend.masks
      ⟨fun p _ => backend.lawful.queue_unregister tid x.store p, rfl⟩ (fun _ _ => rfl) rfl id
      (fun inFlight => ?_) fun reaped => reaped.cons fun p _ => moves p
    show Function.update x.ctl.inFlightFlags tid false other = true
    rw [Function.update_of_ne ne]
    exact inFlight

variable (conforms : Conforms B verdict)
include conforms

theorem depositOutputs_spec {live : Tid cfg.net → Bool} (flight : Flight V N)
    (lands : ∀ x, Completing B tid live x → verdict tid flight = .ok () →
      ∀ entry ∈ flight.entries, Projects x.ctl.matchCaches entry.1 entry.2) :
    Prog.Spec (Completing B tid live) (depositOutputs B tid flight) (fun _ => Coherent B)
      fun _ => CoherentBut B tid := by
  have stable : HostStable B.toStoreOps (Completing B tid live) := completing_hostStable
  refine Prog.Spec.bind (conforms.validates tid flight stable
    (fun x warned h => ⟨⟨⟨h.counted, h.exclusive, h.flights⟩, h.marked, h.settled⟩, h.live⟩)
    fun x e h _ => h.toCoherentBut) fun _ => ?_
  refine Prog.Spec.bind (Q := fun _ => Completing B tid live) ?_ fun _ => ?_
  · refine (Prog.Spec.each (P := fun x => verdict tid flight = .ok () ∧ Completing B tid live x)
      fun entry hentry => ?_).conseq (fun _ => id) (fun _ _ h => h.2) fun _ _ => id
    rintro x ⟨valid, hx⟩
    have deposit := conforms.deposits (transition tid).name (I := Completing B tid live)
      (E := fun _ => CoherentBut B tid) (lands x hx valid entry hentry) stable
      fun y d _ _ => d.completing conforms.masks hx
    exact Prog.Spec.bind deposit (fun _ => (stable.emitEvent _).conseq (fun _ => id)
      (fun _ _ h => ⟨valid, h⟩) fun _ _ => id) x rfl
  -- every output has landed
  refine Prog.Spec.modify_bind (R := Coherent B) ?_ fun x h => h.toCoherentBut.dirtied conforms.masks
  refine Prog.Spec.modify_bind (R := Coherent B) ?_ fun x h =>
    ⟨⟨h.counted, h.exclusive, h.flights⟩, h.marked, h.settled⟩
  refine Prog.Spec.modify_bind (R := Coherent B) ?_ fun x h => h.noted conforms.masks _ fun _ => id
  exact Prog.Spec.bind (Q := fun _ => Coherent B) (fun x h => h.withIo _) fun _ => (coherent_hostStable B).emitEvent _

theorem completeTransition_spec :
    Prog.Spec (fun x => Coherent B x ∧ Lands B verdict tid x) (completeTransition B tid)
      (fun _ => Coherent B) fun _ _ => True := by
  refine Prog.Spec.of_each fun x hx => Prog.Spec.gets_at ?_
  cases held : B.flight? tid x.store with
  | none =>
    rintro _ rfl
    exact hx.1
  | some flight =>
    let live (other : Tid cfg.net) : Bool := (x.ctl.matchCaches other).isSome
    refine Prog.Spec.modify_bind (R := (· = recorded (.settled tid flight.entries) x)) ?_
      (by rintro _ rfl; rfl)
    refine Prog.Spec.modify_bind (R := (· = recorded (.settled tid flight.entries)
      (stored (B.unregister tid x.store) x))) ?_ (by rintro _ rfl; rfl)
    refine Prog.Spec.modify_bind (R := Completing B tid live) ?_ ?_
    · cases failed : flight.error.filter Thrown.truthy with
      | some e =>
        exact (failCompletion_spec conforms.masks e).conseq (fun y h => h.toCoherentBut)
          (fun _ _ => id) fun _ _ => id
      | none =>
        refine Prog.Spec.modify_bind (R := Completing B tid live) ?_ fun y h =>
          ⟨⟨⟨h.counted, h.exclusive, h.flights⟩, h.marked, h.settled⟩, h.live⟩
        refine Prog.Spec.tryCatch (depositOutputs_spec conforms flight fun y hy valid entry hentry => ?_)
          fun e => ?_
        · exact (hx.2 flight held failed valid entry hentry).congr hy.live
        · exact Prog.Spec.modify_bind (failCompletion_spec conforms.masks e) fun y h =>
            ⟨⟨h.counted, h.exclusive, h.flights⟩, h.marked, h.settled⟩
    · rintro _ rfl
      exact ⟨hx.1.unregistered conforms.toLawfulBackend (.settled tid flight.entries) fun _ => id, fun _ => rfl⟩

/-! ## External events -/

theorem admitEvent_spec (i : Nat) (event : ExternalEvent V) :
    Prog.Spec (fun x => Coherent B x ∧ Projects x.ctl.matchCaches event.place event.token)
      (admitEvent B i event) (fun _ => Coherent B) fun _ _ => True := by
  refine Prog.Spec.modify_bind
    (R := fun x => Coherent B x ∧ Projects x.ctl.matchCaches event.place event.token) ?_
    fun x h => ⟨h.1.withIo _, h.2⟩
  refine Prog.Spec.modify_bind
    (R := fun x => Coherent B x ∧ Projects x.ctl.matchCaches event.place event.token) ?_
    fun x h => ⟨h.1.noted conforms.masks _ fun _ => id, h.2⟩
  have stable := coherent_hostStable B
  refine Prog.Spec.tryCatch (E := fun _ _ => False) (Prog.Spec.of_each fun x hx => ?_)
    fun _ _ => False.elim
  refine Prog.Spec.bind (conforms.deposits "" (I := Coherent B) hx.2 stable fun y d _ _ => ?_) fun _ => ?_
  · exact
      { d.flagged hx.1.toFlagged with
        marked := fun q known => d.marked known (hx.1.marked q known)
        settled := fun other => d.settled conforms.masks (hx.1.settled other) }
  · exact Prog.Spec.bind (stable.emitEvent _) fun _ y h => h.noted conforms.masks _ fun _ => id

/-! ## Before and after the loop -/

omit conforms

/-- Before the loop nothing is enabled, in flight or marked. -/
structure Fresh (B : Backend cfg S) (x : Exec cfg S) : Prop extends Flagged B x where
  unmarked : x.ctl.markingBitmap = Bitset.empty

theorem testBit_foldl_marks {n : Nat} (empty : Nat → Bool) (ids : List Nat) (inside : ∀ i ∈ ids, i < n)
    (bits : Bitset n) (j : Nat) :
    (ids.foldl (fun bits i => if empty i then bits else bits.setBit i) bits).testBit j = true ↔
      bits.testBit j = true ∨ j ∈ ids ∧ empty j = false := by
  induction ids generalizing bits with
  | nil => simp
  | cons i ids ih =>
    rw [List.foldl_cons, ih fun k hk => inside k (List.mem_cons_of_mem _ hk), List.mem_cons]
    by_cases vacant : empty i = true
    · rw [if_pos vacant]
      refine or_congr Iff.rfl ⟨fun h => ⟨Or.inr h.1, h.2⟩, fun h => ⟨h.1.resolve_left ?_, h.2⟩⟩
      rintro rfl
      rw [h.2] at vacant
      cases vacant
    · rw [if_neg vacant, Bitset.testBit_setBit _ (inside i List.mem_cons_self), Bool.or_eq_true,
        decide_eq_true_eq, Bool.not_eq_true] at *
      constructor
      · rintro ((rfl | h) | h)
        · exact Or.inr ⟨Or.inl rfl, vacant⟩
        · exact Or.inl h
        · exact Or.inr ⟨Or.inr h.1, h.2⟩
      · rintro (h | ⟨rfl | h, occupied⟩)
        · exact Or.inl (Or.inr h)
        · exact Or.inl (Or.inl rfl)
        · exact Or.inr ⟨h, occupied⟩

theorem fresh_hostStable : HostStable B.toStoreOps (Fresh B) :=
  HostStable.of_respects fun _ _ same h =>
    { h.toFlagged.internals same with
      unmarked := by
        have ctl := congrArg Internals.ctl same
        exact (congrArg Control.markingBitmap ctl).trans h.unmarked }

/-- The first marking bits, with everything dirty. -/
theorem Fresh.initialized {x : Exec cfg S} (h : Fresh B x) (terminal : Bool) :
    Coherent B { x with ctl := { x.ctl with
      markingBitmap := initializeMarkingBitmap B x
      dirtySet := Bitset.full
      terminalReached := terminal } } where
  counted := h.counted
  exclusive := h.exclusive
  flights := h.flights
  marked p known := by
    have bit := testBit_foldl_marks (fun pid => (B.queue (place cfg.net pid) x.store).isEmpty)
      (List.range (placeCount cfg.net)) (fun i hi => List.mem_range.mp hi) x.ctl.markingBitmap
      (placeId cfg.net p)
    rw [h.unmarked, Bitset.testBit_empty, place_placeId known] at bit
    show (initializeMarkingBitmap B x).testBit (placeId cfg.net p) = !(B.queue p x.store).isEmpty
    unfold initializeMarkingBitmap
    rw [h.unmarked, Bool.eq_iff_iff, bit, Bool.not_eq_true']
    simp [placeId_lt known]
  settled other := Or.inr (Or.inl (Bitset.testBit_full other.isLt))

theorem startLoop_spec {E : Thrown → Exec cfg S → Prop} :
    Prog.Spec (Fresh B) (startLoop B) (fun _ => Coherent B) E := by
  refine Prog.Spec.modify_bind (R := Fresh B) ?_ fun x h =>
    ⟨⟨h.counted, h.exclusive, h.flights⟩, h.unmarked⟩
  refine Prog.Spec.bind (fresh_hostStable.emitEvent _) fun _ => ?_
  refine Prog.Spec.modify_bind (R := Coherent B) ?_ fun x h => h.initialized _
  exact Prog.Spec.gets_bind fun marking =>
    ((coherent_hostStable B).emitEvent _).conseq (fun x h => h.1) (fun _ _ => id) fun _ _ => id

theorem finishLoop_spec (masks : ByMasks B) {E : Thrown → Exec cfg S → Prop} :
    Prog.Spec (Coherent B) (finishLoop B) (fun _ => Coherent B) E := by
  have stable := coherent_hostStable B
  refine Prog.Spec.modify_bind (R := Coherent B) ?_ fun x h => h.withIo _
  refine Prog.Spec.bind (Q := fun _ => Coherent B) ?_ fun _ => ?_
  · refine Prog.Spec.gets_bind fun pending => Prog.Spec.modify_bind (R := Coherent B) ?_
      fun x h => h.1.withIo _
    exact Prog.Spec.each fun event _ x h => h.noted masks _ fun _ => id
  refine Prog.Spec.modify_bind (R := Coherent B) ?_ fun x h => h.withIo _
  refine Prog.Spec.gets_bind fun marking => ?_
  refine Prog.Spec.bind ((stable.emitEvent _).conseq (fun x h => h.1) (fun _ _ => id) fun _ _ => id)
    fun _ => ?_
  refine Prog.Spec.bind (Q := fun _ => Coherent B) (fun x h => h.withIo _) fun now => ?_
  refine Prog.Spec.gets_bind fun startMs => ?_
  refine Prog.Spec.bind ((stable.emitEvent _).conseq (fun x h => h.1) (fun _ _ => id) fun _ _ => id)
    fun _ => ?_
  exact fun x h => h.noted masks _ fun _ => id

/-! ## The loop -/

/-- What holds at each program point. -/
def CoherentAt (B : Backend cfg S) : Phase cfg.net → Exec cfg S → Prop
  | .created => Fresh B
  | .deadlines => Scanned B
  | .firingGeneral rest snap => Awaiting B rest snap
  | .crashed _ => fun _ => True
  | _ => Coherent B

theorem parkOrResume_spec {E : Thrown → Exec cfg S → Prop} :
    Prog.Spec (Coherent B) (parkOrResume B) (CoherentAt B) E := by
  refine Prog.Spec.gets_bind fun x => Prog.Spec.ite (fun _ => ?_) fun _ => ?_
  · exact Prog.Spec.modify_bind (R := Coherent B) (fun y h => h) fun y h => h.1.withIo _
  refine Prog.Spec.ite (fun _ y h => h.1) fun _ => Prog.Spec.ite (fun _ y h => h.1) fun _ => ?_
  refine Prog.Spec.ite (fun _ => ?_) fun _ => ?_
  · exact Prog.Spec.modify_bind (R := Coherent B) (fun y h => h) fun y h => h.1.withIo _
  refine Prog.Spec.bind (Q := fun _ => Coherent B) (fun y h => h.1.withIo _) fun now => ?_
  refine Prog.Spec.ite (fun _ y h => h) fun _ => ?_
  exact Prog.Spec.modify_bind (R := Coherent B) (fun y h => h) fun y h => h.withIo _

theorem awaiting_readyTransitions {x : Exec cfg S} (h : Coherent B x) (now : Ms) :
    Awaiting B (readyTransitions B now x.ctl) x.ctl.markingBitmap x where
  toCoherent := h
  nodup := (List.perm_insertionSort _ _).nodup_iff.mpr ((List.nodup_finRange _).filter _)
  on other mem := by
    have := (List.mem_filter.mp ((List.mem_insertionSort _).mp mem)).2
    simp only [Bool.and_eq_true] at this
    exact this.1.1
  snapped := rfl

theorem executeLoop_spec (conforms : Conforms B verdict) (phase : Phase cfg.net) :
    Prog.Spec (fun x => CoherentAt B phase x ∧ DepositsCleanly B verdict phase x) (executeLoop B phase)
      (CoherentAt B) fun _ _ => True := by
  have taking := midTake_consume conforms
  have exitOr {x : Exec cfg S} (h : Coherent B x) (reached : Bool) {next : Phase cfg.net}
      (same : CoherentAt B next = Coherent B) : CoherentAt B (if reached then .exit else next) x := by
    split
    · exact h
    · rw [same]
      exact h
  cases phase with
  | created =>
    exact Prog.Spec.bind (startLoop_spec.conseq (fun x h => h.1) (fun _ _ => id) fun _ _ => id)
      fun _ x h => h
  | head =>
    refine Prog.Spec.gets_bind fun x => Prog.Spec.ite (fun _ => ?_) fun _ y h => h.1.1
    exact Prog.Spec.ite (fun _ y h => h.1.1) fun _ y h => h.1.1
  | completing i len =>
    refine completing_spec (R := Coherent B) (fun tid => ?_) (fun x h _ => h.1) (fun x h _ _ => h)
      fun x h _ => exitOr (h.withIo _) _ rfl
    exact (completeTransition_spec conforms).conseq (fun x h => ⟨h.1.1, h.1.2 tid h.2⟩) (fun _ _ => id)
      fun _ _ => id
  | «external» =>
    refine Prog.Spec.gets_bind fun x => Prog.Spec.ite (fun _ => ?_) fun _ y h => h.1.1
    exact unlessTerminal_spec fun y h => exitOr h.1.1 _ rfl
  | admitting i len =>
    refine admitting_spec (R := Coherent B) (fun event => ?_) (fun x h _ => h.1) (fun x h _ _ => h)
      fun x h _ => exitOr (h.withIo _) _ rfl
    exact (admitEvent_spec conforms i event).conseq (fun x h => ⟨h.1.1, h.1.2 event h.2⟩) (fun _ _ => id)
      fun _ _ => id
  | scan =>
    exact Prog.Spec.bind (updateDirtyTransitions_spec.conseq (fun x h => h.1) (fun _ _ => id)
      fun _ _ => id) fun _ x h => h
  | deadlines =>
    exact deadlines_spec (R := Coherent B) (fun x h => h.1.toCoherent.withIo _) enforceDeadlines_spec
      (fun x h _ => h) (fun x h _ => h) fun x now h _ => awaiting_readyTransitions h now
  | firingImmediate rest =>
    cases rest with
    | nil => exact fun x h => h.1
    | cons tid rest =>
      exact Prog.Spec.bind ((fireImmediate_spec conforms.toLawfulBackend taking tid).conseq (fun x h => h.1)
        (fun _ _ => id) fun _ _ => id) fun _ x h => h
  | firingGeneral rest snap =>
    cases rest with
    | nil => exact fun x h => h.1.toCoherent
    | cons tid rest =>
      exact Prog.Spec.bind ((fireReady_spec conforms.toLawfulBackend taking tid rest snap).conseq
        (fun x h => h.1) (fun _ _ => id) fun _ _ => id) fun _ x h => h
  | fired =>
    refine Prog.Spec.gets_bind fun x => Prog.Spec.ite (fun _ y h => h.1.1) fun _ => ?_
    exact Prog.Spec.ite (fun _ y h => h.1.1) fun _ y h => h.1.1
  | flush => exact parkOrResume_spec.conseq (fun x h => h.1) (fun _ _ => id) fun _ _ => id
  | parked race =>
    refine Prog.Spec.gets_bind fun settled => Prog.Spec.ite (fun _ => ?_) fun _ y h => h.1.1
    exact Prog.Spec.modify_bind (R := Coherent B) (fun y h => h) fun y h => h.1.1.withIo _
  | resuming => exact fun x h => h.1
  | exit =>
    exact Prog.Spec.bind ((finishLoop_spec conforms.masks).conseq (fun x h => h.1) (fun _ _ => id)
      fun _ _ => id) fun _ x h => h
  | ended => exact fun x h => h.1
  | crashed e => exact fun _ _ => trivial

/-! ## Runs -/

/-- Records of one flight change; which firings are in flight does not. -/
theorem isSome_update (lawful : Lawful B.toStoreOps) {x : Exec cfg S} {flight flight' : Flight V N}
    (held : B.flight? tid x.store = some flight) (other : Tid cfg.net) :
    (B.flight? other (B.update tid flight' x.store)).isSome = (B.flight? other x.store).isSome := by
  rw [lawful.flight?_update]
  split
  next same => rw [same, held]; rfl
  next => rfl

theorem coherent_ambient (conforms : Conforms B verdict) : Ambient B (Coherent B) :=
  { coherent_hostStable B with
    update := fun x tid _ flight' h held _ =>
      { counted := h.counted
        exclusive := h.exclusive
        flights := fun other => (h.flights other).trans (isSome_update conforms.lawful held other).symm
        marked := fun p known => by
          show x.ctl.markingBitmap.testBit _ = !(B.queue p (B.update tid flight' x.store)).isEmpty
          rw [conforms.lawful.queue_update]
          exact h.marked p known
        settled := fun other => (h.settled other).untouched conforms.masks
          ⟨fun p _ => conforms.lawful.queue_update tid flight' x.store p, rfl⟩ (fun _ _ => rfl) rfl id id id }
    delivered := fun _ _ h _ => h.withIo _
    raceSettled := fun _ h => h.withIo _
    epochs := fun _ _ h => h.withIo _ }

theorem fresh_ambient (conforms : Conforms B verdict) : Ambient B (Fresh B) :=
  { fresh_hostStable with
    update := fun _ _ _ _ h held _ =>
      { counted := h.counted
        exclusive := h.exclusive
        flights := fun other => (h.flights other).trans (isSome_update conforms.lawful held other).symm
        unmarked := h.unmarked }
    delivered := fun _ _ h _ => ⟨⟨h.counted, h.exclusive, h.flights⟩, h.unmarked⟩
    raceSettled := fun _ h => ⟨⟨h.counted, h.exclusive, h.flights⟩, h.unmarked⟩
    epochs := fun _ _ h => ⟨⟨h.counted, h.exclusive, h.flights⟩, h.unmarked⟩ }

theorem coherentAt_ambient (conforms : Conforms B verdict) {phase : Phase cfg.net}
    (open_ : yields phase = true) : Ambient B (CoherentAt B phase) := by
  cases phase with
  | created => exact fresh_ambient conforms
  | flush | parked _ | resuming | ended => exact coherent_ambient conforms
  | crashed e =>
    exact
      { call := fun _ _ _ => trivial, appended := fun _ _ _ => trivial, epoch := fun _ _ => trivial
        update := fun _ _ _ _ _ _ _ => trivial, delivered := fun _ _ _ _ => trivial
        raceSettled := fun _ _ => trivial, epochs := fun _ _ _ => trivial }
  | _ => cases open_

theorem coherentAt_step [Value V] (conforms : Conforms B verdict) {m : Machine cfg S} {label : Label cfg}
    (h : CoherentAt B m.phase m.exec) (clean : CleanDeposits B verdict m label) :
    CoherentAt B (step B m label).phase (step B m label).exec :=
  step_invariant conforms.lawful (fun _ => coherentAt_ambient conforms)
    (fun ticks => (executeLoop_spec conforms m.phase).conseq (by rintro _ rfl; exact ⟨h, clean ticks⟩)
      (fun _ _ => id) fun _ _ => id) h

end LibPetri.Verified

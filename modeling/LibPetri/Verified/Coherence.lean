import LibPetri.Verified.Consumption
import LibPetri.Verified.Enablement

/-! # Coherence

An executor keeps what it knows of its marking four times over: queues, bits, enabled flags with
their count, and the dirty set.  `Coherent` says that the four agree, up to the transitions that are
known to need another look.  This module proves it of the parts both executors share.
-/

namespace LibPetri.Verified

open LibPetri.Basis LibPetri.Core LibPetri.Runtime CompiledNet Executor

variable {V N : Type}

/-! ## Reaped transitions -/

/-- The effect moves a token in or out of the place. -/
def touches {net : PetriNet V N} (e : Effect net) (p : PlaceName) : Prop :=
  match e with
  | .seeded q _ | .took q _ _ | .reset q _ | .deposited q _ => q = p
  | _ => False

/-- Disabled by its deadline, and nothing has moved in its places since. -/
def Reaped {net : PetriNet V N} (tid : Tid net) : List (Effect net) → Prop
  | [] => False
  | e :: older => e = .reaped tid ∨ (∀ p ∈ arcPlaces (transition tid), ¬ touches e p) ∧ Reaped tid older

theorem Reaped.cons {net : PetriNet V N} {tid : Tid net} {older : List (Effect net)}
    (h : Reaped tid older) {e : Effect net} (untouched : ∀ p ∈ arcPlaces (transition tid), ¬ touches e p) :
    Reaped tid (e :: older) := Or.inr ⟨untouched, h⟩

theorem untouched_of_host {net : PetriNet V N} {e : Effect net} (host : internal e = false)
    (tid : Tid net) : e ≠ .reaped tid ∧ ∀ p, ¬ touches e p := by
  cases e <;> simp [internal, touches] at host ⊢

/-- What the host does moves no token. -/
theorem reaped_filter {net : PetriNet V N} (tid : Tid net) (history : List (Effect net)) :
    Reaped tid (history.filter internal) ↔ Reaped tid history := by
  induction history with
  | nil => exact Iff.rfl
  | cons e older ih =>
    cases h : internal e with
    | true =>
      rw [List.filter_cons_of_pos h]
      exact or_congr Iff.rfl (and_congr Iff.rfl ih)
    | false =>
      obtain ⟨other, untouched⟩ := untouched_of_host h tid
      rw [List.filter_cons_of_neg (by rw [h]; exact Bool.false_ne_true), ih]
      exact ⟨fun hr => hr.cons fun p _ => untouched p, fun hr => (hr.resolve_left other).2⟩

/-! ## The invariant -/

variable [LinearOrder N] {cfg : Setting V N} {S : Type}

/-- The flag says what the marking says, or the transition is known to need another look. -/
def Settled (B : Backend cfg S) (x : Exec cfg S) (tid : Tid cfg.net) : Prop :=
  canEnable B tid x.ctl.markingBitmap x = .ok (x.ctl.enabledFlags tid) ∨
    x.ctl.dirtySet.testBit tid = true ∨ x.ctl.inFlightFlags tid = true ∨ Reaped tid x.history

/-- What holds of the flags alone. -/
structure Flagged (B : Backend cfg S) (x : Exec cfg S) : Prop where
  counted : x.ctl.enabledTransitionCount =
    ((Finset.univ.filter fun tid => x.ctl.enabledFlags tid = true).card : Int)
  exclusive : ∀ tid, x.ctl.enabledFlags tid = true → x.ctl.inFlightFlags tid = false
  flights : ∀ tid, x.ctl.inFlightFlags tid = (B.flight? tid x.store).isSome

/-- A place's bit is set exactly when its queue is not empty. -/
def Marked (B : Backend cfg S) (x : Exec cfg S) (p : PlaceName) : Prop :=
  x.ctl.markingBitmap.testBit (placeId cfg.net p) = !(B.queue p x.store).isEmpty

structure Coherent (B : Backend cfg S) (x : Exec cfg S) : Prop extends Flagged B x where
  marked : ∀ p ∈ placesById cfg.net, Marked B x p
  settled : ∀ tid, Settled B x tid

/-- Enablement reads the tokens, the flights and the bookkeeping alone. -/
theorem canEnable_internals (B : Backend cfg S) {x y : Exec cfg S} (same : internals y = internals x)
    (tid : Tid cfg.net) (snap : Bitset (placeCount cfg.net)) :
    canEnable B tid snap y = canEnable B tid snap x := by
  have store : y.store = x.store := congrArg Internals.store same
  have ctl : y.ctl = x.ctl := congrArg Internals.ctl same
  unfold canEnable hasCardinality bindingOf
  rw [store, ctl]

theorem Settled.internals {B : Backend cfg S} {x y : Exec cfg S} (same : internals y = internals x)
    {tid : Tid cfg.net} (h : Settled B x tid) : Settled B y tid := by
  have ctl : y.ctl = x.ctl := congrArg Internals.ctl same
  have effects : y.history.filter internal = x.history.filter internal :=
    congrArg Internals.effects same
  unfold Settled at h ⊢
  rw [ctl, canEnable_internals B same, ← reaped_filter, effects, reaped_filter]
  exact h

theorem Flagged.internals {B : Backend cfg S} {x y : Exec cfg S} (same : internals y = internals x)
    (h : Flagged B x) : Flagged B y := by
  have store : y.store = x.store := congrArg Internals.store same
  have ctl : y.ctl = x.ctl := congrArg Internals.ctl same
  refine ⟨?_, ?_, ?_⟩
  · rw [ctl]
    exact h.counted
  · rw [ctl]
    exact h.exclusive
  · rw [ctl, store]
    exact h.flights

theorem Marked.internals {B : Backend cfg S} {x y : Exec cfg S} (same : internals y = internals x)
    {p : PlaceName} (h : Marked B x p) : Marked B y p := by
  have store : y.store = x.store := congrArg Internals.store same
  have ctl : y.ctl = x.ctl := congrArg Internals.ctl same
  unfold Marked at h ⊢
  rwa [ctl, store]

theorem coherent_hostStable (B : Backend cfg S) : HostStable B.toStoreOps (Coherent B) :=
  HostStable.of_respects fun _ _ same h =>
    { h.toFlagged.internals same with
      marked := fun p hp => (h.marked p hp).internals same
      settled := fun tid => (h.settled tid).internals same }

/-- A transition whose arcs nothing has touched stays settled. -/
theorem Settled.untouched {B : Backend cfg S} (masks : ByMasks B) {x y : Exec cfg S} {tid : Tid cfg.net}
    (h : Settled B x tid) (view : SameView B.toStoreOps tid x y)
    (bits : ∀ p ∈ arcPlaces (transition tid), y.ctl.markingBitmap.testBit (placeId cfg.net p) =
      x.ctl.markingBitmap.testBit (placeId cfg.net p))
    (flag : y.ctl.enabledFlags tid = x.ctl.enabledFlags tid)
    (dirty : x.ctl.dirtySet.testBit tid = true → y.ctl.dirtySet.testBit tid = true)
    (inFlight : x.ctl.inFlightFlags tid = true → y.ctl.inFlightFlags tid = true)
    (reaped : Reaped tid x.history → Reaped tid y.history) : Settled B y tid := by
  rcases h with agrees | hdirty | hflight | hreaped
  · refine Or.inl ?_
    rw [canEnable_congr masks view bits, flag]
    exact agrees
  · exact Or.inr (Or.inl (dirty hdirty))
  · exact Or.inr (Or.inr (Or.inl (inFlight hflight)))
  · exact Or.inr (Or.inr (Or.inr (reaped hreaped)))

/-! ## Flags -/

theorem card_update_false {n : Nat} (flags : Fin n → Bool) {i : Fin n} (on : flags i = true) :
    ((Finset.univ.filter fun j => Function.update flags i false j = true).card : Int) =
      (Finset.univ.filter fun j => flags j = true).card - 1 := by
  have erased : (Finset.univ.filter fun j => Function.update flags i false j = true) =
      (Finset.univ.filter fun j => flags j = true).erase i := by
    ext j
    by_cases same : j = i <;> simp [Function.update_apply, same]
  have mem : i ∈ Finset.univ.filter fun j => flags j = true := by simp [on]
  have := Finset.card_erase_add_one mem
  rw [erased]
  omega

theorem card_update_true {n : Nat} (flags : Fin n → Bool) {i : Fin n} (off : flags i = false) :
    ((Finset.univ.filter fun j => Function.update flags i true j = true).card : Int) =
      (Finset.univ.filter fun j => flags j = true).card + 1 := by
  have inserted : (Finset.univ.filter fun j => Function.update flags i true j = true) =
      insert i (Finset.univ.filter fun j => flags j = true) := by
    ext j
    by_cases same : j = i <;> simp [Function.update_apply, same]
  have absent : i ∉ Finset.univ.filter fun j => flags j = true := by simp [off]
  rw [inserted, Finset.card_insert_of_notMem absent]
  push_cast
  rfl

section Flags

variable {B : Backend cfg S} {x : Exec cfg S} {tid : Tid cfg.net}

theorem Flagged.disable (h : Flagged B x) (on : x.ctl.enabledFlags tid = true) :
    Flagged B { x with ctl := Executor.disable tid x.ctl } where
  counted := by
    show x.ctl.enabledTransitionCount - 1 = _
    rw [h.counted]
    exact (card_update_false _ on).symm
  exclusive other enabled := by
    refine h.exclusive other ?_
    simp only [Executor.disable, Function.update_apply] at enabled
    split at enabled
    · cases enabled
    · exact enabled
  flights := h.flights

theorem Flagged.enable (h : Flagged B x) (off : x.ctl.enabledFlags tid = false)
    (free : x.ctl.inFlightFlags tid = false) (now : Ms) :
    Flagged B { x with ctl := Executor.enable tid now x.ctl } where
  counted := by
    show x.ctl.enabledTransitionCount + 1 = _
    rw [h.counted]
    exact (card_update_true _ off).symm
  exclusive other enabled := by
    by_cases same : other = tid
    · rw [same]
      exact free
    · simp only [Executor.enable, Function.update_apply, if_neg same] at enabled
      exact h.exclusive other enabled
  flights := h.flights

end Flags

/-! ## The dirty scan -/

/-- Nothing more has to be known of the transition. -/
def Clear (B : Backend cfg S) (x : Exec cfg S) (tid : Tid cfg.net) : Prop :=
  canEnable B tid x.ctl.markingBitmap x = .ok (x.ctl.enabledFlags tid) ∨
    x.ctl.inFlightFlags tid = true ∨ Reaped tid x.history

/-- The scan has still to look at `rest`. -/
structure Scanning (B : Backend cfg S) (snap : Bitset (placeCount cfg.net)) (rest : List (Tid cfg.net))
    (x : Exec cfg S) : Prop extends Flagged B x where
  marked : ∀ p ∈ placesById cfg.net, Marked B x p
  snapped : x.ctl.markingBitmap = snap
  clean : x.ctl.dirtySet = Bitset.empty
  clear : ∀ tid, tid ∈ rest ∨ Clear B x tid

theorem Clear.internals {B : Backend cfg S} {x y : Exec cfg S} (same : internals y = internals x)
    {tid : Tid cfg.net} (h : Clear B x tid) : Clear B y tid := by
  have ctl : y.ctl = x.ctl := congrArg Internals.ctl same
  have effects : y.history.filter internal = x.history.filter internal :=
    congrArg Internals.effects same
  unfold Clear at h ⊢
  rw [ctl, canEnable_internals B same, ← reaped_filter, effects, reaped_filter]
  exact h

theorem scanning_hostStable (B : Backend cfg S) (snap : Bitset (placeCount cfg.net))
    (rest : List (Tid cfg.net)) : HostStable B.toStoreOps (Scanning B snap rest) := by
  refine HostStable.of_respects fun x y same h => ?_
  have ctl : y.ctl = x.ctl := congrArg Internals.ctl same
  exact { h.toFlagged.internals same with
    marked := fun p hp => (h.marked p hp).internals same
    snapped := by rw [ctl, h.snapped]
    clean := by rw [ctl, h.clean]
    clear := fun tid => (h.clear tid).imp id (Clear.internals same) }

variable {B : Backend cfg S} {snap : Bitset (placeCount cfg.net)} {rest : List (Tid cfg.net)}
  {x : Exec cfg S} {tid : Tid cfg.net}

/-- A transition whose flag now agrees with the marking is done with. -/
theorem Scanning.done (h : Scanning B snap (tid :: rest) x) {y : Exec cfg S} (flags : Flagged B y)
    (store : y.store = x.store) (bits : y.ctl.markingBitmap = x.ctl.markingBitmap)
    (dirty : y.ctl.dirtySet = x.ctl.dirtySet) (caches : y.ctl.matchCaches = x.ctl.matchCaches)
    (inFlight : y.ctl.inFlightFlags = x.ctl.inFlightFlags) (history : y.history = x.history)
    (others : ∀ other, other ≠ tid → y.ctl.enabledFlags other = x.ctl.enabledFlags other)
    (agrees : Clear B y tid) : Scanning B snap rest y :=
  { flags with
    marked := fun p hp => by
      unfold Marked
      rw [bits, store]
      exact h.marked p hp
    snapped := by rw [bits, h.snapped]
    clean := by rw [dirty, h.clean]
    clear := fun other => by
      by_cases same : other = tid
      · subst same
        exact Or.inr agrees
      · refine (h.clear other).imp (fun mem => (List.mem_cons.mp mem).resolve_left same) fun clear => ?_
        unfold Clear canEnable hasCardinality bindingOf at clear ⊢
        rw [bits, store, caches, inFlight, history, others other same]
        exact clear }

/-- Checks, and goes on knowing the answer. -/
theorem checkEnabled_bind {α : Type} {P : Exec cfg S → Prop} {k : Bool → Method cfg S α}
    {Q : α → Exec cfg S → Prop} {E : Thrown → Exec cfg S → Prop}
    (ok : ∀ b, Prog.Spec (fun x => P x ∧ canEnable B tid snap x = .ok b) (k b) Q E)
    (error : ∀ e x, P x → canEnable B tid snap x = .error e → E e x) :
    Prog.Spec P (checkEnabled B tid snap >>= k) Q E := by
  intro x hx
  cases h : canEnable B tid snap x with
  | ok b =>
    have run : (checkEnabled B tid snap).run x = (.ok b, x) := Prod.ext h rfl
    rw [Prog.run_bind_ok run]
    exact ok b x ⟨hx, h⟩
  | error e =>
    have run : (checkEnabled B tid snap).run x = (.error e, x) := Prod.ext h rfl
    rw [Prog.run_bind_error run]
    exact error e x hx h

theorem scanTransition_spec (now : Ms) :
    Prog.Spec (Scanning B snap (tid :: rest)) (scanTransition B now snap tid)
      (fun _ => Scanning B snap rest) fun _ _ => True := by
  have stable := scanning_hostStable B snap rest
  refine Prog.Spec.gets_bind fun inFlight => Prog.Spec.ite (fun hflight => ?_) fun hfree => ?_
  · rintro x ⟨h, rfl⟩
    exact h.done h.toFlagged rfl rfl rfl rfl rfl rfl (fun _ _ => rfl) (Or.inr (Or.inl hflight))
  refine Prog.Spec.gets_bind fun wasEnabled => checkEnabled_bind (fun canNow => ?_) fun _ _ _ _ => trivial
  refine Prog.Spec.gets_bind fun restart => Prog.Spec.ite (fun turnsOn => ?_) fun notOn => ?_
  -- newly enabled
  · refine Prog.Spec.modify_bind (R := Scanning B snap rest) (stable.emitEvent _) ?_
    rintro x ⟨⟨⟨⟨h, rfl⟩, rfl⟩, hcan⟩, rfl⟩
    simp only [Bool.and_eq_true, Bool.not_eq_true', Bool.not_eq_true] at turnsOn hfree
    refine h.done (h.toFlagged.enable turnsOn.2 hfree now) rfl rfl rfl rfl rfl rfl ?_ (Or.inl ?_)
    · exact fun other same => Function.update_of_ne same _ _
    · rw [turnsOn.1] at hcan
      show canEnable B tid x.ctl.markingBitmap x = .ok (Function.update x.ctl.enabledFlags tid true tid)
      rw [Function.update_self, h.snapped, hcan]
  refine Prog.Spec.ite (fun turnsOff => ?_) fun notOff => ?_
  -- disabled
  · rintro x ⟨⟨⟨⟨h, rfl⟩, rfl⟩, hcan⟩, rfl⟩
    simp only [Bool.and_eq_true, Bool.not_eq_true'] at turnsOff
    refine h.done (h.toFlagged.disable turnsOff.2) rfl rfl rfl rfl rfl rfl ?_ (Or.inl ?_)
    · exact fun other same => Function.update_of_ne same _ _
    · rw [turnsOff.1] at hcan
      show canEnable B tid x.ctl.markingBitmap x = .ok (Function.update x.ctl.enabledFlags tid false tid)
      rw [Function.update_self, h.snapped, hcan]
  -- the flag stands
  have stands : ∀ x, ((((Scanning B snap (tid :: rest) x ∧ x.ctl.inFlightFlags tid = inFlight) ∧
      x.ctl.enabledFlags tid = wasEnabled) ∧ canEnable B tid snap x = .ok canNow)) →
      Clear B x tid := by
    rintro x ⟨⟨⟨h, rfl⟩, rfl⟩, hcan⟩
    refine Or.inl ?_
    rw [h.snapped, hcan]
    cases canNow <;> cases hwas : x.ctl.enabledFlags tid <;> simp_all
  refine Prog.Spec.ite (fun restarts => ?_) fun _ => ?_
  · refine Prog.Spec.modify_bind (R := Scanning B snap rest) (stable.emitEvent _) ?_
    rintro x ⟨pre, rfl⟩
    exact pre.1.1.1.done ⟨pre.1.1.1.counted, pre.1.1.1.exclusive, pre.1.1.1.flights⟩
      rfl rfl rfl rfl rfl rfl (fun _ _ => rfl) (stands x pre)
  · rintro x ⟨pre, _⟩
    exact pre.1.1.1.done pre.1.1.1.toFlagged rfl rfl rfl rfl rfl rfl (fun _ _ => rfl) (stands x pre)

omit [LinearOrder N] in
theorem mem_filterMap_toTid (dirty : Bitset (transitionCount cfg.net)) (tid : Tid cfg.net) :
    tid ∈ dirty.toList.filterMap (@toTid? V N cfg) ↔ dirty.testBit tid = true := by
  rw [List.mem_filterMap]
  constructor
  · rintro ⟨n, hn, htid⟩
    unfold toTid? at htid
    split at htid
    · cases htid
      exact Bitset.mem_toList.mp hn
    · cases htid
  · intro h
    exact ⟨tid, Bitset.mem_toList.mpr h, dif_pos tid.isLt⟩

/-- Directly after the scan: every flag agrees with the marking, but for what is in flight or reaped. -/
structure Scanned (B : Backend cfg S) (x : Exec cfg S) : Prop extends Coherent B x where
  clear : ∀ tid, Clear B x tid

theorem Scanning.scanned (h : Scanning B snap [] x) : Scanned B x where
  toFlagged := h.toFlagged
  marked := h.marked
  settled tid := by
    rcases (h.clear tid).resolve_left List.not_mem_nil with agrees | inFlight | reaped
    · exact Or.inl agrees
    · exact Or.inr (Or.inr (Or.inl inFlight))
    · exact Or.inr (Or.inr (Or.inr reaped))
  clear tid := (h.clear tid).resolve_left List.not_mem_nil

theorem updateDirtyTransitions_spec : Prog.Spec (Coherent B) (updateDirtyTransitions B)
    (fun _ => Scanned B) fun _ _ => True := by
  refine Prog.Spec.bind (Q := fun _ => Coherent B) ?_ fun now => ?_
  · exact fun x h => ⟨⟨h.counted, h.exclusive, h.flights⟩, h.marked, h.settled⟩
  refine Prog.Spec.gets_bind fun snap => Prog.Spec.gets_bind fun dirty => ?_
  refine Prog.Spec.modify_bind (R := Scanning B snap (dirty.toList.filterMap toTid?)) ?_ ?_
  · refine Prog.Spec.bind (Q := fun _ => Scanning B snap [])
      (Prog.Spec.each_rest fun tid rest => scanTransition_spec now) fun _ => ?_
    refine Prog.Spec.gets_bind fun pending => Prog.Spec.ite (fun _ => ?_) fun _ => ?_
    · rintro x ⟨h, _⟩
      have done : Scanning B snap []
          { x with ctl := { x.ctl with restartPendingWords := Bitset.empty, anyRestartPending := false } } :=
        { counted := h.counted, exclusive := h.exclusive, flights := h.flights, marked := h.marked
          snapped := h.snapped, clean := h.clean, clear := h.clear }
      exact done.scanned
    · exact fun x hx => hx.1.scanned
  -- the dirty transitions are the ones left to look at
  · rintro x ⟨⟨h, rfl⟩, rfl⟩
    refine { counted := h.counted, exclusive := h.exclusive, flights := h.flights, marked := h.marked,
             snapped := rfl, clean := rfl, clear := fun tid => ?_ }
    rw [mem_filterMap_toTid]
    rcases h.settled tid with agrees | dirty | inFlight | reaped
    · exact Or.inr (Or.inl agrees)
    · exact Or.inl dirty
    · exact Or.inr (Or.inr (Or.inl inFlight))
    · exact Or.inr (Or.inr (Or.inr reaped))

/-! ## Deadlines -/

theorem enforceDeadline_spec (now : Ms) (tid : Tid cfg.net) :
    Prog.Spec (Coherent B) (enforceDeadline B now tid) (fun _ => Coherent B) fun _ _ => True := by
  refine Prog.Spec.gets_bind fun c => Prog.Spec.ite (fun overdue => ?_) fun _ x hx => hx.1
  refine Prog.Spec.modify_bind (R := fun x => Coherent B (recorded (.reaped tid) x)) ?_ ?_
  · exact Prog.Spec.modify_bind ((coherent_hostStable B).emitEvent _) fun x h => h
  rintro x ⟨h, rfl⟩
  simp only [Bool.and_eq_true, Bool.not_eq_true', decide_eq_true_eq] at overdue
  have flags := h.toFlagged.disable overdue.1.1.2
  refine { counted := flags.counted, exclusive := flags.exclusive, flights := flags.flights,
           marked := h.marked, settled := fun other => ?_ }
  by_cases same : other = tid
  · subst same
    exact Or.inr (Or.inr (Or.inr (Or.inl rfl)))
  rcases h.settled other with agrees | dirty | inFlight | reaped
  · refine Or.inl ?_
    show canEnable B other x.ctl.markingBitmap x =
      .ok (Function.update x.ctl.enabledFlags tid false other)
    rw [Function.update_of_ne same]
    exact agrees
  · exact Or.inr (Or.inl dirty)
  · exact Or.inr (Or.inr (Or.inl inFlight))
  · exact Or.inr (Or.inr (Or.inr (reaped.cons fun _ _ => id)))

theorem enforceDeadlines_spec (now : Ms) :
    Prog.Spec (Coherent B) (enforceDeadlines B now) (fun _ => Coherent B) fun _ _ => True :=
  Prog.Spec.each fun tid _ => enforceDeadline_spec now tid

end LibPetri.Verified

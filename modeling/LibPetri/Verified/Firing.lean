import LibPetri.Verified.Coherence

/-! # The middle of a firing

While a firing consumes, the queues run ahead of the bits and the dirty set.  `MidFire tid x y` says
how far a state `y` in the middle of a firing of `tid` can be from the state `x` the firing began in.
Once the bits are updated, it is `x` up to transitions that are marked dirty.
-/

namespace LibPetri.Verified

open LibPetri.Basis LibPetri.Core LibPetri.Runtime CompiledNet Executor

variable {V N : Type} [LinearOrder N] {cfg : Setting V N} {S : Type}

structure MidFire (B : Backend cfg S) (tid : Tid cfg.net) (x y : Exec cfg S) : Prop where
  enabled : y.ctl.enabledFlags = x.ctl.enabledFlags
  count : y.ctl.enabledTransitionCount = x.ctl.enabledTransitionCount
  since : y.ctl.enabledAtMs = x.ctl.enabledAtMs
  inFlight : y.ctl.inFlightFlags = x.ctl.inFlightFlags
  flights : ∀ other, B.flight? other y.store = B.flight? other x.store
  caches : ∀ other, other ≠ tid → y.ctl.matchCaches other = x.ctl.matchCaches other
  elsewhere : ∀ p, ¬ Consumes tid p → B.queue p y.store = B.queue p x.store
  shrinks : ∀ p, (B.queue p y.store).Sublist (B.queue p x.store)
  bits : ∀ p ∈ placesById cfg.net, Marked B y p ∨
    y.ctl.markingBitmap.testBit (placeId cfg.net p) = x.ctl.markingBitmap.testBit (placeId cfg.net p)
  dirty : ∀ other : Tid cfg.net,
    x.ctl.dirtySet.testBit other = true → y.ctl.dirtySet.testBit other = true
  reaped : ∀ other, (∀ p ∈ arcPlaces (transition other), ¬ Consumes tid p) →
    Reaped other x.history → Reaped other y.history

variable {B : Backend cfg S} {tid : Tid cfg.net} {x : Exec cfg S}

theorem MidFire.refl : MidFire B tid x x where
  enabled := rfl
  count := rfl
  since := rfl
  inFlight := rfl
  flights _ := rfl
  caches _ _ := rfl
  elsewhere _ _ := rfl
  shrinks _ := List.Sublist.refl _
  bits _ _ := Or.inr rfl
  dirty _ := id
  reaped _ _ := id

/-- A change of nothing but the bits, the dirty set, the restart flags, the cache of the firing
transition, and what is off the record of tokens. -/
theorem MidFire.frame {y z : Exec cfg S} (h : MidFire B tid x y)
    (store : z.store = y.store) (enabled : z.ctl.enabledFlags = y.ctl.enabledFlags)
    (count : z.ctl.enabledTransitionCount = y.ctl.enabledTransitionCount)
    (since : z.ctl.enabledAtMs = y.ctl.enabledAtMs) (inFlight : z.ctl.inFlightFlags = y.ctl.inFlightFlags)
    (caches : ∀ other, other ≠ tid → z.ctl.matchCaches other = y.ctl.matchCaches other)
    (bits : ∀ p ∈ placesById cfg.net, Marked B z p ∨ z.ctl.markingBitmap.testBit (placeId cfg.net p) =
      y.ctl.markingBitmap.testBit (placeId cfg.net p))
    (dirty : ∀ other : Tid cfg.net,
      y.ctl.dirtySet.testBit other = true → z.ctl.dirtySet.testBit other = true)
    (reaped : ∀ other, Reaped other y.history → Reaped other z.history) : MidFire B tid x z where
  enabled := enabled.trans h.enabled
  count := count.trans h.count
  since := since.trans h.since
  inFlight := inFlight.trans h.inFlight
  flights other := by rw [store, h.flights]
  caches other ne := (caches other ne).trans (h.caches other ne)
  elsewhere p hp := by rw [store, h.elsewhere p hp]
  shrinks p := by
    rw [store]
    exact h.shrinks p
  bits p hp := by
    rcases bits p hp with marked | same
    · exact Or.inl marked
    · refine (h.bits p hp).imp (fun marked => ?_) same.trans
      unfold Marked at marked ⊢
      rw [same, marked, store]
  dirty other := dirty other ∘ h.dirty other
  reaped other free := reaped other ∘ h.reaped other free

theorem midFire_hostStable : HostStable B.toStoreOps (MidFire B tid x) := by
  refine HostStable.of_respects fun y z same h => ?_
  have store : z.store = y.store := congrArg Internals.store same
  have ctl : z.ctl = y.ctl := congrArg Internals.ctl same
  have effects : z.history.filter internal = y.history.filter internal :=
    congrArg Internals.effects same
  refine h.frame store (by rw [ctl]) (by rw [ctl]) (by rw [ctl]) (by rw [ctl]) (fun _ _ => by rw [ctl])
    (fun _ _ => Or.inr (by rw [ctl])) (fun _ => by rw [ctl]; exact id) fun other hr => ?_
  rwa [← reaped_filter, effects, reaped_filter]

/-! ## Taking tokens -/

/-- Tokens are being taken: the bits still stand where they stood. -/
def MidTake (B : Backend cfg S) (tid : Tid cfg.net) (x y : Exec cfg S) : Prop :=
  MidFire B tid x y ∧ y.ctl.markingBitmap = x.ctl.markingBitmap

theorem midTake_hostStable : HostStable B.toStoreOps (MidTake B tid x) :=
  midFire_hostStable.and (HostStable.of_internals fun i => i.ctl.markingBitmap = x.ctl.markingBitmap)

/-- Some place a firing consumes from loses tokens. -/
theorem MidTake.remove {y : Exec cfg S} (h : MidTake B tid x y) {p : PlaceName} (consumes : Consumes tid p)
    {s : S} (flights : SameFlights B.toStoreOps y.store s) {queue : List (Token V)}
    (queues : ∀ q, B.queue q s = if q = p then queue else B.queue q y.store)
    (sub : queue.Sublist (B.queue p y.store)) : MidTake B tid x (stored s y) := by
  obtain ⟨h, bits⟩ := h
  refine ⟨{ enabled := h.enabled, count := h.count, since := h.since, inFlight := h.inFlight,
            flights := fun other => (flights.1 other).trans (h.flights other), caches := h.caches,
            elsewhere := fun q hq => ?_, shrinks := fun q => ?_,
            bits := fun q _ => Or.inr (by rw [← bits]; rfl),
            dirty := h.dirty, reaped := h.reaped }, bits⟩
  · rw [← h.elsewhere q hq]
    refine (queues q).trans (if_neg ?_)
    rintro rfl
    exact hq consumes
  · refine List.Sublist.trans ?_ (h.shrinks q)
    show (B.queue q s).Sublist _
    rw [queues]
    split
    next same => rwa [same]
    next => exact List.Sublist.refl _

theorem MidTake.record {y : Exec cfg S} (h : MidTake B tid x y) {e : Effect cfg.net}
    (moves : ∀ q, touches e q → Consumes tid q) : MidTake B tid x (recorded e y) :=
  ⟨{ h.1 with reaped := fun other free hr =>
      (h.1.reaped other free hr).cons fun q hq hmove => free q hq (moves q hmove) }, h.2⟩

theorem withoutFound_sublist (found : Except Thrown (Option (Nat × Token V))) (queue : List (Token V)) :
    (withoutFound found queue).Sublist queue := by
  unfold withoutFound
  split
  · exact List.eraseIdx_sublist _ _
  · exact List.Sublist.refl _

/-- The consumption stage leaves a state in the middle of the firing, however it ends. -/
theorem midTake_taking (lawful : Lawful B.toStoreOps) : Taking B.toStoreOps (transition tid)
    (fun _ => MidTake B tid x) (fun _ => MidTake B tid x) where
  stable _ := midTake_hostStable
  first spec hspec c y h := by
    have consumes : Consumes tid spec.place := Or.inl (List.mem_map_of_mem hspec)
    have taken := h.remove consumes (lawful.flights_removeFirst spec.place y.store)
      (lawful.queue_removeFirst (known_of_input hspec) y.store) (List.tail_sublist _)
    rcases hr : B.removeFirst spec.place y.store with ⟨_ | token, s⟩
    · rw [hr] at taken
      exact taken
    · rw [hr] at taken
      exact taken.record fun q same => same ▸ consumes
  matching spec hspec key hkey name c y h := by
    have consumes : Consumes tid spec.place := Or.inl (List.mem_map_of_mem hspec)
    have taken := h.remove consumes
      (lawful.flights_removeFirstMatching spec.place (named key name) y.store)
      (lawful.queue_removeFirstMatching (known_of_input hspec) (named key name) y.store)
      (withoutFound_sublist _ _)
    rcases hr : B.removeFirstMatching spec.place (named key name) y.store with ⟨e | _ | ⟨i, token⟩, s⟩
    · rw [hr] at taken
      exact taken
    · rw [hr] at taken
      exact taken
    · rw [hr] at taken
      exact taken.record fun q same => same ▸ consumes
  counting _ _ _ _ _ _ _ h _ := h
  reset p hp c y h :=
    (h.remove (Or.inr hp) (lawful.flights_removeAll p y.store)
      (lawful.queue_removeAll (known_of_reset hp) y.store) (List.nil_sublist _)).record
        fun q same => same ▸ Or.inr hp

/-! ## Updating the bits -/

/-- The places `rest` still have to be updated. -/
structure Updating (B : Backend cfg S) (tid : Tid cfg.net) (x : Exec cfg S) (rest : List Nat)
    (y : Exec cfg S) : Prop extends MidFire B tid x y where
  inside : ∀ pid ∈ rest, pid ∈ consumptionPlaceIds tid
  done : ∀ p, Consumes tid p → placeId cfg.net p ∉ rest → Marked B y p ∧
    ∀ other : Tid cfg.net, p ∈ arcPlaces (transition other) → y.ctl.dirtySet.testBit other = true

/-- Every bit is right again, and what a consumed place can affect is dirty. -/
def Updated (B : Backend cfg S) (tid : Tid cfg.net) (x : Exec cfg S) : Exec cfg S → Prop :=
  Updating B tid x []

/-- The dirty set with the transitions a place affects. -/
def dirtied (pid : Nat) (dirty : Bitset (transitionCount cfg.net)) : Bitset (transitionCount cfg.net) :=
  (affectedTransitions pid).foldl (fun dirty (tid : Tid cfg.net) => dirty.setBit tid) dirty

theorem markDirty_run (pid : Nat) (x : Exec cfg S) : (markDirty pid).run x =
    (.ok (), { x with ctl := { x.ctl with dirtySet := dirtied pid x.ctl.dirtySet } }) := by
  unfold markDirty dirtied
  induction affectedTransitions pid generalizing x with
  | nil => rfl
  | cons tid tids ih =>
    rw [Prog.each_cons, markTransitionDirty, setCtl, Prog.run_modify_bind, ih]
    rfl

omit [LinearOrder N] in
theorem testBit_dirtied (pid : Nat) (dirty : Bitset (transitionCount cfg.net)) (tid : Tid cfg.net) :
    (dirtied pid dirty).testBit tid = true ↔
      dirty.testBit tid = true ∨ tid ∈ affectedTransitions pid := by
  unfold dirtied
  rw [← List.foldl_map, testBit_foldl_setBit]
  · simp only [List.mem_map, Fin.val_inj, exists_eq_right]
  · intro i hi
    obtain ⟨other, _, rfl⟩ := List.mem_map.mp hi
    exact other.isLt

theorem Updating.frame {rest : List Nat} {y z : Exec cfg S} (h : Updating B tid x rest y)
    (store : z.store = y.store) (enabled : z.ctl.enabledFlags = y.ctl.enabledFlags)
    (count : z.ctl.enabledTransitionCount = y.ctl.enabledTransitionCount)
    (since : z.ctl.enabledAtMs = y.ctl.enabledAtMs) (inFlight : z.ctl.inFlightFlags = y.ctl.inFlightFlags)
    (caches : ∀ other, other ≠ tid → z.ctl.matchCaches other = y.ctl.matchCaches other)
    (bits : z.ctl.markingBitmap = y.ctl.markingBitmap)
    (dirty : z.ctl.dirtySet = y.ctl.dirtySet)
    (reaped : ∀ other, Reaped other y.history → Reaped other z.history) : Updating B tid x rest z where
  toMidFire := h.toMidFire.frame store enabled count since inFlight caches
    (fun _ _ => Or.inr (by rw [bits])) (fun _ => by rw [dirty]; exact id) reaped
  inside := h.inside
  done p hp hrest := by
    obtain ⟨marked, affected⟩ := h.done p hp hrest
    refine ⟨?_, fun other harc => ?_⟩
    · unfold Marked at marked ⊢
      rwa [bits, store]
    · rw [dirty]
      exact affected other harc

theorem flagIntermediateDisablements_spec {rest : List Nat} (pid : Nat) :
    Prog.Spec (Updating B tid x rest) (flagIntermediateDisablements B tid pid)
      (fun _ => Updating B tid x rest) (fun _ => MidFire B tid x) := by
  refine Prog.Spec.each fun other _ => Prog.Spec.gets_bind fun c => Prog.Spec.ite (fun _ => ?_) fun _ => ?_
  · exact fun y hy => hy.1
  · refine checkEnabled_bind (fun stays => Prog.Spec.ite (fun _ => ?_) fun _ => ?_) fun e y hy _ => ?_
    · exact fun y hy => hy.1.1
    · exact fun y hy => hy.1.1.frame rfl rfl rfl rfl rfl (fun _ _ => rfl) rfl rfl fun _ => id
    · exact hy.1.toMidFire

/-- One round of the loop over the consumed places. -/
theorem Updating.next {pid : Nat} {rest : List Nat} (marked : ∀ p ∈ placesById cfg.net, Marked B x p)
    {y : Exec cfg S} (h : Updating B tid x (pid :: rest) y) {bits : Bitset (placeCount cfg.net)}
    (hbits : bits = if (B.queue (place cfg.net pid) y.store).length = 0
      then y.ctl.markingBitmap.clearBit pid else y.ctl.markingBitmap) :
    Updating B tid x rest { y with ctl := { y.ctl with
      markingBitmap := bits, dirtySet := dirtied pid y.ctl.dirtySet } } := by
  obtain ⟨p, consumes, rfl⟩ := mem_consumptionPlaceIds.mp (h.inside pid List.mem_cons_self)
  have known := known_of_consumes consumes
  rw [place_placeId known] at hbits
  -- the bit of `p` is right now, and no other bit has changed
  have here : bits.testBit (placeId cfg.net p) = !(B.queue p y.store).isEmpty := by
    rw [hbits]
    split
    next empty =>
      rw [Bitset.testBit_clearBit _ (placeId_lt known), List.length_eq_zero_iff.mp empty]
      simp
    next left =>
      have nonempty : (B.queue p y.store) ≠ [] := fun e => left (by rw [e]; rfl)
      rcases h.bits p known with now | before
      · exact now
      · rw [before, marked p known]
        cases hq : B.queue p x.store with
        | nil =>
          have := h.shrinks p
          rw [hq, List.sublist_nil] at this
          exact absurd this nonempty
        | cons token rest => cases hy : B.queue p y.store with
          | nil => exact absurd hy nonempty
          | cons _ _ => rfl
  have others : ∀ q ∈ placesById cfg.net, q ≠ p →
      bits.testBit (placeId cfg.net q) = y.ctl.markingBitmap.testBit (placeId cfg.net q) := by
    intro q hq ne
    have apart : placeId cfg.net p ≠ placeId cfg.net q := fun same =>
      ne ((placeId_inj hq known).mp same.symm)
    rw [hbits]
    split
    · rw [Bitset.testBit_clearBit _ (placeId_lt known)]
      simp [apart]
    · rfl
  have grows : ∀ other : Tid cfg.net, y.ctl.dirtySet.testBit other = true →
      (dirtied (placeId cfg.net p) y.ctl.dirtySet).testBit other = true :=
    fun other dirty => (testBit_dirtied _ _ _).mpr (Or.inl dirty)
  refine { toMidFire := h.toMidFire.frame rfl rfl rfl rfl rfl (fun _ _ => rfl) (fun q hq => ?_) grows
             fun _ => id,
           inside := fun i hi => h.inside i (List.mem_cons_of_mem _ hi), done := fun q hq hrest => ?_ }
  · by_cases same : q = p
    · subst same
      exact Or.inl here
    · exact Or.inr (others q hq same)
  · by_cases same : q = p
    · subst same
      refine ⟨here, fun other harc => (testBit_dirtied _ _ _).mpr (Or.inr ?_)⟩
      exact (mem_affectedTransitions known).mpr harc
    · have apart : placeId cfg.net q ∉ placeId cfg.net p :: rest := by
        rw [List.mem_cons, not_or]
        exact ⟨fun e => same ((placeId_inj (known_of_consumes hq) known).mp e), hrest⟩
      obtain ⟨hmarked, affected⟩ := h.done q hq apart
      refine ⟨?_, fun other harc => grows other (affected other harc)⟩
      unfold Marked at hmarked ⊢
      rw [others q (known_of_consumes hq) same]
      exact hmarked

theorem updateBitmapAfterConsumption_spec (marked : ∀ p ∈ placesById cfg.net, Marked B x p) :
    Prog.Spec (MidFire B tid x) (updateBitmapAfterConsumption B tid) (fun _ => Updated B tid x)
      (fun _ => MidFire B tid x) := by
  intro y hy
  have start : Updating B tid x (consumptionPlaceIds tid) y :=
    { toMidFire := hy, inside := fun _ => id,
      done := fun p hp absent => absurd (mem_consumptionPlaceIds.mpr ⟨p, hp, rfl⟩) absent }
  refine Prog.Spec.each_rest (P := Updating B tid x) (fun pid rest => ?_) y start
  -- past the bit: the dirty marks, and the flags of what the firing has disabled
  let Bitten (z : Exec cfg S) : Prop := ∃ y bits, Updating B tid x (pid :: rest) y ∧
    (bits = if (B.queue (place cfg.net pid) y.store).length = 0
      then y.ctl.markingBitmap.clearBit pid else y.ctl.markingBitmap) ∧
    z = { y with ctl := { y.ctl with markingBitmap := bits } }
  have marks (left : Nat) : Prog.Spec Bitten (do
      markDirty pid
      if (left : WithTop Nat) < restartThreshold cfg.net pid then flagIntermediateDisablements B tid pid
      else pure ()) (fun _ => Updating B tid x rest) (fun _ => MidFire B tid x) := by
    refine Prog.Spec.bind (Q := fun _ => Updating B tid x rest) ?_ fun _ => ?_
    · rintro _ ⟨y, bits, h, hbits, rfl⟩
      rw [markDirty_run]
      exact h.next marked hbits
    · exact Prog.Spec.ite (fun _ => flagIntermediateDisablements_spec pid) fun _ y hy => hy
  refine Prog.Spec.gets_bind fun left => Prog.Spec.ite (fun empty => ?_) fun nonempty => ?_
  · refine Prog.Spec.modify_bind (marks left) ?_
    rintro y ⟨h, rfl⟩
    exact ⟨y, _, h, (if_pos empty).symm, rfl⟩
  · rintro y ⟨h, rfl⟩
    exact marks _ y ⟨y, _, h, (if_neg nonempty).symm, rfl⟩

/-! ## The end of a firing -/

theorem updated_hostStable : HostStable B.toStoreOps (Updated B tid x) := by
  refine HostStable.of_respects fun y z same h => ?_
  have store : z.store = y.store := congrArg Internals.store same
  have ctl : z.ctl = y.ctl := congrArg Internals.ctl same
  have effects : z.history.filter internal = y.history.filter internal :=
    congrArg Internals.effects same
  refine h.frame store ?_ ?_ ?_ ?_ ?_ ?_ ?_ fun other hr => ?_
  · rw [ctl]
  · rw [ctl]
  · rw [ctl]
  · rw [ctl]
  · exact fun _ _ => by rw [ctl]
  · rw [ctl]
  · rw [ctl]
  · rwa [← reaped_filter, effects, reaped_filter]

/-- What a firing changes, once it is registered or contained. -/
structure AfterFire (B : Backend cfg S) (tid : Tid cfg.net) (x y : Exec cfg S) : Prop where
  enabled : y.ctl.enabledFlags = Function.update x.ctl.enabledFlags tid false
  since : y.ctl.enabledAtMs = Function.update x.ctl.enabledAtMs tid none
  inFlight : ∀ other, other ≠ tid → y.ctl.inFlightFlags other = x.ctl.inFlightFlags other
  caches : ∀ other, other ≠ tid → y.ctl.matchCaches other = x.ctl.matchCaches other
  elsewhere : ∀ p, ¬ Consumes tid p → B.queue p y.store = B.queue p x.store
  shrinks : ∀ p, (B.queue p y.store).Sublist (B.queue p x.store)

/-- Coherent, but for the flag of one transition. -/
structure CoherentBut (B : Backend cfg S) (tid : Tid cfg.net) (x : Exec cfg S) : Prop
    extends Flagged B x where
  marked : ∀ p ∈ placesById cfg.net, Marked B x p
  settled : ∀ other, other ≠ tid → Settled B x other

theorem Coherent.but (h : Coherent B x) (tid : Tid cfg.net) : CoherentBut B tid x :=
  { h.toFlagged with marked := h.marked, settled := fun other _ => h.settled other }

section End

variable {y : Exec cfg S} (masks : ByMasks B) (before : CoherentBut B tid x) (h : Updated B tid x y)
include before h

theorem Updated.marked {p : PlaceName} (known : p ∈ placesById cfg.net) : Marked B y p := by
  by_cases consumes : Consumes tid p
  · exact (h.done p consumes List.not_mem_nil).1
  · rcases h.bits p known with now | same
    · exact now
    · unfold Marked
      rw [same, h.elsewhere p consumes]
      exact before.marked p known

include masks in
/-- Every other transition is settled, once the bits are. -/
theorem Updated.settled {other : Tid cfg.net} (ne : other ≠ tid) : Settled B y other := by
  by_cases meets : ∃ p ∈ arcPlaces (transition other), Consumes tid p
  · obtain ⟨p, harc, consumes⟩ := meets
    exact Or.inr (Or.inl ((h.done p consumes List.not_mem_nil).2 other harc))
  · have free : ∀ p ∈ arcPlaces (transition other), ¬ Consumes tid p :=
      fun p hp consumes => meets ⟨p, hp, consumes⟩
    refine (before.settled other ne).untouched masks
      ⟨fun p hp => h.elsewhere p (free p hp), h.caches other ne⟩ (fun p hp => ?_)
      (by rw [h.enabled]) (h.dirty other) (by rw [h.inFlight]; exact id) (h.reaped other free)
    have known := known_of_arc hp
    rw [before.marked p known, ← h.elsewhere p (free p hp)]
    exact h.marked before known

include masks in
/-- A firing that is registered leaves a coherent state. -/
theorem Updated.launched (lawful : Lawful B.toStoreOps) (on : x.ctl.enabledFlags tid = true)
    (flight : Flight V N) (e : Effect cfg.net) (moves : ∀ p, ¬ touches e p) :
    Coherent B (recorded e { y with
      store := B.register tid flight y.store
      ctl := Executor.disable tid
        { y.ctl with inFlightFlags := Function.update y.ctl.inFlightFlags tid true } }) where
  counted := by
    show y.ctl.enabledTransitionCount - 1 = _
    rw [h.count, before.counted, ← card_update_false _ on, ← h.enabled]
    rfl
  exclusive other enabled := by
    have ne : other ≠ tid := by
      rintro rfl
      simp [recorded, Executor.disable] at enabled
    simp only [recorded, Executor.disable, Function.update_of_ne ne, h.enabled, h.inFlight] at enabled ⊢
    exact before.exclusive other enabled
  flights other := by
    show Function.update y.ctl.inFlightFlags tid true other = _
    rw [h.inFlight, Function.update_apply]
    show _ = (B.flight? other (B.register tid flight y.store)).isSome
    rw [lawful.flight?_register]
    split
    · rfl
    · rw [h.flights, before.flights]
  marked p known := by
    show y.ctl.markingBitmap.testBit _ = !(B.queue p (B.register tid flight y.store)).isEmpty
    rw [lawful.queue_register]
    exact h.marked before known
  settled other := by
    by_cases same : other = tid
    · subst same
      exact Or.inr (Or.inr (Or.inl (Function.update_self _ _ _)))
    · refine (h.settled masks before same).untouched masks
        ⟨fun p _ => lawful.queue_register tid flight y.store p, rfl⟩ (fun _ _ => rfl)
        (Function.update_of_ne same _ _) id (fun inFlight => ?_) fun reaped => reaped.cons fun p _ => moves p
      show Function.update y.ctl.inFlightFlags tid true other = true
      rw [Function.update_of_ne same]
      exact inFlight

omit before in
theorem Updated.afterLaunch (lawful : Lawful B.toStoreOps) (flight : Flight V N) (e : Effect cfg.net) :
    AfterFire B tid x (recorded e { y with
      store := B.register tid flight y.store
      ctl := Executor.disable tid
        { y.ctl with inFlightFlags := Function.update y.ctl.inFlightFlags tid true } }) where
  enabled := by
    show Function.update y.ctl.enabledFlags tid false = _
    rw [h.enabled]
  since := by
    show Function.update y.ctl.enabledAtMs tid none = _
    rw [h.since]
  inFlight other ne := (Function.update_of_ne ne _ _).trans (congrFun h.inFlight other)
  caches := h.caches
  elsewhere p hp := (lawful.queue_register tid flight y.store p).trans (h.elsewhere p hp)
  shrinks p := by
    show (B.queue p (B.register tid flight y.store)).Sublist _
    rw [lawful.queue_register]
    exact h.shrinks p

end End

theorem actionStep_spec {ops : StoreOps cfg S} {I : Exec cfg S → Prop} (stable : HostStable ops I)
    (t : Transition V N) (detached : Bool) (entries : List (PlaceName × Token V)) (step : ActionStep V)
    {E : Thrown → Exec cfg S → Prop} :
    Prog.Spec I (actionStep ops t detached entries step) (fun _ => I) E := by
  cases step with
  | output p value =>
    refine Prog.Spec.ite (fun _ x hx => hx) fun _ => ?_
    exact Prog.Spec.bind (Q := fun _ => I) (fun x hx => stable.epoch x hx) fun ts x hx => hx
  | outputToken p token => exact fun x hx => hx
  | log level message error errorMessage =>
    exact Prog.Spec.bind (stable.emitEvent _) fun _ x hx => hx
  | call call => exact Prog.Spec.modify_bind (R := I) (fun x hx => hx) fun x hx => stable.call x call hx

theorem executeAction_spec {ops : StoreOps cfg S} {I : Exec cfg S → Prop} (stable : HostStable ops I)
    (t : Transition V N) (steps : List (ActionStep V)) (entries : List (PlaceName × Token V))
    {E : Thrown → Exec cfg S → Prop} :
    Prog.Spec I (executeAction ops t steps entries) (fun _ => I) E := by
  induction steps generalizing entries with
  | nil => exact fun x hx => hx
  | cons step steps ih => exact Prog.Spec.bind (actionStep_spec stable t false entries step) fun _ => ih _

/-- What the proofs use of a backend, besides its store. -/
structure LawfulBackend (B : Backend cfg S) : Prop where
  lawful : Lawful B.toStoreOps
  masks : ByMasks B
  discard : ∀ tid x, x.ctl.inFlightFlags tid = false → B.flight? tid x.store = none →
    (B.discard tid).run x = (.ok (), x)

theorem fireTransition_spec (backend : LawfulBackend B) (before : Coherent B x)
    (on : x.ctl.enabledFlags tid = true)
    (consume : Prog.Spec (MidTake B tid x) (B.consume tid) (fun _ => MidTake B tid x)
      fun _ => MidTake B tid x) :
    Prog.Spec (MidTake B tid x) (fireTransition B tid)
      (fun _ y => Coherent B y ∧ AfterFire B tid x y) fun _ => MidFire B tid x := by
  refine Prog.Spec.modify_bind (R := MidTake B tid x) ?_ fun y h => h.record fun q => False.elim
  refine Prog.Spec.bind (consume.conseq (fun _ => id) (fun _ _ => id) fun _ y h => h.1) fun c => ?_
  refine Prog.Spec.bind ((updateBitmapAfterConsumption_spec before.marked).conseq (fun y h => h.1)
    (fun _ _ => id) fun _ _ => id) fun _ => ?_
  refine Prog.Spec.bind (updated_hostStable.emitEvent _) fun _ => Prog.Spec.gets_bind fun start => ?_
  refine Prog.Spec.modify_bind (R := Updated B tid x) ?_
    fun y h => h.1.frame rfl rfl rfl rfl rfl (fun _ _ => rfl) rfl rfl fun _ => id
  have rest : Prog.Spec (Updated B tid x) (do
      let entries ← executeAction B.toStoreOps (transition tid) start.syncSteps []
      let startMs ← nowMs
      launch B tid
        { inputs := c.inputs, entries := entries, detached := false, consumed := c.consumed
          startMs := startMs, status := .running, error := none, matchedName := c.matchedName })
      (fun _ y => Coherent B y ∧ AfterFire B tid x y) fun _ => MidFire B tid x := by
    refine Prog.Spec.bind (executeAction_spec updated_hostStable _ _ _) fun entries => ?_
    refine Prog.Spec.bind (Q := fun _ => Updated B tid x)
      (fun y h => h.frame rfl rfl rfl rfl rfl (fun _ _ => rfl) rfl rfl fun _ => id) fun startMs y h => ?_
    exact ⟨h.launched backend.masks (before.but tid) backend.lawful on _ _ fun p => id,
      h.afterLaunch backend.lawful _ _⟩
  cases start.provider with
  | some e => exact fun y h => h.toMidFire
  | none => exact rest

/-- The state a contained firing is looked back at from: the transition is disabled. -/
theorem Coherent.disabled (masks : ByMasks B) (h : Coherent B x) (on : x.ctl.enabledFlags tid = true) :
    CoherentBut B tid { x with ctl := Executor.disable tid x.ctl } :=
  { h.toFlagged.disable on with
    marked := h.marked
    settled := fun other ne => (h.settled other).untouched masks ⟨fun _ _ => rfl, rfl⟩ (fun _ _ => rfl)
      (Function.update_of_ne ne _ _) id id id }

/-- A transition the marking no longer allows is disabled in its turn. -/
theorem Coherent.passedOver (masks : ByMasks B) (h : Coherent B x) (on : x.ctl.enabledFlags tid = true)
    (stays : canEnable B tid x.ctl.markingBitmap x = .ok false) :
    Coherent B { x with ctl := Executor.disable tid x.ctl } :=
  { h.disabled masks on with
    settled := fun other => by
      by_cases same : other = tid
      · subst same
        refine Or.inl ?_
        show canEnable B other x.ctl.markingBitmap x =
          .ok (Function.update x.ctl.enabledFlags other false other)
        rw [Function.update_self, stays]
      · exact (h.disabled masks on).settled other same }

theorem MidFire.disabled {y : Exec cfg S} (h : MidFire B tid x y) :
    MidFire B tid { x with ctl := Executor.disable tid x.ctl }
      { y with ctl := Executor.disable tid y.ctl } where
  enabled := by
    show Function.update y.ctl.enabledFlags tid false = Function.update x.ctl.enabledFlags tid false
    rw [h.enabled]
  count := by
    show y.ctl.enabledTransitionCount - 1 = x.ctl.enabledTransitionCount - 1
    rw [h.count]
  since := by
    show Function.update y.ctl.enabledAtMs tid none = Function.update x.ctl.enabledAtMs tid none
    rw [h.since]
  inFlight := h.inFlight
  flights := h.flights
  caches := h.caches
  elsewhere := h.elsewhere
  shrinks := h.shrinks
  bits := h.bits
  dirty := h.dirty
  reaped := h.reaped

/-- Containment leaves a coherent state. -/
theorem containFiring_spec (backend : LawfulBackend B) (before : Coherent B x)
    (on : x.ctl.enabledFlags tid = true) (e : Thrown) :
    Prog.Spec (MidFire B tid x) (containFiring B tid e)
      (fun _ y => Coherent B y ∧ AfterFire B tid x y) fun _ _ => True := by
  have idle : x.ctl.inFlightFlags tid = false := before.exclusive tid on
  have looked := before.disabled backend.masks on
  let x' : Exec cfg S := { x with ctl := Executor.disable tid x.ctl }
  refine Prog.Spec.modify_bind (R := MidFire B tid x) ?_
    fun y h => h.frame rfl rfl rfl rfl rfl (fun _ _ => rfl) (fun _ _ => Or.inr rfl) (fun _ => id) fun _ => id
  refine Prog.Spec.modify_bind (R := MidFire B tid x) ?_
    fun y h => h.frame rfl rfl rfl rfl rfl (fun _ _ => rfl) (fun _ _ => Or.inr rfl) (fun _ => id)
      fun other hr => hr.cons fun _ _ => id
  have rest : Prog.Spec (MidFire B tid x') (do
      B.discard tid
      updateBitmapAfterConsumption B tid
      setCtl fun c => { c with matchCaches := Function.update c.matchCaches tid none }
      let err ← Prog.lift (asError e)
      emitFailed B.toStoreOps (transition tid).name err
      markTransitionDirty tid) (fun _ y => Coherent B y ∧ AfterFire B tid x y) fun _ _ => True := by
    refine Prog.Spec.bind (Q := fun _ => MidFire B tid x') (fun y h => ?_) fun _ => ?_
    -- nothing is registered, so nothing is discarded
    · rw [backend.discard tid y]
      · exact h
      · rw [h.inFlight]
        exact idle
      · rw [h.flights]
        have := before.flights tid
        rw [idle] at this
        exact Option.not_isSome_iff_eq_none.mp (by
          show ¬ (B.flight? tid x.store).isSome = true
          rw [← this]
          exact Bool.false_ne_true)
    refine Prog.Spec.bind ((updateBitmapAfterConsumption_spec looked.marked).conseq (fun _ => id)
      (fun _ _ => id) fun _ _ _ => trivial) fun _ => ?_
    refine Prog.Spec.modify_bind (R := Updated B tid x') ?_ fun y h =>
      h.frame rfl rfl rfl rfl rfl (fun _ ne => Function.update_of_ne ne _ _) rfl rfl fun _ => id
    refine Prog.Spec.lift_bind (fun err _ => ?_) fun _ _ _ _ => trivial
    refine Prog.Spec.bind (updated_hostStable.emitFailed _ _) fun _ y h => ?_
    have tidDirty : (y.ctl.dirtySet.setBit tid).testBit tid = true := by
      rw [Bitset.testBit_setBit _ tid.isLt]
      simp
    have kept (other : Tid cfg.net) (hd : y.ctl.dirtySet.testBit other = true) :
        (y.ctl.dirtySet.setBit tid).testBit other = true := by
      rw [Bitset.testBit_setBit _ tid.isLt, hd, Bool.or_true]
    refine ⟨?_, ⟨h.enabled, h.since, fun other _ => congrFun h.inFlight other, h.caches, h.elsewhere,
      h.shrinks⟩⟩
    exact
      { counted := by
          show y.ctl.enabledTransitionCount = _
          rw [h.count, looked.counted, ← h.enabled]
        exclusive := by
          show ∀ other, y.ctl.enabledFlags other = true → y.ctl.inFlightFlags other = false
          rw [h.enabled, h.inFlight]
          exact looked.exclusive
        flights := by
          show ∀ other, y.ctl.inFlightFlags other = (B.flight? other y.store).isSome
          intro other
          rw [h.flights, h.inFlight]
          exact looked.flights other
        marked := fun p known => h.marked looked known
        settled := fun other => by
          by_cases same : other = tid
          · subst same
            exact Or.inr (Or.inl tidDirty)
          · exact (h.settled backend.masks looked same).untouched backend.masks ⟨fun _ _ => rfl, rfl⟩
              (fun _ _ => rfl) rfl (kept other) id id }
  refine Prog.Spec.gets_bind fun flag => Prog.Spec.ite (fun hflag => ?_) fun hflag => ?_
  · exact Prog.Spec.modify_bind rest fun y h => h.1.disabled
  · rintro y ⟨h, rfl⟩
    rw [h.enabled] at hflag
    exact absurd on hflag

theorem fireTransitionContained_spec (backend : LawfulBackend B)
    (consume : Prog.Spec (MidTake B tid x) (B.consume tid) (fun _ => MidTake B tid x)
      fun _ => MidTake B tid x) (before : Coherent B x) (on : x.ctl.enabledFlags tid = true) :
    Prog.Spec (· = x) (fireTransitionContained B tid)
      (fun _ y => Coherent B y ∧ AfterFire B tid x y) fun _ _ => True := by
  have start : MidTake B tid x { x with ctl := { x.ctl with unsettled := true } } :=
    ⟨MidFire.refl.frame rfl rfl rfl rfl rfl (fun _ _ => rfl) (fun _ _ => Or.inr rfl) (fun _ => id) fun _ => id,
      rfl⟩
  refine Prog.Spec.modify_bind (R := MidTake B tid x) ?_ (by rintro _ rfl; exact start)
  refine Prog.Spec.tryCatch (E := fun _ => MidFire B tid x) ?_ fun e => containFiring_spec backend before on e
  refine Prog.Spec.bind (fireTransition_spec backend before on consume) fun _ y h => ?_
  obtain ⟨coherent, after⟩ := h
  exact ⟨{ counted := coherent.counted, exclusive := coherent.exclusive, flights := coherent.flights,
           marked := coherent.marked, settled := coherent.settled },
    ⟨after.enabled, after.since, after.inFlight, after.caches, after.elsewhere, after.shrinks⟩⟩

/-! ## The firing loops -/

section Loops

variable (backend : LawfulBackend B)
  (consume : ∀ tid x, Prog.Spec (MidTake B tid x) (B.consume tid) (fun _ => MidTake B tid x)
    fun _ => MidTake B tid x)
include backend consume

theorem fireImmediate_spec (tid : Tid cfg.net) :
    Prog.Spec (Coherent B) (fireImmediate B tid) (fun _ => Coherent B) fun _ _ => True := by
  refine Prog.Spec.gets_bind fun c => Prog.Spec.ite (fun _ x hx => hx.1) fun turn => ?_
  refine checkEnabled_bind (fun fires => Prog.Spec.ite (fun _ => ?_) fun stays => ?_) fun _ _ _ _ => trivial
  · rintro x ⟨⟨h, rfl⟩, _⟩
    simp only [Bool.or_eq_true, Bool.not_eq_true', not_or, Bool.not_eq_false] at turn
    exact (fireTransitionContained_spec backend (consume tid x) h turn.1).conseq (fun _ => id)
      (fun _ _ hy => hy.1) (fun _ _ => id) x rfl
  · rintro x ⟨⟨h, rfl⟩, hcan⟩
    simp only [Bool.or_eq_true, Bool.not_eq_true', not_or, Bool.not_eq_false] at turn stays
    rw [Bool.not_eq_true] at stays
    rw [stays] at hcan
    exact h.passedOver backend.masks turn.1 hcan

/-- What the general firing loop knows of the entries still to come. -/
structure Awaiting (B : Backend cfg S) (rest : List (Tid cfg.net)) (snap : Bitset (placeCount cfg.net))
    (x : Exec cfg S) : Prop extends Coherent B x where
  nodup : rest.Nodup
  on : ∀ tid ∈ rest, x.ctl.enabledFlags tid = true
  snapped : snap = x.ctl.markingBitmap

omit backend consume in
theorem Awaiting.next {tid : Tid cfg.net} {rest : List (Tid cfg.net)} {snap : Bitset (placeCount cfg.net)}
    {x y : Exec cfg S} (h : Awaiting B (tid :: rest) snap x) (coherent : Coherent B y)
    (enabled : y.ctl.enabledFlags = Function.update x.ctl.enabledFlags tid false) :
    Awaiting B rest y.ctl.markingBitmap y where
  toCoherent := coherent
  nodup := (List.nodup_cons.mp h.nodup).2
  on other hother := by
    have ne : other ≠ tid := fun same => (List.nodup_cons.mp h.nodup).1 (same ▸ hother)
    rw [enabled, Function.update_of_ne ne]
    exact h.on other (List.mem_cons_of_mem _ hother)
  snapped := rfl

theorem fireReady_spec (tid : Tid cfg.net) (rest : List (Tid cfg.net)) (snap : Bitset (placeCount cfg.net)) :
    Prog.Spec (Awaiting B (tid :: rest) snap) (fireReady B snap tid) (fun snap => Awaiting B rest snap)
      fun _ _ => True := by
  refine Prog.Spec.gets_bind fun enabled => Prog.Spec.ite (fun _ => ?_) fun off => ?_
  · refine checkEnabled_bind (fun fires => Prog.Spec.ite (fun _ => ?_) fun stays => ?_) fun _ _ _ _ => trivial
    · rintro x ⟨⟨h, _⟩, _⟩
      have on := h.on tid List.mem_cons_self
      refine Prog.Spec.bind (fireTransitionContained_spec backend (consume tid x) h.toCoherent on)
        (fun _ y hy => ?_) x rfl
      exact h.next hy.1 hy.2.enabled
    · rintro x ⟨⟨h, _⟩, hcan⟩
      have on := h.on tid List.mem_cons_self
      rw [Bool.not_eq_true] at stays
      rw [stays, h.snapped] at hcan
      rw [h.snapped]
      exact h.next (h.toCoherent.passedOver backend.masks on hcan) rfl
  -- an entry is enabled until its turn
  · rintro x ⟨h, rfl⟩
    exact absurd (h.on tid List.mem_cons_self) off

end Loops

end LibPetri.Verified

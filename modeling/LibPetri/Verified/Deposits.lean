import LibPetri.Verified.Firing

/-! # Deposits

A token that enters a place is mirrored into the caches the place feeds, by their projections.  Where
none of them throws (`Projects`), a deposit is one change of the state, and keeps it coherent.
-/

namespace LibPetri.Verified

open LibPetri.Basis LibPetri.Core LibPetri.Runtime CompiledNet Executor

variable {V N : Type} [LinearOrder N] {cfg : Setting V N} {S : Type}

abbrev Caches (cfg : Setting V N) := Tid cfg.net → Option (IncrementalMatcher N)

/-- The key a cached input is correlated by. -/
def targetKey (target : Tid cfg.net × Nat) : Option (MatchKey V N) :=
  (transition target.1).matchSpec.bind fun ms => ms.keys[target.2]?

/-- One cache, with one token more. -/
def mirror (token : Token V) (caches : Caches cfg) (target : Tid cfg.net × Nat) : Caches cfg :=
  match caches target.1, targetKey target with
  | some cache, some mk =>
    match mk.key token.value with
    | .ok (some name) =>
      Function.update caches target.1 (some (cache.add target.2 name token.createdAt))
    | _ => caches
  | _, _ => caches

/-- The projection of a cached input answers, if its cache is live. -/
def Answers (caches : Caches cfg) (token : Token V) (target : Tid cfg.net × Nat) : Prop :=
  (caches target.1).isSome = true → ∀ mk, targetKey target = some mk →
    ∃ found, mk.key token.value = .ok found

/-- No projection of a live cache throws on the token, were it to enter the place. -/
def Projects (caches : Caches cfg) (p : PlaceName) (token : Token V) : Prop :=
  p ∈ placesById cfg.net → ∀ target ∈ placeMatchTargets (placeId cfg.net p), Answers caches token target

instance decidableReturns {α : Type} : (answer : Except Thrown α) →
    Decidable (∃ found, answer = .ok found)
  | .ok found => .isTrue ⟨found, rfl⟩
  | .error _ => .isFalse nofun

instance (caches : Caches cfg) (token : Token V) (target : Tid cfg.net × Nat) :
    Decidable (Answers caches token target) :=
  inferInstanceAs (Decidable (_ → ∀ mk ∈ targetKey target, ∃ found, mk.key token.value = .ok found))

instance (caches : Caches cfg) (p : PlaceName) (token : Token V) : Decidable (Projects caches p token) :=
  inferInstanceAs (Decidable (_ → ∀ target ∈ placeMatchTargets (placeId cfg.net p), _))

theorem mirror_cases (token : Token V) (caches : Caches cfg) (target : Tid cfg.net × Nat) :
    mirror token caches target = caches ∨ ∃ cache mk name, caches target.1 = some cache ∧
      targetKey target = some mk ∧ mk.key token.value = .ok (some name) ∧
      mirror token caches target =
        Function.update caches target.1 (some (cache.add target.2 name token.createdAt)) := by
  unfold mirror
  split
  next cache mk hcache hmk =>
    split
    next name hname => exact Or.inr ⟨cache, mk, name, hcache, hmk, hname, rfl⟩
    next => exact Or.inl rfl
  next => exact Or.inl rfl

theorem isSome_mirror (token : Token V) (caches : Caches cfg) (target : Tid cfg.net × Nat)
    (tid : Tid cfg.net) : (mirror token caches target tid).isSome = (caches tid).isSome := by
  rcases mirror_cases token caches target with same | ⟨cache, _, _, hcache, _, _, updated⟩
  · rw [same]
  · rw [updated, Function.update_apply]
    split
    next same => rw [same, hcache]; rfl
    next => rfl

theorem mirror_other {token : Token V} {caches : Caches cfg} {target : Tid cfg.net × Nat}
    {tid : Tid cfg.net} (ne : tid ≠ target.1) : mirror token caches target tid = caches tid := by
  rcases mirror_cases token caches target with same | ⟨_, _, _, _, _, _, updated⟩
  · rw [same]
  · rw [updated, Function.update_of_ne ne]

/-- The state with other caches. -/
def withCaches (caches : Caches cfg) (x : Exec cfg S) : Exec cfg S :=
  { x with ctl := { x.ctl with matchCaches := caches } }

theorem cacheAddTo_run {token : Token V} {target : Tid cfg.net × Nat} {x : Exec cfg S}
    (h : Answers x.ctl.matchCaches token target) : (cacheAddTo token target).run x =
      (.ok (), withCaches (mirror token x.ctl.matchCaches target) x) := by
  unfold cacheAddTo mirror
  rw [Prog.run_gets_bind]
  cases hcache : x.ctl.matchCaches target.1 with
  | none => rfl
  | some cache =>
    cases hkey : targetKey target with
    | none =>
      rw [targetKey] at hkey
      simp only [hkey]
      rfl
    | some mk =>
      obtain ⟨found, hfound⟩ := h (by rw [hcache]; rfl) mk hkey
      rw [targetKey] at hkey
      simp only [hkey, hfound]
      cases found <;> rfl

theorem cacheAddTo_throws {token : Token V} {target : Tid cfg.net × Nat} {x : Exec cfg S}
    (h : ¬ Answers x.ctl.matchCaches token target) :
    ∃ e, (cacheAddTo token target).run x = (.error e, x) := by
  unfold Answers at h
  push Not at h
  obtain ⟨live, mk, hkey, throws⟩ := h
  obtain ⟨cache, hcache⟩ := Option.isSome_iff_exists.mp live
  cases hfound : mk.key token.value with
  | ok found => exact absurd hfound (throws found)
  | error e =>
    refine ⟨e, ?_⟩
    unfold cacheAddTo
    rw [targetKey] at hkey
    rw [Prog.run_gets_bind]
    simp only [hcache, hkey, hfound]
    rfl

/-- The caches with a token mirrored into all of them. -/
def mirrorAll (token : Token V) (targets : List (Tid cfg.net × Nat)) (caches : Caches cfg) : Caches cfg :=
  targets.foldl (mirror token) caches

theorem isSome_mirrorAll (token : Token V) (targets : List (Tid cfg.net × Nat)) (caches : Caches cfg)
    (tid : Tid cfg.net) : (mirrorAll token targets caches tid).isSome = (caches tid).isSome := by
  induction targets generalizing caches with
  | nil => rfl
  | cons target targets ih => rw [mirrorAll, List.foldl_cons, ← mirrorAll, ih, isSome_mirror]

theorem mirrorAll_other {token : Token V} {targets : List (Tid cfg.net × Nat)} {caches : Caches cfg}
    {tid : Tid cfg.net} (ne : ∀ target ∈ targets, tid ≠ target.1) :
    mirrorAll token targets caches tid = caches tid := by
  induction targets generalizing caches with
  | nil => rfl
  | cons target targets ih =>
    rw [mirrorAll, List.foldl_cons, ← mirrorAll, ih fun other h => ne other (List.mem_cons_of_mem _ h),
      mirror_other (ne target List.mem_cons_self)]

theorem each_cacheAddTo_run {token : Token V} {targets : List (Tid cfg.net × Nat)} {x : Exec cfg S}
    (h : ∀ target ∈ targets, Answers x.ctl.matchCaches token target) :
    (Prog.each targets (cacheAddTo token)).run x =
      (.ok (), withCaches (mirrorAll token targets x.ctl.matchCaches) x) := by
  induction targets generalizing x with
  | nil => rfl
  | cons target targets ih =>
    have later : ∀ other ∈ targets, Answers (mirror token x.ctl.matchCaches target) token other := by
      intro other hother live
      rw [isSome_mirror] at live
      exact h other (List.mem_cons_of_mem _ hother) live
    rw [Prog.each_cons, Prog.run_bind_ok (cacheAddTo_run (h target List.mem_cons_self))]
    exact ih later

/-- A throw leaves the caches alone changed. -/
theorem each_cacheAddTo_throws {token : Token V} {targets : List (Tid cfg.net × Nat)} {x : Exec cfg S}
    (h : ∃ target ∈ targets, ¬ Answers x.ctl.matchCaches token target) :
    ∃ e caches, (Prog.each targets (cacheAddTo token)).run x = (.error e, withCaches caches x) := by
  induction targets generalizing x with
  | nil =>
    obtain ⟨_, hmem, _⟩ := h
    exact (List.not_mem_nil hmem).elim
  | cons target targets ih =>
    by_cases first : Answers x.ctl.matchCaches token target
    · have later : ∃ other ∈ targets, ¬ Answers (mirror token x.ctl.matchCaches target) token other := by
        obtain ⟨other, hmem, throws⟩ := h
        rcases List.mem_cons.mp hmem with rfl | hmem
        · exact absurd first throws
        · refine ⟨other, hmem, fun answers => throws fun live => answers ?_⟩
          rwa [isSome_mirror]
      obtain ⟨e, caches, run⟩ := @ih (withCaches (mirror token x.ctl.matchCaches target) x) later
      exact ⟨e, caches, by rw [Prog.each_cons, Prog.run_bind_ok (cacheAddTo_run first), run]; rfl⟩
    · obtain ⟨e, run⟩ := cacheAddTo_throws first
      exact ⟨e, x.ctl.matchCaches, by rw [Prog.each_cons, Prog.run_bind_error run]; rfl⟩

theorem cacheAddToken_run {p : PlaceName} (known : p ∈ placesById cfg.net) {token : Token V}
    {x : Exec cfg S} (projects : Projects x.ctl.matchCaches p token) :
    (cacheAddToken (placeId cfg.net p) token).run x = (.ok (),
      withCaches (mirrorAll token (placeMatchTargets (placeId cfg.net p)) x.ctl.matchCaches) x) :=
  each_cacheAddTo_run (projects known)

theorem cacheAddToken_throws {p : PlaceName} {token : Token V} {x : Exec cfg S}
    (throws : ¬ Projects x.ctl.matchCaches p token) :
    ∃ e caches, (cacheAddToken (placeId cfg.net p) token).run x = (.error e, withCaches caches x) := by
  unfold Projects at throws
  push Not at throws
  exact each_cacheAddTo_throws throws.2

omit [LinearOrder N] in
/-- A cached input stands on a place among the arcs of its transition. -/
theorem arc_of_target {p : PlaceName} (known : p ∈ placesById cfg.net) {target : Tid cfg.net × Nat}
    (h : target ∈ placeMatchTargets (placeId cfg.net p)) : p ∈ arcPlaces (transition target.1) := by
  unfold placeMatchTargets at h
  obtain ⟨tid, _, h⟩ := List.mem_flatMap.mp h
  split at h
  next _ ms _ hms =>
    obtain ⟨keyIdx, _, h⟩ := List.mem_filterMap.mp h
    split at h
    next hplace =>
      cases h
      obtain ⟨mk, hmk, same⟩ := Option.map_eq_some_iff.mp hplace
      have arc := key_arc hms (List.mem_of_getElem? hmk)
      rw [← (placeId_inj (known_of_arc arc) known).mp same]
      exact arc
    next => cases h
  next => exact (List.not_mem_nil h).elim

/-! ## One deposit -/

omit [LinearOrder N] in
theorem terminalFlag_placeId {p : PlaceName} (known : p ∈ placesById cfg.net) :
    terminalFlag cfg.net (placeId cfg.net p) = decide (p ∈ cfg.net.terminals) := by
  unfold terminalFlag
  rw [place_placeId known]

omit [LinearOrder N] in
theorem terminal_known {p : PlaceName} (unknown : p ∉ placesById cfg.net) :
    decide (p ∈ cfg.net.terminals) = false :=
  decide_eq_false fun terminal => unknown (known_of_terminal terminal)

/-- What a deposit changes. -/
structure Deposited (B : Backend cfg S) (p : PlaceName) (token : Token V) (x y : Exec cfg S) : Prop where
  queues : ∀ q, B.queue q y.store =
    if q = p then B.queue p x.store ++ [token] else B.queue q x.store
  flights : ∀ other, B.flight? other y.store = B.flight? other x.store
  size : B.inFlightSize y.store = B.inFlightSize x.store
  enabled : y.ctl.enabledFlags = x.ctl.enabledFlags
  count : y.ctl.enabledTransitionCount = x.ctl.enabledTransitionCount
  since : y.ctl.enabledAtMs = x.ctl.enabledAtMs
  inFlight : y.ctl.inFlightFlags = x.ctl.inFlightFlags
  restarts : y.ctl.restartPendingWords = x.ctl.restartPendingWords ∧
    y.ctl.anyRestartPending = x.ctl.anyRestartPending
  unsettled : y.ctl.unsettled = x.ctl.unsettled
  terminal : y.ctl.terminalReached = (decide (p ∈ cfg.net.terminals) || x.ctl.terminalReached)
  caches : y.ctl.matchCaches = x.ctl.matchCaches ∧ p ∉ placesById cfg.net ∨
    p ∈ placesById cfg.net ∧ y.ctl.matchCaches =
      mirrorAll token (placeMatchTargets (placeId cfg.net p)) x.ctl.matchCaches
  bits : ∀ q ∈ placesById cfg.net, y.ctl.markingBitmap.testBit (placeId cfg.net q) =
    (decide (q = p) || x.ctl.markingBitmap.testBit (placeId cfg.net q))
  dirty : ∀ other : Tid cfg.net, y.ctl.dirtySet.testBit other = true ↔
    x.ctl.dirtySet.testBit other = true ∨ p ∈ arcPlaces (transition other)
  effects : y.history.filter internal = .deposited p token :: x.history.filter internal

variable {B : Backend cfg S} {p : PlaceName} {token : Token V} {x : Exec cfg S}

theorem deposited_hostStable : HostStable B.toStoreOps (Deposited B p token x) := by
  refine HostStable.of_respects fun y z same h => ?_
  have store : z.store = y.store := congrArg Internals.store same
  have ctl : z.ctl = y.ctl := congrArg Internals.ctl same
  have effects : z.history.filter internal = y.history.filter internal :=
    congrArg Internals.effects same
  obtain ⟨queues, flights, size, enabled, count, since, inFlight, restarts, unsettled, terminal, caches, bits,
    dirty, history⟩ := h
  rw [← store] at queues flights size
  rw [← ctl] at enabled count since inFlight restarts unsettled terminal caches bits dirty
  exact ⟨queues, flights, size, enabled, count, since, inFlight, restarts, unsettled, terminal, caches, bits,
    dirty, effects.trans history⟩

theorem Deposited.cache {y : Exec cfg S} (h : Deposited B p token x y) {tid : Tid cfg.net}
    (away : p ∉ arcPlaces (transition tid)) : y.ctl.matchCaches tid = x.ctl.matchCaches tid := by
  rcases h.caches with ⟨same, _⟩ | ⟨known, mirrored⟩
  · rw [same]
  · rw [mirrored]
    refine mirrorAll_other fun target htarget same => away ?_
    rw [same]
    exact arc_of_target known htarget

theorem Deposited.flagged {y : Exec cfg S} (d : Deposited B p token x y) (h : Flagged B x) :
    Flagged B y where
  counted := by rw [d.count, d.enabled, h.counted]
  exclusive := by
    rw [d.enabled, d.inFlight]
    exact h.exclusive
  flights other := by rw [d.inFlight, d.flights, h.flights]

theorem Deposited.marked {y : Exec cfg S} (d : Deposited B p token x y) {q : PlaceName}
    (known : q ∈ placesById cfg.net) (h : Marked B x q) : Marked B y q := by
  unfold Marked at h ⊢
  rw [d.bits q known, d.queues q]
  by_cases same : q = p
  · simp [same]
  · rw [if_neg same, h]
    simp [same]

/-- A deposit marks dirty what it may have enabled or disabled, and changes nothing for the others. -/
theorem Deposited.settled {y : Exec cfg S} (d : Deposited B p token x y) (masks : ByMasks B)
    {other : Tid cfg.net} (h : Settled B x other) : Settled B y other := by
  by_cases meets : p ∈ arcPlaces (transition other)
  · exact Or.inr (Or.inl ((d.dirty other).mpr (Or.inr meets)))
  · have apart : ∀ q ∈ arcPlaces (transition other), q ≠ p := fun q hq same => meets (same ▸ hq)
    refine h.untouched masks
      ⟨fun q hq => (d.queues q).trans (if_neg (apart q hq)), d.cache meets⟩ (fun q hq => ?_)
      (by rw [d.enabled]) (fun dirty => (d.dirty other).mpr (Or.inl dirty))
      (by rw [d.inFlight]; exact id) fun reaped => ?_
    · rw [d.bits q (known_of_arc hq)]
      simp [apart q hq]
    · rw [← reaped_filter, d.effects]
      exact ((reaped_filter _ _).mpr reaped).cons fun q hq moved => apart q hq moved.symm

/-- Where no projection throws, a deposit answers, and only the host acts besides. -/
def Deposits (B : Backend cfg S) : Prop :=
  ∀ {p : PlaceName} {token : Token V} {x : Exec cfg S} (transitionName : String) {I : Exec cfg S → Prop}
    {E : Thrown → Exec cfg S → Prop}, Projects x.ctl.matchCaches p token → HostStable B.toStoreOps I →
    (∀ y, Deposited B p token x y → y.io = x.io → y.history = .deposited p token :: x.history → I y) →
    Prog.Spec (· = x) (B.produceToken p token transitionName) (fun _ => I) E

/-! ## The bitmap executor -/

section Bitmap

variable [Value V] [ToString N] {x : Exec cfg (BitmapStore cfg)}

/-- The state once a token has entered a place the net knows. -/
def depositedAt (p : PlaceName) (token : Token V) (x : Exec cfg (BitmapStore cfg)) :
    Exec cfg (BitmapStore cfg) :=
  { x with
    store := { x.store with marking := x.store.marking.addToken p token }
    ctl := { x.ctl with
      matchCaches := mirrorAll token (placeMatchTargets (placeId cfg.net p)) x.ctl.matchCaches
      markingBitmap := x.ctl.markingBitmap.setBit (placeId cfg.net p)
      dirtySet := dirtied (placeId cfg.net p) x.ctl.dirtySet
      terminalReached := terminalFlag cfg.net (placeId cfg.net p) || x.ctl.terminalReached }
    history := .deposited p token :: x.history }

theorem deposited_depositedAt (known : p ∈ placesById cfg.net) :
    Deposited (BitmapNetExecutor.backend cfg) p token x (depositedAt p token x) where
  queues q := Marking.peekTokens_addToken _ _ _ _
  flights _ := rfl
  size := rfl
  enabled := rfl
  count := rfl
  since := rfl
  inFlight := rfl
  restarts := ⟨rfl, rfl⟩
  unsettled := rfl
  terminal := by rw [← terminalFlag_placeId known]; rfl
  caches := Or.inr ⟨known, rfl⟩
  bits q hq := by
    show (x.ctl.markingBitmap.setBit (placeId cfg.net p)).testBit (placeId cfg.net q) = _
    rw [Bitset.testBit_setBit _ (placeId_lt known)]
    congr 1
    rw [decide_eq_decide, placeId_inj known hq]
    exact eq_comm
  dirty other := by
    rw [← mem_affectedTransitions known]
    exact testBit_dirtied _ _ _
  effects := rfl

omit [Value V] [ToString N] in
theorem produceToken_known (known : p ∈ placesById cfg.net)
    (projects : Projects x.ctl.matchCaches p token) (transitionName : String) :
    (BitmapNetExecutor.produceToken p token transitionName).run x = (.ok (), depositedAt p token x) := by
  -- the token is in its queue, and on the record
  let entered : Exec cfg (BitmapStore cfg) := recorded (.deposited p token)
    (stored { x.store with marking := x.store.marking.addToken p token } x)
  have mirrored := @cacheAddToken_run V N _ cfg _ p known token entered projects
  unfold BitmapNetExecutor.produceToken
  rw [setStore, Prog.run_modify_bind, record, Prog.run_modify_bind, tryPlaceId_eq, if_pos known]
  show (cacheAddToken (placeId cfg.net p) token >>= _).run entered = _
  rw [Prog.run_bind_ok mirrored, setCtl, Prog.run_modify_bind, Prog.run_bind_ok (markDirty_run _ _),
    Prog.run_ite]
  unfold depositedAt
  cases terminalFlag cfg.net (placeId cfg.net p) <;> rfl

/-- An undeclared place has no arc, no bit and no cache. -/
theorem deposited_inert (unknown : p ∉ placesById cfg.net) {s : BitmapStore cfg}
    (marking : s.marking = x.store.marking.addToken p token) (flights : s.inFlight = x.store.inFlight) :
    Deposited (BitmapNetExecutor.backend cfg) p token x (recorded (.deposited p token) (stored s x)) where
  queues q := by
    show s.marking.peekTokens q = _
    rw [marking]
    exact Marking.peekTokens_addToken _ _ _ _
  flights other := congrArg (fun flights => OrderedMap.get? flights other) flights
  size := congrArg OrderedMap.size flights
  enabled := rfl
  count := rfl
  since := rfl
  inFlight := rfl
  restarts := ⟨rfl, rfl⟩
  unsettled := rfl
  terminal := by rw [terminal_known unknown]; rfl
  caches := Or.inl ⟨rfl, unknown⟩
  bits q hq := by
    have apart : q ≠ p := fun same => unknown (same ▸ hq)
    simp only [apart, decide_false, Bool.false_or]
    rfl
  dirty _ := ⟨Or.inl, fun h => h.resolve_right fun arc => unknown (known_of_arc arc)⟩
  effects := rfl

theorem BitmapNetExecutor.deposits : Deposits (BitmapNetExecutor.backend cfg) := by
  intro p token x transitionName I E projects stable deposited
  show Prog.Spec (· = x) (BitmapNetExecutor.produceToken p token transitionName) (fun _ => I) E
  by_cases known : p ∈ placesById cfg.net
  · exact Prog.Spec.of_run (produceToken_known known projects transitionName)
      (deposited _ (deposited_depositedAt known) rfl rfl)
  let entered : Exec cfg (BitmapStore cfg) := recorded (.deposited p token)
    (stored { x.store with marking := x.store.marking.addToken p token } x)
  have warns : Prog.Spec (· = entered) (BitmapNetExecutor.warnUnknownPlace p transitionName)
      (fun _ => I) E := by
    refine Prog.Spec.gets_bind fun warned => Prog.Spec.ite (fun _ => ?_) fun _ => ?_
    · rintro _ ⟨rfl, _⟩
      exact deposited _ (deposited_inert known rfl rfl) rfl rfl
    -- the warning is about what has been deposited
    · refine Prog.Spec.modify_bind (stable.warn _ _) ?_
      rintro _ ⟨rfl, _⟩
      exact deposited _ (deposited_inert known rfl rfl) rfl rfl
  unfold BitmapNetExecutor.produceToken
  rw [tryPlaceId_eq, if_neg known]
  refine Prog.Spec.modify_bind (R := (· = stored { x.store with
    marking := x.store.marking.addToken p token } x)) ?_ (by rintro _ rfl; rfl)
  exact Prog.Spec.modify_bind warns (by rintro _ rfl; rfl)

end Bitmap

/-! ## The precompiled executor -/

section Precompiled

open PrecompiledNetExecutor

variable [Value V] [ToString N] {x : Exec cfg (PrecompiledStore cfg)}

/-- The state once a token has entered a place the net knows. -/
def queuedAt (p : PlaceName) (token : Token V) (x : Exec cfg (PrecompiledStore cfg)) :
    Exec cfg (PrecompiledStore cfg) :=
  { x with
    store := setQueue (placeId cfg.net p) (x.store.tokenQueues (placeId cfg.net p) ++ [token]) x.store
    ctl := { x.ctl with
      matchCaches := mirrorAll token (placeMatchTargets (placeId cfg.net p)) x.ctl.matchCaches
      markingBitmap := x.ctl.markingBitmap.setBit (placeId cfg.net p)
      dirtySet := dirtied (placeId cfg.net p) x.ctl.dirtySet
      terminalReached := terminalFlag cfg.net (placeId cfg.net p) || x.ctl.terminalReached }
    history := .deposited p token :: x.history }

theorem deposited_queuedAt (known : p ∈ placesById cfg.net) :
    Deposited (PrecompiledNetExecutor.backend cfg) p token x (queuedAt p token x) where
  queues q := by
    refine (queueOf_setQueue x.store known _ q).trans ?_
    show _ = if q = p then queueOf p x.store ++ [token] else queueOf q x.store
    rw [queueOf_known x.store known]
  flights _ := rfl
  size := rfl
  enabled := rfl
  count := rfl
  since := rfl
  inFlight := rfl
  restarts := ⟨rfl, rfl⟩
  unsettled := rfl
  terminal := by rw [← terminalFlag_placeId known]; rfl
  caches := Or.inr ⟨known, rfl⟩
  bits q hq := by
    show (x.ctl.markingBitmap.setBit (placeId cfg.net p)).testBit (placeId cfg.net q) = _
    rw [Bitset.testBit_setBit _ (placeId_lt known)]
    congr 1
    rw [decide_eq_decide, placeId_inj known hq]
    exact eq_comm
  dirty other := by
    rw [← mem_affectedTransitions known]
    exact testBit_dirtied _ _ _
  effects := rfl

omit [Value V] [ToString N] in
theorem produceToken_queued (known : p ∈ placesById cfg.net)
    (projects : Projects x.ctl.matchCaches p token) (transitionName : String) :
    (PrecompiledNetExecutor.produceToken p token transitionName).run x = (.ok (), queuedAt p token x) := by
  unfold PrecompiledNetExecutor.produceToken
  rw [tryPlaceId_eq, if_pos known]
  show (cacheAddToken (placeId cfg.net p) token >>= _).run x = _
  rw [Prog.run_bind_ok (cacheAddToken_run known projects), setStore, Prog.run_modify_bind, record,
    Prog.run_modify_bind, setCtl, Prog.run_modify_bind, Prog.run_bind_ok (markDirty_run _ _), Prog.run_ite]
  unfold queuedAt
  cases terminalFlag cfg.net (placeId cfg.net p) <;> rfl

theorem PrecompiledNetExecutor.deposits : Deposits (PrecompiledNetExecutor.backend cfg) := by
  intro p token x transitionName I E projects stable deposited
  show Prog.Spec (· = x) (PrecompiledNetExecutor.produceToken p token transitionName) (fun _ => I) E
  by_cases known : p ∈ placesById cfg.net
  · exact Prog.Spec.of_run (produceToken_queued known projects transitionName)
      (deposited _ (deposited_queuedAt known) rfl rfl)
  unfold PrecompiledNetExecutor.produceToken
  rw [tryPlaceId_eq, if_neg known]
  refine Prog.Spec.gets_bind fun retained => ?_
  let s : PrecompiledStore cfg := { x.store with
    unknownPlaceTokens := x.store.unknownPlaceTokens.set p (retained.getD [] ++ [token]) }
  refine Prog.Spec.modify_bind (R := fun y => y = stored s x ∧ x.store.unknownPlaceTokens.get? p = retained)
    ?_ (by rintro _ ⟨rfl, same⟩; exact ⟨rfl, same⟩)
  have kept (held : x.store.unknownPlaceTokens.get? p = retained) :
      I (recorded (.deposited p token) (stored s x)) := by
    refine deposited _ ?_ rfl rfl
    exact
      { queues := fun q => by
          show queueOf q s = if q = p then queueOf p x.store ++ [token] else queueOf q x.store
          unfold queueOf
          rw [tryPlaceId_eq, tryPlaceId_eq, if_neg known]
          by_cases same : q = p
          · subst same
            rw [if_neg known, if_pos rfl]
            show ((x.store.unknownPlaceTokens.set q _).get? q).getD [] = _
            rw [OrderedMap.get?_set, if_pos rfl, ← held]
            rfl
          · rw [if_neg same]
            split
            · rfl
            · show ((x.store.unknownPlaceTokens.set p _).get? q).getD [] = _
              rw [OrderedMap.get?_set, if_neg same]
        flights := fun _ => rfl
        size := rfl
        enabled := rfl
        count := rfl
        since := rfl
        inFlight := rfl
        restarts := ⟨rfl, rfl⟩
        unsettled := rfl
        terminal := by rw [terminal_known known]; rfl
        caches := Or.inl ⟨rfl, known⟩
        bits := fun q hq => by
          have apart : q ≠ p := fun same => known (same ▸ hq)
          simp only [apart, decide_false, Bool.false_or]
          rfl
        dirty := fun _ => ⟨Or.inl, fun h => h.resolve_right fun arc => known (known_of_arc arc)⟩
        effects := rfl }
  refine Prog.Spec.modify_bind (R := I) ?_ (by rintro _ ⟨rfl, held⟩; exact kept held)
  exact Prog.Spec.ite (fun _ _ hy => hy) fun _ => stable.warn _ _

end Precompiled

end LibPetri.Verified

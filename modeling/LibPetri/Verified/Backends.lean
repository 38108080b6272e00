import LibPetri.Verified.Deposits
import LibPetri.Verified.Precompilation

/-! # What the two executors implement

The parts of an executor that are not shared are characterised by rules: consumption by `Consuming`,
deposits by `Deposits`, validation by its verdict.  `Conforms` collects them, and both executors
conform.  What is proved from it holds of both.
-/

namespace LibPetri.Verified

open LibPetri.Basis LibPetri.Core LibPetri.Runtime CompiledNet PrecompiledNet Executor

variable {V N : Type} [LinearOrder N] {cfg : Setting V N} {S : Type}

/-! ## Consumption -/

/-- The caches once a firing of `tid` has chosen `name`. -/
def claimed (tid : Tid cfg.net) (name : N) (caches : Caches cfg) : Caches cfg :=
  match caches tid with
  | some cache => Function.update caches tid (some (cache.consume name))
  | none => caches

theorem claimed_other {tid other : Tid cfg.net} (ne : other ≠ tid) (name : N) (caches : Caches cfg) :
    claimed tid name caches other = caches other := by
  unfold claimed
  cases caches tid with
  | none => rfl
  | some cache => exact Function.update_of_ne ne _ _

/-- What a property indexed by the consumption must survive for the whole stage to establish it, from
`Start` and throwing within `E`. -/
structure Consuming (ops : StoreOps cfg S) (tid : Tid cfg.net) (Start : Exec cfg S → Prop)
    (I : Consumption V N → Exec cfg S → Prop) (E : Thrown → Exec cfg S → Prop) : Prop
    extends Taking ops (transition tid) I E where
  unmatched : ∀ x, Start x → I ⟨[], [], none⟩ x
  matched : ∀ x name, Start x → bindingOf ops tid x = .ok (some name) →
    I ⟨[], [], some name⟩ (withCaches (claimed tid name x.ctl.matchCaches) x)
  unbound : ∀ x e, Start x → bindingOf ops tid x = .error e → E e x
  reads : ∀ c x seen, I c x → I { c with inputs := c.inputs ++ seen } x
  dry : ∀ c x e, I c x → E e x

namespace Consuming

variable {ops : StoreOps cfg S} {tid : Tid cfg.net} {Start : Exec cfg S → Prop}
  {I : Consumption V N → Exec cfg S → Prop} {E : Thrown → Exec cfg S → Prop}
  (h : Consuming ops tid Start I E)
include h

theorem chooseBinding : Prog.Spec Start (chooseBinding ops tid) (fun chosen => I ⟨[], [], chosen⟩) E := by
  refine Prog.Spec.gets_bind fun x => Prog.Spec.lift_bind (fun chosen hchosen => ?_) ?_
  · rintro y ⟨hy, rfl⟩
    cases hcache : y.ctl.matchCaches tid with
    | none =>
      cases chosen with
      | none =>
        simp only [id, hcache]
        exact h.unmatched y hy
      | some name =>
        have after := h.matched y name hy hchosen
        have same : withCaches (claimed tid name y.ctl.matchCaches) y = y := by
          rw [claimed, hcache]
          rfl
        rw [same] at after
        simp only [id, hcache]
        exact after
    | some cache =>
      cases chosen with
      | none =>
        simp only [id, hcache]
        exact h.unmatched y hy
      | some name =>
        have after := h.matched y name hy hchosen
        rw [claimed, hcache] at after
        simp only [id, hcache]
        exact after
  · rintro e he y ⟨hy, rfl⟩
    exact h.unbound y e hy he

/-- The stage past the choice of a name. -/
theorem taken (chosen : Option N) {reads : Consumption V N → Method cfg S (Consumption V N)}
    (hreads : ∀ c, Prog.Spec (I c) (reads c) I E) : Prog.Spec (I ⟨[], [], chosen⟩) (do
      let c ← consumeInputs ops (transition tid) chosen (transition tid).inputSpecs
        { inputs := [], consumed := [], matchedName := chosen }
      let c ← reads c
      resetPlaces ops (transition tid).resets c) I E := by
  refine Prog.Spec.bind (h.toTaking.consumeInputs chosen (fun _ => id) _) fun c => ?_
  exact Prog.Spec.bind (hreads c) fun c => h.toTaking.resetPlaces (fun _ => id) c

end Consuming

/-! ## Conforming executors -/

/-- Validation answers by its verdict on the flight; at most it warns. -/
def Validates (B : Backend cfg S) (verdict : Tid cfg.net → Flight V N → Except Thrown Unit) : Prop :=
  ∀ (tid : Tid cfg.net) (flight : Flight V N) {I : Exec cfg S → Prop} {E : Thrown → Exec cfg S → Prop},
    HostStable B.toStoreOps I →
    (∀ x warned, I x → I { x with ctl := { x.ctl with warnedMultiplicity := warned } }) →
    (∀ x e, I x → verdict tid flight = .error e → E e x) →
    Prog.Spec I (B.validateOutput tid flight) (fun _ x => verdict tid flight = .ok () ∧ I x) E

structure Conforms (B : Backend cfg S) (verdict : Tid cfg.net → Flight V N → Except Thrown Unit) : Prop
    extends LawfulBackend B where
  consume : ∀ (tid : Tid cfg.net) {Start I E}, Consuming B.toStoreOps tid Start I E →
    Prog.Spec Start (B.consume tid) I E
  deposits : Deposits B
  validates : Validates B verdict

/-- Consumption leaves a state in the middle of the firing, however it ends. -/
theorem midTake_consume {B : Backend cfg S} {verdict : Tid cfg.net → Flight V N → Except Thrown Unit}
    (conforms : Conforms B verdict) (tid : Tid cfg.net) (x : Exec cfg S) :
    Prog.Spec (MidTake B tid x) (B.consume tid) (fun _ => MidTake B tid x) fun _ => MidTake B tid x :=
  conforms.consume tid (I := fun _ => MidTake B tid x)
    { midTake_taking conforms.lawful with
      unmatched := fun _ h => h
      matched := fun _ name h _ => ⟨h.1.frame rfl rfl rfl rfl rfl (fun _ ne => claimed_other ne name _)
        (fun _ _ => Or.inr rfl) (fun _ => id) fun _ => id, h.2⟩
      unbound := fun _ _ h _ => h
      reads := fun _ _ _ h => h
      dry := fun _ _ _ h => h }

theorem warnMultiplicity_spec {ops : StoreOps cfg S} {I : Exec cfg S → Prop}
    {E : Thrown → Exec cfg S → Prop} (stable : HostStable ops I)
    (warned : ∀ x warned, I x → I { x with ctl := { x.ctl with warnedMultiplicity := warned } })
    (name : String) (entries : List (PlaceName × Token V)) (claim : List PlaceName) :
    Prog.Spec I (warnMultiplicity ops name entries claim) (fun _ => I) E := by
  refine Prog.Spec.gets_bind fun names => Prog.Spec.ite (fun _ x hx => hx.1) fun _ => ?_
  exact Prog.Spec.modify_bind (stable.warn _ _) fun x hx => warned x _ hx.1

variable [Value V] [ToString N]

/-! ## The bitmap executor -/

namespace BitmapNetExecutor

open LibPetri.Runtime.BitmapNetExecutor

theorem byMasks : ByMasks (backend cfg) := fun _ _ => rfl

/-- What the checks of a completed firing say. -/
def verdict (tid : Tid cfg.net) (flight : Flight V N) : Except Thrown Unit :=
  match (transition tid).outputSpec with
  | none => .ok ()
  | some spec => do
    let _ ← validateOutSpec (transition tid).name spec (placesWithTokens flight.entries)
    validateRelays (transition tid) flight.entries flight.matchedName

omit [Value V] [ToString N] in
theorem consume_spec (tid : Tid cfg.net) {Start : Exec cfg (BitmapStore cfg) → Prop}
    {I : Consumption V N → Exec cfg (BitmapStore cfg) → Prop}
    {E : Thrown → Exec cfg (BitmapStore cfg) → Prop} (h : Consuming (storeOps cfg) tid Start I E) :
    Prog.Spec Start (consume tid) I E := by
  have rest (chosen : Option N) : Prog.Spec (I ⟨[], [], chosen⟩) (do
      let c ← consumeInputs (storeOps cfg) (transition tid) chosen (transition tid).inputSpecs
        { inputs := [], consumed := [], matchedName := chosen }
      let marking ← Prog.gets fun x => x.store.marking
      resetPlaces (storeOps cfg) (transition tid).resets
        (peekReads marking.peekTokens (transition tid).reads c)) I E := by
    refine Prog.Spec.bind (h.toTaking.consumeInputs chosen (fun _ => id) _) fun c => ?_
    refine Prog.Spec.gets_bind fun marking x hx => ?_
    exact h.toTaking.resetPlaces (fun _ => id) _ x (h.reads c x _ hx.1)
  unfold consume
  refine Prog.Spec.ite (fun _ => ?_) fun _ => ?_
  · exact Prog.Spec.bind h.chooseBinding rest
  · exact Prog.Spec.bind (Q := fun chosen => I ⟨[], [], chosen⟩) h.unmatched rest

theorem validates : Validates (backend cfg) verdict := by
  intro tid flight I E stable warned fails
  show Prog.Spec I (validateOutput tid flight) _ E
  unfold validateOutput
  cases spec : (transition tid).outputSpec with
  | none =>
    have passes : verdict tid flight = .ok () := by rw [verdict, spec]
    simp only [spec]
    exact fun x hx => ⟨passes, hx⟩
  | some out =>
    have said : verdict tid flight = (do
        let _ ← validateOutSpec (transition tid).name out (placesWithTokens flight.entries)
        validateRelays (transition tid) flight.entries flight.matchedName) := by rw [verdict, spec]
    simp only [spec]
    refine Prog.Spec.lift_bind (fun claim hclaim => ?_) fun e he x hx => fails x e hx ?_
    · rw [hclaim] at said
      refine Prog.Spec.lift_bind (fun _ hrelays => ?_) fun e he x hx => fails x e hx (said.trans he)
      have passes : verdict tid flight = .ok () := said.trans hrelays
      refine Prog.Spec.ite (fun _ => ?_) fun _ x hx => ⟨passes, hx⟩
      exact (warnMultiplicity_spec stable warned _ _ _).conseq (fun _ => id) (fun _ _ h => ⟨passes, h⟩)
        fun _ _ => id
    · rw [said, he]
      rfl

theorem conforms : Conforms (backend cfg) verdict where
  lawful := BitmapNetExecutor.lawful cfg
  masks := byMasks
  discard tid x _ absent := by
    show (BitmapNetExecutor.discard tid).run x = _
    change x.store.inFlight.get? tid = none at absent
    rw [BitmapNetExecutor.discard, Prog.run_gets_bind, absent]
    rfl
  consume := consume_spec
  deposits := BitmapNetExecutor.deposits
  validates := validates

end BitmapNetExecutor

/-! ## The precompiled executor -/

namespace PrecompiledNetExecutor

open LibPetri.Runtime.PrecompiledNetExecutor

theorem byMasks : ByMasks (backend cfg) := canEnableSparse_eq

/-- What the checks of a completed firing say.  An output of one place has a check of its own. -/
def verdict (tid : Tid cfg.net) (flight : Flight V N) : Except Thrown Unit :=
  match cfg.skipOutputValidation, (transition tid).outputSpec with
  | false, some spec =>
    let produced := placesWithTokens flight.entries
    if 0 ≤ simpleOutputPlaceId tid then
      if place cfg.net (simpleOutputPlaceId tid).toNat ∉ produced then
        .error (outViolation
          (s!"'{(transition tid).name}': output does not match the declared spec - produced \x7b\x7d, " ++
            "which no single branch of the spec claims exactly"))
      else validateRelays (transition tid) flight.entries flight.matchedName
    else if simpleOutputPlaceId tid = -1 then do
      let _ ← validateOutSpec (transition tid).name spec produced
      validateRelays (transition tid) flight.entries flight.matchedName
    else validateRelays (transition tid) flight.entries flight.matchedName
  | _, _ => .ok ()

section Stage

variable {tid : Tid cfg.net} {Start : Exec cfg (PrecompiledStore cfg) → Prop}
  {I : Consumption V N → Exec cfg (PrecompiledStore cfg) → Prop}
  {E : Thrown → Exec cfg (PrecompiledStore cfg) → Prop}

omit [Value V] [ToString N] in
theorem takeInput_spec (h : Consuming (storeOps cfg) tid Start I E) {spec : In}
    (hspec : spec ∈ (transition tid).inputSpecs) (c : Consumption V N) :
    Prog.Spec (I c) (takeInput spec c) I E := by
  refine Prog.Spec.gets_bind fun n => ?_
  refine (takeTokens_spec h.stable (fun c x hx => ?_) n c).conseq (fun x hx => hx.1) (fun _ _ => id) fun _ _ => id
  have step := h.first spec hspec c x hx
  have same : (storeOps cfg).removeFirst spec.place x.store =
      shift (placeId cfg.net spec.place) x.store := rfl
  rw [same] at step
  rcases removal : shift (placeId cfg.net spec.place) x.store with ⟨_ | token, s⟩
  · rw [removal] at step
    simp only [shiftToken, onStore, removal]
    exact h.dry _ _ _ step
  · rw [removal] at step
    simp only [shiftToken, onStore, removal]
    exact step

omit [Value V] [ToString N] in
theorem takeInputs_spec (h : Consuming (storeOps cfg) tid Start I E) {specs : List In}
    (sub : ∀ spec ∈ specs, spec ∈ (transition tid).inputSpecs) (c : Consumption V N) :
    Prog.Spec (I c) (takeInputs specs c) I E := by
  induction specs generalizing c with
  | nil => exact fun x hx => hx
  | cons spec specs ih =>
    exact Prog.Spec.bind (takeInput_spec h (sub spec List.mem_cons_self) c) fun c =>
      ih (fun other hother => sub other (List.mem_cons_of_mem _ hother)) c

omit [Value V] [ToString N] in
theorem peekReadArcs_spec (h : Consuming (storeOps cfg) tid Start I E) (c : Consumption V N) :
    Prog.Spec (I c) (peekReadArcs tid c) I E :=
  Prog.Spec.gets_bind fun _ x hx => h.reads c x _ hx.1

omit [Value V] [ToString N] in
theorem consume_spec (h : Consuming (storeOps cfg) tid Start I E) :
    Prog.Spec Start (consume tid) I E := by
  cases unmatched : (transition tid).matchSpec with
  | none =>
    rw [consume_unmatched unmatched]
    refine Prog.Spec.bind ((takeInputs_spec h (fun _ => id) _).conseq h.unmatched (fun _ _ => id)
      fun _ _ => id) fun c => ?_
    exact Prog.Spec.bind (peekReadArcs_spec h c) fun c => h.toTaking.resetPlaces (fun _ => id) c
  | some ms =>
    unfold consume
    refine Prog.Spec.ite (fun _ => ?_) fun bare => absurd (by rw [unmatched]; rfl) bare
    exact Prog.Spec.bind h.chooseBinding fun chosen => h.taken chosen (peekReadArcs_spec h)

end Stage

theorem validates : Validates (backend cfg) verdict := by
  intro tid flight I E stable warned fails
  show Prog.Spec I (validateOutput tid flight) _ E
  unfold validateOutput
  have warns (passes : verdict tid flight = .ok ()) (claim : List PlaceName) :
      Prog.Spec I (if (placesWithTokens flight.entries).length < flight.entries.length then
        warnMultiplicity (storeOps cfg) (transition tid).name flight.entries claim else pure ())
      (fun _ x => verdict tid flight = .ok () ∧ I x) E := by
    refine Prog.Spec.ite (fun _ => ?_) fun _ x hx => ⟨passes, hx⟩
    exact (warnMultiplicity_spec stable warned _ _ _).conseq (fun _ => id) (fun _ _ h => ⟨passes, h⟩)
      fun _ _ => id
  cases skip : cfg.skipOutputValidation with
  | true =>
    have passes : verdict tid flight = .ok () := by rw [verdict, skip]
    exact fun x hx => ⟨passes, hx⟩
  | false =>
    cases spec : (transition tid).outputSpec with
    | none =>
      have passes : verdict tid flight = .ok () := by rw [verdict, skip, spec]
      simp only [spec]
      exact fun x hx => ⟨passes, hx⟩
    | some out =>
      simp only [spec]
      refine Prog.Spec.ite (fun simple => ?_) fun complex => Prog.Spec.ite (fun multi => ?_) fun other => ?_
      -- one place
      · refine Prog.Spec.ite (fun missing x hx => fails x _ hx ?_) fun produced => ?_
        · rw [verdict, skip, spec]
          simp only [if_pos simple, if_pos missing]
        · have said : verdict tid flight =
              validateRelays (transition tid) flight.entries flight.matchedName := by
            rw [verdict, skip, spec]
            simp only [if_pos simple, if_neg produced]
          refine Prog.Spec.lift_bind (fun _ hrelays => ?_) fun e he x hx => fails x e hx (said.trans he)
          exact warns (said.trans hrelays) _
      -- a branching output
      · have said : verdict tid flight = (do
            let _ ← validateOutSpec (transition tid).name out (placesWithTokens flight.entries)
            validateRelays (transition tid) flight.entries flight.matchedName) := by
          rw [verdict, skip, spec]
          simp only [if_neg complex, if_pos multi]
        refine Prog.Spec.lift_bind (fun claim hclaim => ?_) fun e he x hx => fails x e hx ?_
        · rw [hclaim] at said
          refine Prog.Spec.lift_bind (fun _ hrelays => ?_) fun e he x hx => fails x e hx (said.trans he)
          exact warns (said.trans hrelays) _
        · rw [said, he]
          rfl
      · have said : verdict tid flight =
            validateRelays (transition tid) flight.entries flight.matchedName := by
          rw [verdict, skip, spec]
          simp only [if_neg complex, if_neg other]
        intro x hx
        cases hrelays : validateRelays (transition tid) flight.entries flight.matchedName with
        | ok _ => exact ⟨said.trans hrelays, hx⟩
        | error e => exact fails x e hx (said.trans hrelays)

theorem conforms : Conforms (backend cfg) verdict where
  lawful := PrecompiledNetExecutor.lawful cfg
  masks := byMasks
  discard tid x idle _ := by
    show (PrecompiledNetExecutor.discard tid).run x = _
    rw [PrecompiledNetExecutor.discard, Prog.run_gets_bind, idle]
    rfl
  consume _ := consume_spec
  deposits := PrecompiledNetExecutor.deposits
  validates := validates

end PrecompiledNetExecutor

end LibPetri.Verified

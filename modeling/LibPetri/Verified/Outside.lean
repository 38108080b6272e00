import LibPetri.Verified.TokenInvariants

/-! # Invariants of what the host sees

Events, promises, wake-ups and lifecycle do not depend on where the tokens are.  An `Outer` invariant
survives any change of store and bookkeeping, so every operation on tokens keeps it, and keeps it when
it throws as well.
-/

namespace LibPetri.Verified

open LibPetri.Basis LibPetri.Core LibPetri.Runtime CompiledNet Executor

variable {V N : Type} [LinearOrder N] {cfg : Setting V N} {S : Type}

/-- About tokens and firings alone. -/
def inward {net : PetriNet V N} : Effect net → Bool
  | .seeded _ _ | .began _ | .took _ _ _ | .reset _ _ | .launched _ _ _ _ | .aborted _ | .settled _ _
  | .deposited _ _ | .landed _ | .failed _ | .reaped _ => true
  | _ => false

structure Outer (B : Backend cfg S) (I : Exec cfg S → Prop) : Prop extends HostStable B.toStoreOps I where
  stored : ∀ x s, I x → I (stored s x)
  control : ∀ x c, I x → I { x with ctl := c }
  inward : ∀ x e, inward e = true → I x → I (recorded e x)
  clock : ∀ x n, I x → I { x with io := { x.io with nowReads := n } }
  starts : ∀ x n, I x → I { x with io := { x.io with firings := n } }

variable {B : Backend cfg S} {I : Exec cfg S → Prop}

theorem Outer.apart (h : Outer B I) : Apart B I :=
  { h.toHostStable with
    bookkeeping := fun x c _ _ _ hx => h.control x c hx
    clock := h.clock
    starts := h.starts
    reaped := fun x _ hx => h.inward x _ rfl hx
    stored := h.stored
    withCaches := fun x _ hx => h.control x _ hx
    unsettled := fun x _ hx => h.control x _ hx
    ofFiring := fun x e firing hx => h.inward x e (by cases e <;> first | rfl | cases firing) hx }

/-- The operations an executor implements its own way keep every outer invariant, also when they throw. -/
structure Confined (B : Backend cfg S) : Prop where
  consume : ∀ {I}, Outer B I → ∀ tid, Prog.Spec I (B.consume tid) (fun _ => I) fun _ => I
  discard : ∀ {I}, Outer B I → ∀ tid, Prog.Spec I (B.discard tid) (fun _ => I) fun _ => I
  validateOutput : ∀ {I}, Outer B I → ∀ tid flight,
    Prog.Spec I (B.validateOutput tid flight) (fun _ => I) fun _ => I
  produceToken : ∀ {I}, Outer B I → ∀ p token name,
    Prog.Spec I (B.produceToken p token name) (fun _ => I) fun _ => I

/-! ## The shared operations -/

section Operations

variable (confined : Confined B) (h : Outer B I)
include h

theorem Outer.setCtl (f : Control cfg.net → Control cfg.net) {E : Thrown → Exec cfg S → Prop} :
    Prog.Spec I (setCtl f : Method cfg S Unit) (fun _ => I) E := fun x hx => h.control x _ hx

theorem Outer.scan : Prog.Spec I (updateDirtyTransitions B) (fun _ => I) fun _ => I :=
  h.apart.updateDirtyTransitions fun _ _ hx => hx

theorem Outer.cacheAddToken (pid : Nat) (token : Token V) :
    Prog.Spec I (cacheAddToken pid token : Method cfg S Unit) (fun _ => I) fun _ => I := by
  refine Prog.Spec.each fun target _ => Prog.Spec.gets_bind fun cache => ?_
  cases cache with
  | none => exact fun x hx => hx.1
  | some cache =>
    cases (transition target.1).matchSpec.bind fun ms => ms.keys[target.2]? with
    | none => exact fun x hx => hx.1
    | some mk =>
      refine Prog.Spec.lift_bind (fun name _ => ?_) fun e _ x hx => hx.1
      cases name with
      | none => exact fun x hx => hx.1
      | some name => exact fun x hx => h.control x _ hx.1

include confined

theorem Outer.fireTransition (tid : Tid cfg.net) :
    Prog.Spec I (fireTransition B tid) (fun _ => I) fun _ => I := by
  have aloof := h.apart.toAloof
  refine Prog.Spec.modify_bind (R := I) ?_ fun x hx => h.inward x _ rfl hx
  refine Prog.Spec.bind (confined.consume h tid) fun c => ?_
  refine Prog.Spec.bind (aloof.updateBitmapAfterConsumption (fun _ _ hx => hx) tid) fun _ => ?_
  refine Prog.Spec.bind (h.emitEvent _) fun _ => Prog.Spec.gets_bind fun start => ?_
  refine Prog.Spec.modify_bind (R := I) ?_ fun x hx => h.starts x _ hx.1
  have rest : Prog.Spec I (do
      let entries ← executeAction B.toStoreOps (transition tid) start.syncSteps []
      let startMs ← nowMs
      launch B tid
        { inputs := c.inputs, entries := entries, detached := false, consumed := c.consumed
          startMs := startMs, status := .running, error := none, matchedName := c.matchedName })
      (fun _ => I) fun _ => I := by
    refine Prog.Spec.bind (executeAction_spec h.toHostStable _ _ _) fun entries => ?_
    refine Prog.Spec.bind aloof.nowMs fun startMs x hx => ?_
    exact h.inward _ _ rfl (h.control (Verified.stored _ x) _ (h.stored x _ hx))
  cases start.provider with
  | some e => exact fun x hx => hx
  | none => exact rest

theorem Outer.fireTransitionContained (tid : Tid cfg.net) :
    Prog.Spec I (fireTransitionContained B tid) (fun _ => I) fun _ => I := by
  have aloof := h.apart.toAloof
  refine Prog.Spec.modify_bind (R := I) ?_ fun x hx => h.control x _ hx
  refine Prog.Spec.tryCatch (E := fun _ => I) ?_ fun e => ?_
  · exact Prog.Spec.bind (h.fireTransition confined tid) fun _ => h.setCtl _
  refine Prog.Spec.modify_bind (R := I) ?_ fun x hx => h.control x _ hx
  refine Prog.Spec.modify_bind (R := I) ?_ fun x hx => h.inward x _ rfl hx
  have rest : Prog.Spec I (do
      B.discard tid
      updateBitmapAfterConsumption B tid
      Executor.setCtl fun c => { c with matchCaches := Function.update c.matchCaches tid none }
      let err ← Prog.lift (asError e)
      emitFailed B.toStoreOps (transition tid).name err
      markTransitionDirty tid) (fun _ => I) fun _ => I := by
    refine Prog.Spec.bind (confined.discard h tid) fun _ => ?_
    refine Prog.Spec.bind (aloof.updateBitmapAfterConsumption (fun _ _ hx => hx) tid) fun _ => ?_
    refine Prog.Spec.modify_bind (R := I) ?_ fun x hx => h.control x _ hx
    refine Prog.Spec.lift_bind (fun err _ => ?_) fun _ _ x hx => hx
    exact Prog.Spec.bind (h.emitFailed _ _) fun _ => h.setCtl _
  refine Prog.Spec.gets_bind fun flag => Prog.Spec.ite (fun _ => ?_) fun _ => ?_
  · exact Prog.Spec.modify_bind rest fun x hx => h.control x _ hx.1
  · exact rest.conseq (fun x hx => hx.1) (fun _ _ => id) fun _ _ => id

theorem Outer.fireImmediate (tid : Tid cfg.net) :
    Prog.Spec I (fireImmediate B tid) (fun _ => I) fun _ => I := by
  refine Prog.Spec.gets_bind fun c => Prog.Spec.ite (fun _ x hx => hx.1) fun _ => ?_
  refine Prog.Spec.bind (Q := fun _ => I) ?_ fun fires => Prog.Spec.ite (fun _ => ?_) fun _ => h.setCtl _
  · exact (Aloof.checkEnabled (fun _ _ hx => hx) tid _).conseq (fun x hx => hx.1) (fun _ _ => id)
      fun _ _ => id
  · exact h.fireTransitionContained confined tid

theorem Outer.fireReady (snap : Bitset (placeCount cfg.net)) (tid : Tid cfg.net) :
    Prog.Spec I (fireReady B snap tid) (fun _ => I) fun _ => I := by
  refine Prog.Spec.gets_bind fun enabled => Prog.Spec.ite (fun _ => ?_) fun _ => ?_
  · refine Prog.Spec.bind (Q := fun _ => I) ?_ fun fires => Prog.Spec.ite (fun _ => ?_) fun _ => ?_
    · exact (Aloof.checkEnabled (fun _ _ hx => hx) tid _).conseq (fun x hx => hx.1) (fun _ _ => id)
        fun _ _ => id
    · exact Prog.Spec.bind (h.fireTransitionContained confined tid) fun _ _ hx => hx
    · exact fun x hx => h.control x _ hx
  · exact fun x hx => h.control x _ hx.1

theorem Outer.completeTransition (tid : Tid cfg.net) :
    Prog.Spec I (completeTransition B tid) (fun _ => I) fun _ => I := by
  refine Prog.Spec.gets_bind fun found => ?_
  cases found with
  | none => exact fun x hx => hx.1
  | some flight =>
    have fails (e : Thrown) : Prog.Spec I (failCompletion B tid e) (fun _ => I) fun _ => I := by
      refine Prog.Spec.modify_bind (R := I) ?_ fun x hx => h.inward x _ rfl hx
      refine Prog.Spec.lift_bind (fun err _ => ?_) fun _ _ x hx => hx
      exact Prog.Spec.bind (h.emitFailed _ _) fun _ => h.setCtl _
    refine Prog.Spec.modify_bind (R := I) ?_ fun x hx => h.inward x _ rfl hx.1
    refine Prog.Spec.modify_bind (R := I) ?_ fun x hx => h.stored x _ hx
    refine Prog.Spec.modify_bind (R := I) ?_ fun x hx => h.control x _ hx
    cases flight.error.filter Thrown.truthy with
    | some e => exact fails e
    | none =>
      refine Prog.Spec.modify_bind (R := I) ?_ fun x hx => h.control x _ hx
      refine Prog.Spec.tryCatch (E := fun _ => I) ?_ fun e => ?_
      · refine Prog.Spec.bind (confined.validateOutput h tid flight) fun _ => ?_
        refine Prog.Spec.bind (Prog.Spec.each fun entry _ =>
          Prog.Spec.bind (confined.produceToken h _ _ _) fun _ => h.emitEvent _) fun _ => ?_
        refine Prog.Spec.bind (h.setCtl _) fun _ => ?_
        refine Prog.Spec.modify_bind (R := I) ?_ fun x hx => h.control x _ hx
        refine Prog.Spec.modify_bind (R := I) ?_ fun x hx => h.inward x _ rfl hx
        exact Prog.Spec.bind h.apart.toAloof.nowMs fun _ => h.emitEvent _
      · exact Prog.Spec.modify_bind (fails e) fun x hx => h.control x _ hx

end Operations

/-! ## The two executors -/

/-- Consumption in general: whatever is taken, an outer invariant stays. -/
theorem Outer.consuming (h : Outer B I) (tid : Tid cfg.net) :
    Consuming B.toStoreOps tid I (fun _ => I) fun _ => I :=
  { h.apart.taking (fun _ => id) (transition tid) with
    unmatched := fun _ hx => hx
    matched := fun x _ hx _ => h.control x _ hx
    unbound := fun _ _ hx _ => hx
    reads := fun _ _ _ hx => hx
    dry := fun _ _ _ hx => hx }

theorem Conforms.confined {verdict : Tid cfg.net → Flight V N → Except Thrown Unit} (conforms : Conforms B verdict)
    (discard : ∀ {I}, Outer B I → ∀ tid, Prog.Spec I (B.discard tid) (fun _ => I) fun _ => I)
    (produceToken : ∀ {I}, Outer B I → ∀ p token name,
      Prog.Spec I (B.produceToken p token name) (fun _ => I) fun _ => I) : Confined B where
  consume h tid := conforms.consume tid (h.consuming tid)
  discard := discard
  validateOutput h tid flight :=
    (conforms.validates tid flight h.toHostStable (fun x _ hx => h.control x _ hx) fun _ _ hx _ => hx).conseq
      (fun _ => id) (fun _ _ hx => hx.2) fun _ _ => id
  produceToken := produceToken

/-- The tail of a deposit: the caches, the bit, the dirty set, the terminal flag. -/
theorem Outer.marks (h : Outer B I) (pid : Nat) :
    Prog.Spec I (do
      Executor.setCtl fun c => { c with markingBitmap := c.markingBitmap.setBit pid }
      markDirty pid
      if terminalFlag cfg.net pid then Executor.setCtl fun c => { c with terminalReached := true }
      else pure () : Method cfg S Unit) (fun _ => I) fun _ => I := by
  refine Prog.Spec.bind (h.setCtl _) fun _ => ?_
  refine Prog.Spec.bind (h.apart.toAloof.markDirty pid) fun _ => ?_
  exact Prog.Spec.ite (fun _ => h.setCtl _) fun _ x hx => hx

variable [Value V] [ToString N]

namespace BitmapNetExecutor

open LibPetri.Runtime.BitmapNetExecutor

theorem confined : Confined (backend cfg) := by
  refine conforms.confined (fun {I} h tid => ?_) fun {I} h p token name => ?_
  · refine Prog.Spec.gets_bind fun found => ?_
    cases found with
    | none => exact fun x hx => hx.1
    | some _ =>
      refine Prog.Spec.modify_bind (R := I) ?_ fun x hx => h.stored x _ hx.1
      exact h.setCtl _
  · refine Prog.Spec.modify_bind (R := I) ?_ fun x hx => h.stored x _ hx
    refine Prog.Spec.modify_bind (R := I) ?_ fun x hx => h.inward x _ rfl hx
    cases tryPlaceId cfg.net p with
    | some pid => exact Prog.Spec.bind (h.cacheAddToken pid token) fun _ => h.marks pid
    | none =>
      refine Prog.Spec.gets_bind fun warned => Prog.Spec.ite (fun _ x hx => hx.1) fun _ => ?_
      exact Prog.Spec.modify_bind (h.warn _ _) fun x hx => h.stored x _ hx.1

end BitmapNetExecutor

namespace PrecompiledNetExecutor

open LibPetri.Runtime.PrecompiledNetExecutor

theorem confined : Confined (backend cfg) := by
  refine conforms.confined (fun {I} h tid => ?_) fun {I} h p token name => ?_
  · refine Prog.Spec.gets_bind fun found => Prog.Spec.ite (fun _ => ?_) fun _ x hx => hx.1
    refine Prog.Spec.modify_bind (R := I) ?_ fun x hx => h.stored x _ hx.1
    exact h.setCtl _
  · show Prog.Spec I (produceToken p token name) (fun _ => I) fun _ => I
    unfold produceToken
    cases tryPlaceId cfg.net p with
    | some pid =>
      refine Prog.Spec.bind (h.cacheAddToken pid token) fun _ => ?_
      refine Prog.Spec.modify_bind (R := I) ?_ fun x hx => h.stored x _ hx
      exact Prog.Spec.modify_bind (h.marks pid) fun x hx => h.inward x _ rfl hx
    | none =>
      refine Prog.Spec.gets_bind fun retained => ?_
      refine Prog.Spec.modify_bind (R := I) ?_ fun x hx => h.stored x _ hx.1
      refine Prog.Spec.modify_bind (R := I) ?_ fun x hx => h.inward x _ rfl hx
      exact Prog.Spec.ite (fun _ x hx => hx) fun _ => h.warn _ _

end PrecompiledNetExecutor

end LibPetri.Verified

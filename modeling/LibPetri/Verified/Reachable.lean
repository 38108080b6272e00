import LibPetri.Basis.Runs
import LibPetri.Runtime.BitmapNetExecutor
import LibPetri.Runtime.PrecompiledNetExecutor

/-! # Runs of an executor

A run starts from a constructed executor, before its loop, and takes the steps of its machine.
`ReachableBy Ok` are the states of the runs whose steps all meet `Ok`, `Reachable` those of every run.
-/

namespace LibPetri.Verified

open LibPetri.Basis LibPetri.Core LibPetri.Runtime CompiledNet Executor

variable {V N : Type} [LinearOrder N] [Value V] {cfg : Setting V N} {S : Type}

/-- The states of the runs of the executor that `new` constructs whose steps all meet `Ok`. -/
def ReachableBy (B : Backend cfg S) (new : Except Thrown (Exec cfg S))
    (Ok : Machine cfg S → Label cfg → Prop) (m : Machine cfg S) : Prop :=
  ∃ x, new = .ok x ∧ Reaches (step B) Ok ⟨x, .created⟩ m

/-- The states of every run. -/
def Reachable (B : Backend cfg S) (new : Except Thrown (Exec cfg S)) : Machine cfg S → Prop :=
  ReachableBy B new fun _ _ => True

/-- What construction establishes and every step keeps holds in every state a run reaches. -/
theorem ReachableBy.invariant {B : Backend cfg S} {new : Except Thrown (Exec cfg S)}
    {Ok : Machine cfg S → Label cfg → Prop} {m : Machine cfg S} (h : ReachableBy B new Ok m)
    {I : Machine cfg S → Prop} (init : ∀ x, new = .ok x → I ⟨x, .created⟩)
    (keeps : ∀ m label, I m → Ok m label → I (step B m label)) : I m := by
  obtain ⟨x, hx, reaches⟩ := h
  exact reaches.invariant (init x hx) keeps

/-! ## Plain settings -/

/-- A transition with the given inputs, output and timing, and nothing else. -/
def plain (name : String) (inputs : List In) (output : Option Out) (timing : Timing)
    (inputs_nodup : (inputs.map In.place).Nodup) (required_pos : ∀ spec ∈ inputs, 1 ≤ spec.requiredCount)
    (timing_valid : timing.Valid) : Transition V N where
  name := name
  inputSpecs := inputs
  outputSpec := output
  inhibitors := []
  reads := []
  resets := []
  timing := timing
  priority := 0
  placeAlias := []
  matchSpec := none
  inputs_nodup := inputs_nodup
  required_pos := required_pos
  timing_valid := timing_valid
  keys_nodup := unmatched_nodup
  keys_inputs := unmatched_inputs inputs

/-- An executor nobody calls, under clocks that stand still, whose actions write nothing. -/
def quiet (net : PetriNet V N) (initialTokens : List (PlaceName × List (Token V))) :
    Setting V N where
  net := net
  initialTokens := initialTokens
  environmentPlaces := []
  deadlineToleranceMs := 0
  tolerance_nonneg := le_refl _
  hasClock := false
  eventStoreEnabled := false
  executionId := ""
  skipOutputValidation := false
  now := fun _ => 0
  epochNow := fun _ => 0
  respond := fun _ => []
  start := fun _ => ⟨none, []⟩

/-- The number a value carries.  Zero makes the projection throw. -/
def numberOf : KeyFn (Option Nat) Nat
  | none => .ok none
  | some 0 => .error (.error "TypeError" "not a number")
  | some (n + 1) => .ok (some (n + 1))

/-- A join of "left" and "right" by number. -/
def join : Transition (Option Nat) Nat where
  name := "join"
  inputSpecs := [.one "left", .one "right"]
  outputSpec := none
  inhibitors := []
  reads := []
  resets := []
  timing := .immediate
  priority := 0
  placeAlias := []
  matchSpec := some ⟨[⟨"left", numberOf⟩, ⟨"right", numberOf⟩], []⟩
  inputs_nodup := by decide
  required_pos := by decide
  timing_valid := trivial
  keys_nodup := by
    rintro _ ⟨rfl⟩
    decide
  keys_inputs := by
    rintro _ ⟨rfl⟩
    simp [In.place]

end LibPetri.Verified

import Mathlib

/-! # Nets

The data a coloured time Petri net is built from: tokens, arcs, output specifications, timings,
match specifications, transitions and the net itself.  A place is its name.  What the builders
check of a transition's arcs and of a net's terminals is carried by `Transition` and `PetriNet`.
-/

namespace LibPetri.Core

/-- The identity of a place. -/
abbrev PlaceName := String

/-- A time or a duration, in milliseconds. -/
abbrev Ms := ℚ

theorem lawful_position (n : Nat) : LawfulBEq (Fin n) := inferInstance

instance decidablePosition {n : Nat} (i : Fin n) (is : List (Fin n)) : Decidable (i ∈ is) :=
  @List.instDecidableMemOfLawfulBEq _ _ (lawful_position n) i is

/-- What can be thrown: an `Error`, or any other value with its truth value and its `String(…)`
(`none` when that conversion throws in turn). -/
inductive Thrown
  | error (name message : String)
  | other (truthy : Bool) (text : Option String)
  deriving DecidableEq, Repr

/-- `if (err)`. -/
def Thrown.truthy : Thrown → Bool
  | error _ _ => true
  | other truthy _ => truthy

/-- The values of tokens: the sentinel of a timeout branch and the test for an absent value. -/
class Value (V : Type) where
  null : V
  isNullish : V → Bool
  null_isNullish : isNullish null = true

/-- An optional value, absent as `none`. -/
instance {α : Type} : Value (Option α) where
  null := none
  isNullish := Option.isNone
  null_isNullish := rfl

structure Token (V : Type) where
  value : V
  createdAt : Ms
  deriving DecidableEq, Repr

/-! ## Inputs -/

inductive In
  | one (place : PlaceName)
  | exactly (count : Nat) (place : PlaceName)
  | all (place : PlaceName)
  | atLeast (minimum : Nat) (place : PlaceName)
  deriving DecidableEq, Repr

namespace In

def place : In → PlaceName
  | one p => p
  | exactly _ p => p
  | all p => p
  | atLeast _ p => p

/-- The minimum number of tokens required to enable. -/
def requiredCount : In → Nat
  | one _ => 1
  | exactly count _ => count
  | all _ => 1
  | atLeast minimum _ => minimum

/-- `spec.type !== 'one'`. -/
def needsCardinality : In → Bool
  | one _ => false
  | _ => true

end In

/-! ## Outputs -/

inductive Out
  | and (children : List Out)
  | xor (children : List Out)
  | place (place : PlaceName)
  | timeout (afterMs : Ms) (child : Out)
  | forwardInput (source target : PlaceName)
  deriving Repr

mutual

/-- The leaf places of a specification, in order. -/
def Out.collectPlaces : Out → List PlaceName
  | .place p => [p]
  | .forwardInput _ target => [target]
  | .and children => collectPlacesAll children
  | .xor children => collectPlacesAll children
  | .timeout _ child => child.collectPlaces

def Out.collectPlacesAll : List Out → List PlaceName
  | [] => []
  | child :: children => child.collectPlaces ++ collectPlacesAll children

end

mutual

/-- The first timeout node of a specification: its budget and its child. -/
def Out.findTimeout : Out → Option (Ms × Out)
  | .timeout afterMs child => some (afterMs, child)
  | .and children => findTimeoutAll children
  | .xor children => findTimeoutAll children
  | .place _ => none
  | .forwardInput _ _ => none

def Out.findTimeoutAll : List Out → Option (Ms × Out)
  | [] => none
  | child :: children =>
    match child.findTimeout with
    | some found => some found
    | none => findTimeoutAll children

end

/-! ## Timing -/

inductive Timing
  | immediate
  | deadline (byMs : Ms)
  | delayed (afterMs : Ms)
  | window (earliestMs latestMs : Ms)
  | exact (atMs : Ms)
  deriving DecidableEq, Repr

/-- About a hundred years. -/
def MAX_DURATION_MS : Ms := 365 * 100 * 24 * 60 * 60 * 1000

namespace Timing

def earliest : Timing → Ms
  | immediate => 0
  | deadline _ => 0
  | delayed afterMs => afterMs
  | window earliestMs _ => earliestMs
  | exact atMs => atMs

def latest : Timing → Ms
  | immediate => MAX_DURATION_MS
  | deadline byMs => byMs
  | delayed _ => MAX_DURATION_MS
  | window _ latestMs => latestMs
  | exact atMs => atMs

def hasDeadline : Timing → Bool
  | immediate => false
  | deadline _ => true
  | delayed _ => false
  | window _ _ => true
  | exact _ => true

def isImmediate : Timing → Bool
  | immediate => true
  | _ => false

def isExact : Timing → Bool
  | exact _ => true
  | _ => false

/-- The checks of the factories. -/
def Valid : Timing → Prop
  | immediate => True
  | deadline byMs => 0 < byMs
  | delayed afterMs => 0 ≤ afterMs ∧ afterMs ≤ MAX_DURATION_MS
  | window earliestMs latestMs =>
    0 ≤ earliestMs ∧ earliestMs ≤ MAX_DURATION_MS ∧ earliestMs ≤ latestMs
  | exact atMs => 0 ≤ atMs ∧ atMs ≤ MAX_DURATION_MS

instance : (timing : Timing) → Decidable timing.Valid
  | immediate => inferInstanceAs (Decidable True)
  | deadline _ => inferInstanceAs (Decidable (_ < _))
  | delayed _ => inferInstanceAs (Decidable (_ ∧ _))
  | window _ _ => inferInstanceAs (Decidable (_ ∧ _ ∧ _))
  | exact _ => inferInstanceAs (Decidable (_ ∧ _))

theorem earliest_nonneg {timing : Timing} (valid : timing.Valid) : 0 ≤ timing.earliest := by
  cases timing with
  | immediate => exact le_refl _
  | deadline => exact le_refl _
  | delayed => exact valid.1
  | window => exact valid.1
  | exact => exact valid.1

end Timing

/-! ## Matches -/

section Nets

variable (V N : Type)

/-- The name a value projects to: `none` for `undefined` or `null`.  A projection may throw. -/
abbrev KeyFn := V → Except Thrown (Option N)

structure MatchKey where
  place : PlaceName
  key : KeyFn V N

structure MatchSpec where
  keys : List (MatchKey V N)
  relays : List (MatchKey V N)

variable {V N} in
/-- The projection of a correlated input. -/
def keyForPlace (spec : MatchSpec V N) (placeName : PlaceName) : Option (KeyFn V N) :=
  (spec.keys.find? fun k => k.place = placeName).map MatchKey.key

/-! ## Transitions and nets -/

/-- A transition as its builder lets it through. -/
structure Transition where
  name : String
  inputSpecs : List In
  outputSpec : Option Out
  inhibitors : List PlaceName
  reads : List PlaceName
  resets : List PlaceName
  timing : Timing
  priority : Int
  placeAlias : List (PlaceName × PlaceName)
  matchSpec : Option (MatchSpec V N)
  inputs_nodup : (inputSpecs.map In.place).Nodup
  required_pos : ∀ spec ∈ inputSpecs, 1 ≤ spec.requiredCount
  timing_valid : timing.Valid
  keys_nodup : ∀ ms ∈ matchSpec, (ms.keys.map MatchKey.place).Nodup
  keys_inputs : ∀ ms ∈ matchSpec, ∀ k ∈ ms.keys, k.place ∈ inputSpecs.map In.place

variable {V N}

theorem unmatched_nodup : ∀ ms ∈ (none : Option (MatchSpec V N)), (ms.keys.map MatchKey.place).Nodup :=
  fun _ mem => by cases mem

theorem unmatched_inputs (inputSpecs : List In) : ∀ ms ∈ (none : Option (MatchSpec V N)),
    ∀ k ∈ ms.keys, k.place ∈ inputSpecs.map In.place :=
  fun _ mem => by cases mem

/-- The timeout of the output specification, with its branch. -/
def Transition.actionTimeout (t : Transition V N) : Option (Ms × Out) :=
  t.outputSpec.bind Out.findTimeout

/-- The places of the output specification. -/
def Transition.outputPlaces (t : Transition V N) : List PlaceName :=
  (t.outputSpec.map Out.collectPlaces).getD []

/-- The place a name stands for in the action of `t`. -/
def Transition.resolve (t : Transition V N) (place : PlaceName) : PlaceName :=
  (t.placeAlias.lookup place).getD place

variable (V N) in
structure PetriNet where
  name : String
  places : List PlaceName
  transitions : List (Transition V N)
  terminals : List PlaceName
  terminals_declared : ∀ p ∈ terminals, p ∈ places

theorem keyForPlace_eq_some {spec : MatchSpec V N} {p : PlaceName} {key : KeyFn V N}
    (h : keyForPlace spec p = some key) : ∃ k ∈ spec.keys, k.place = p ∧ k.key = key := by
  obtain ⟨k, hk, rfl⟩ := Option.map_eq_some_iff.mp h
  refine ⟨k, List.mem_of_find?_eq_some hk, ?_, rfl⟩
  simpa using List.find?_some hk

/-- A key is the projection of its own place, since no place is keyed twice. -/
theorem keyForPlace_of_mem {spec : MatchSpec V N} (nodup : (spec.keys.map MatchKey.place).Nodup)
    {k : MatchKey V N} (hk : k ∈ spec.keys) : keyForPlace spec k.place = some k.key := by
  unfold keyForPlace
  cases hfind : spec.keys.find? (fun j => decide (j.place = k.place)) with
  | none =>
    have := List.find?_eq_none.mp hfind k hk
    simp at this
  | some j =>
    have hj := List.mem_of_find?_eq_some hfind
    have same : j.place = k.place := by simpa using List.find?_some hfind
    rw [List.inj_on_of_nodup_map nodup hj hk same]
    rfl

end Nets

end LibPetri.Core

import LibPetri.Composition.TransitionBuilder
import LibPetri.Verification.SmtVerifier
import LibPetri.Verified.OutcomePlaces

/-! # Nets in two steps

The analyses split a transition into a start and a completion.  The completion has the outcomes of the transition, and
what stays whole deposits into no place that some transition tests non-monotonically.
-/

namespace LibPetri.Verified

open LibPetri.Basis LibPetri.Core LibPetri.Runtime LibPetri.Verification
open LibPetri.Composition (findForwardInputs findForwardInputsAll)

variable {V N : Type}

/-! ## The outputs of a completion -/

section Completion

mutual

theorem enumerateBranches_completionOutput : ∀ out : Out,
    enumerateBranches (completionOutput out) = enumerateBranches out
  | .place _ => rfl
  | .forwardInput _ _ => rfl
  | .timeout _ child => enumerateBranches_completionOutput child
  | .and children => enumerateAnd_completionOutput children [[]]
  | .xor children => enumerateXor_completionOutput children

theorem enumerateAnd_completionOutput : ∀ (children : List Out) (result : List (List PlaceName)),
    enumerateAnd (completionOutputAll children) result = enumerateAnd children result
  | [], _ => rfl
  | child :: children, result => by
    rw [completionOutputAll, enumerateAnd, enumerateAnd, enumerateBranches_completionOutput child,
      enumerateAnd_completionOutput children]

theorem enumerateXor_completionOutput : ∀ children : List Out,
    enumerateXor (completionOutputAll children) = enumerateXor children
  | [] => rfl
  | child :: children => by
    rw [completionOutputAll, enumerateXor, enumerateXor, enumerateBranches_completionOutput child,
      enumerateXor_completionOutput children]

end

theorem actionOutcomes_completionOutput (out : Out) :
    actionOutcomes (completionOutput out) = actionOutcomes out := by
  rw [actionOutcomes, actionOutcomes, enumerateBranches_completionOutput]

mutual

theorem findTimeout_completionOutput : ∀ out : Out,
    (completionOutput out).findTimeout = out.findTimeout.map fun found => (found.1, completionOutput found.2)
  | .place _ => rfl
  | .forwardInput _ _ => rfl
  | .timeout _ _ => rfl
  | .and children => findTimeoutAll_completionOutput children
  | .xor children => findTimeoutAll_completionOutput children

theorem findTimeoutAll_completionOutput : ∀ children : List Out,
    Out.findTimeoutAll (completionOutputAll children) =
      (Out.findTimeoutAll children).map fun found => (found.1, completionOutput found.2)
  | [] => rfl
  | child :: children => by
    rw [completionOutputAll, Out.findTimeoutAll, Out.findTimeoutAll, findTimeout_completionOutput child]
    cases child.findTimeout with
    | none => exact findTimeoutAll_completionOutput children
    | some found => rfl

end

variable {t : Transition V N}

mutual

/-- Where the split is not refused, a forward of the timeout moves one token, like the place it becomes. -/
theorem timeoutDeposits_completionOutput (t' : Transition V N) : ∀ (out : Out) (acc : OrderedMap PlaceName Deposit),
    multiTokenForward t true out = none →
      (∀ source ∈ findForwardInputs out, source ∈ t.inputSpecs.map In.place) →
        timeoutDeposits t' (completionOutput out) acc = timeoutDeposits t out acc
  | .place _, _, _, _ => rfl
  | .xor _, _, _, _ => rfl
  | .timeout _ child, acc, single, forwards => timeoutDeposits_completionOutput t' child acc single forwards
  | .and children, acc, single, forwards => timeoutDepositsAll_completionOutput t' children acc single forwards
  | .forwardInput source target, acc, single, forwards => by
    obtain ⟨spec, mem, place⟩ := List.mem_map.mp (forwards source (by simp [findForwardInputs]))
    cases found : t.inputSpecs.find? fun s => decide (s.place = source) with
    | none =>
      have other := List.find?_eq_none.mp found spec mem
      exact absurd (decide_eq_true place) other
    | some spec =>
      simp only [multiTokenForward, found] at single
      have moves : forwardDeposit t source = .tokens 1 := by
        unfold forwardDeposit
        cases spec with
        | one p => rw [found]
        | exactly | all | atLeast => cases single
      rw [completionOutput, timeoutDeposits, timeoutDeposits, moves]
      rfl

theorem timeoutDepositsAll_completionOutput (t' : Transition V N) :
    ∀ (children : List Out) (acc : OrderedMap PlaceName Deposit), multiTokenForwardAll t true children = none →
      (∀ source ∈ findForwardInputsAll children, source ∈ t.inputSpecs.map In.place) →
        timeoutDepositsAll t' (completionOutputAll children) acc = timeoutDepositsAll t children acc
  | [], _, _, _ => rfl
  | child :: children, acc, single, forwards => by
    rw [multiTokenForwardAll] at single
    cases first : multiTokenForward t true child with
    | some found =>
      rw [first] at single
      cases single
    | none =>
      rw [first] at single
      simp only [findForwardInputsAll, List.mem_append] at forwards
      rw [completionOutputAll, timeoutDepositsAll, timeoutDepositsAll,
        timeoutDeposits_completionOutput t' child acc first fun source mem => forwards source (.inl mem)]
      exact timeoutDepositsAll_completionOutput t' children _ single fun source mem => forwards source (.inr mem)

end

mutual

/-- What is not refused of a specification is not refused of its timeout. -/
theorem findTimeout_single : ∀ {out child : Out} {afterMs : Ms}, out.findTimeout = some (afterMs, child) →
    multiTokenForward t false out = none → multiTokenForward t true child = none
  | .place _, _, _, found, _ => by cases found
  | .forwardInput _ _, _, _, found, _ => by cases found
  | .timeout _ _, _, _, found, single => by
    obtain ⟨-, rfl⟩ := Prod.mk.inj (Option.some.inj found)
    exact single
  | .and _, _, _, found, single => findTimeoutAll_single found single
  | .xor _, _, _, found, single => findTimeoutAll_single found single

theorem findTimeoutAll_single : ∀ {children : List Out} {child : Out} {afterMs : Ms},
    Out.findTimeoutAll children = some (afterMs, child) → multiTokenForwardAll t false children = none →
      multiTokenForward t true child = none
  | [], _, _, found, _ => by cases found
  | first :: children, child, _, found, single => by
    rw [multiTokenForwardAll] at single
    rw [Out.findTimeoutAll] at found
    cases refused : multiTokenForward t false first with
    | some _ =>
      rw [refused] at single
      cases single
    | none =>
      rw [refused] at single
      cases here : first.findTimeout with
      | none =>
        rw [here] at found
        exact findTimeoutAll_single found single
      | some timeout =>
        rw [here] at found
        obtain rfl := Option.some.inj found
        exact findTimeout_single here refused

end

mutual

theorem findTimeout_forwards : ∀ {out child : Out} {afterMs : Ms}, out.findTimeout = some (afterMs, child) →
    ∀ source ∈ findForwardInputs child, source ∈ findForwardInputs out
  | .place _, _, _, found => by cases found
  | .forwardInput _ _, _, _, found => by cases found
  | .timeout _ _, _, _, found => by
    obtain ⟨-, rfl⟩ := Prod.mk.inj (Option.some.inj found)
    exact fun _ mem => mem
  | .and _, _, _, found => findTimeoutAll_forwards found
  | .xor _, _, _, found => findTimeoutAll_forwards found

theorem findTimeoutAll_forwards : ∀ {children : List Out} {child : Out} {afterMs : Ms},
    Out.findTimeoutAll children = some (afterMs, child) →
      ∀ source ∈ findForwardInputs child, source ∈ findForwardInputsAll children
  | [], _, _, found => by cases found
  | first :: children, child, _, found => by
    rw [Out.findTimeoutAll] at found
    intro source mem
    cases here : first.findTimeout with
    | none =>
      rw [here] at found
      exact List.mem_append_right _ (findTimeoutAll_forwards found source mem)
    | some timeout =>
      rw [here] at found
      obtain rfl := Option.some.inj found
      exact List.mem_append_left _ (findTimeout_forwards here source mem)

end

/-- The forwards of a transition name its inputs, as its builder checks. -/
def ForwardsInputs (t : Transition V N) : Prop :=
  ∀ out, t.outputSpec = some out → ∀ source ∈ findForwardInputs out, source ∈ t.inputSpecs.map In.place

/-- A completion has the outcomes of its transition. -/
theorem outcomes_completionOf (forwards : ForwardsInputs t)
    (single : t.outputSpec.bind (multiTokenForward t false) = none) : outcomes (completionOf t) = outcomes t := by
  cases spec : t.outputSpec with
  | none =>
    have none_ : (completionOf t).outputSpec = none := congrArg (Option.map completionOutput) spec
    rw [outcomes, outcomes, spec, none_]
  | some out =>
    have output : (completionOf t).outputSpec = some (completionOutput out) :=
      congrArg (Option.map completionOutput) spec
    have budget : (completionOf t).actionTimeout =
        t.actionTimeout.map fun found => (found.1, completionOutput found.2) := by
      rw [Transition.actionTimeout, Transition.actionTimeout, output, spec]
      exact findTimeout_completionOutput out
    rw [outcomes, outcomes, output, spec, budget]
    cases timed : t.actionTimeout with
    | none => exact actionOutcomes_completionOutput out
    | some timeout =>
      obtain ⟨afterMs, child⟩ := timeout
      rw [spec] at single
      have found : out.findTimeout = some (afterMs, child) := by
        rw [Transition.actionTimeout, spec] at timed
        exact timed
      have same : timeoutOutcome (completionOf t) (completionOutput child) = timeoutOutcome t child := by
        unfold timeoutOutcome
        rw [timeoutDeposits_completionOutput _ child _ (findTimeout_single found single)
          fun source mem => forwards out spec source (findTimeout_forwards found source mem)]
      dsimp only [Option.map_some]
      rw [same, actionOutcomes_completionOutput]

end Completion

/-! ## A net and its split -/

/-- No deposit is counted from what a firing drains. -/
def FixedCounts (o : Outcome) : Prop := ∀ d ∈ o.deposits, ∃ count, d.2 = .tokens count

theorem drainedForward_eq_false {net : PetriNet V N} :
    drainedForward net = false ↔ ∀ t ∈ net.transitions, ∀ o ∈ outcomes t, FixedCounts o := by
  constructor
  · intro undrained t mem o outcome d deposit
    unfold drainedForward at undrained
    rw [List.any_eq_false] at undrained
    cases kind : d.2 with
    | tokens count => exact ⟨count, rfl⟩
    | drained source =>
      refine absurd ?_ (undrained t mem)
      exact List.any_eq_true.mpr ⟨o, outcome, List.any_eq_true.mpr ⟨d, deposit, by rw [kind]⟩⟩
  · intro counted
    unfold drainedForward
    rw [List.any_eq_false]
    intro t mem drained
    obtain ⟨o, outcome, drained⟩ := List.any_eq_true.mp drained
    obtain ⟨d, deposit, drained⟩ := List.any_eq_true.mp drained
    obtain ⟨count, kind⟩ := counted t mem o outcome d deposit
    rw [kind] at drained
    cases drained

/-- What a net split in two steps keeps of the net: which transitions it has, what those it leaves whole deposit, and
what a completion deposits. -/
structure InTwoSteps (net net' : PetriNet V N) (split : Transition V N → Bool) : Prop where
  whole : ∀ t ∈ net.transitions, split t = false → t ∈ net'.transitions
  start : ∀ t ∈ net.transitions, split t = true → startOf t ∈ net'.transitions
  complete : ∀ t ∈ net.transitions, split t = true → completionOf t ∈ net'.transitions
  untested : ∀ t ∈ net.transitions, split t = false → ∀ p ∈ t.outputPlaces, p ∉ nonMonotonePlaces net
  fresh : ∀ t ∈ net.transitions, split t = true → inFlightPlace t.name ∉ net.places
  outcomes_eq : ∀ t ∈ net.transitions, split t = true → outcomes (completionOf t) = outcomes t
  only : ∀ t' ∈ net'.transitions, ∃ t ∈ net.transitions,
    (split t = false ∧ t' = t) ∨ (split t = true ∧ (t' = startOf t ∨ t' = completionOf t))

/-- What the builders check: every arc is on a place of the net, and forwards name inputs. -/
structure AsBuilt (net : PetriNet V N) : Prop where
  declared : ∀ t ∈ net.transitions, ∀ p ∈ collectedPlaces t, p ∈ net.places
  forwards : ∀ t ∈ net.transitions, ForwardsInputs t

namespace InTwoSteps

variable {net net' : PetriNet V N} {split : Transition V N → Bool}

/-- A split adds no forward of what a firing drains. -/
theorem undrained (h : InTwoSteps net net' split) (undrained : drainedForward net = false) :
    drainedForward net' = false := by
  rw [drainedForward_eq_false] at undrained ⊢
  intro t' mem o outcome
  obtain ⟨t, original, ⟨-, rfl⟩ | ⟨halved, rfl | rfl⟩⟩ := h.only t' mem
  · exact undrained _ original o outcome
  · obtain rfl := List.mem_singleton.mp outcome
    intro d marks
    obtain rfl := List.mem_singleton.mp marks
    exact ⟨1, rfl⟩
  · rw [h.outcomes_eq t original halved] at outcome
    exact undrained _ original o outcome

end InTwoSteps

section Splitting

variable {net : PetriNet V N}

theorem mem_nonMonotonePlaces {p : PlaceName} :
    p ∈ nonMonotonePlaces net ↔ p ∈ net.terminals ∨ ∃ t ∈ net.transitions,
      p ∈ t.inhibitors ∨ p ∈ t.resets ∨ ∃ spec ∈ t.inputSpecs, drains spec = true ∧ spec.place = p := by
  simp [nonMonotonePlaces, and_assoc]

theorem nonMonotonePlaces_declared (built : AsBuilt net) {p : PlaceName} (tested : p ∈ nonMonotonePlaces net) :
    p ∈ net.places := by
  obtain terminal | ⟨t, mem, tests⟩ := mem_nonMonotonePlaces.mp tested
  · exact net.terminals_declared p terminal
  · apply built.declared t mem
    unfold collectedPlaces
    obtain inhibitor | reset | ⟨spec, input, -, rfl⟩ := tests
    · simp [inhibitor]
    · simp [reset]
    · simp [List.mem_map_of_mem input]

/-- What is split could be. -/
theorem refusalCause_of_splittable {coloured : List PlaceName} {names : List String}
    (splittable : firstUnsplittable net coloured names = none) {t : Transition V N} (mem : t ∈ net.transitions)
    (named : t.name ∈ names) :
    ∃ coloured, refusalCause t coloured (net.places ++ net.transitions.map Transition.name) = none := by
  have none_ := List.findSome?_eq_none_iff.mp splittable t mem
  rw [if_pos named] at none_
  exact ⟨_, Option.map_eq_none_iff.mp none_⟩

theorem single_of_refusalCause {t : Transition V N} {coloured : List PlaceName} {names : List String}
    (fine : refusalCause t coloured names = none) :
    t.matchSpec = none ∧ t.outputSpec.bind (multiTokenForward t false) = none ∧
      inFlightPlace t.name ∉ names := by
  unfold refusalCause at fine
  split at fine
  · cases fine
  next unmatched =>
    split at fine
    · cases fine
    · split at fine
      · cases fine
      next single =>
        have none_ := List.find?_eq_none.mp (Option.map_eq_none_iff.mp fine)
        have fresh := none_ (inFlightPlace t.name) List.mem_cons_self
        exact ⟨Option.not_isSome_iff_eq_none.mp unmatched, single,
          of_decide_eq_false (Bool.not_eq_true _ ▸ fresh)⟩

theorem firstUnsplittable_nil {coloured : List PlaceName} : firstUnsplittable net coloured [] = none :=
  List.findSome?_eq_none_iff.mpr fun _ _ => rfl

variable {net' : PetriNet V N} {names : List String}

/-- The transitions that must be are split, and the others stay. -/
theorem inTwoSteps_of_transitions {coloured : List PlaceName} {demand : SplitDemand}
    (transitions : net'.transitions = net.transitions.flatMap fun t => if t.name ∈ names then halves t else [t])
    (must : names = inFlightTransitionsFor net [] demand) (splittable : firstUnsplittable net coloured names = none)
    (built : AsBuilt net) (original : ∀ t ∈ net.transitions, isCompletion t = false) :
    InTwoSteps net net' fun t => t.name ∈ names := by
  have listed {t t' : Transition V N} (mem : t ∈ net.transitions)
      (part : t' ∈ if t.name ∈ names then halves t else [t]) : t' ∈ net'.transitions := by
    rw [transitions]
    exact List.mem_flatMap.mpr ⟨t, mem, part⟩
  have possible {t : Transition V N} (mem : t ∈ net.transitions) (named : decide (t.name ∈ names) = true) :
      t.outputSpec.bind (multiTokenForward t false) = none ∧
        inFlightPlace t.name ∉ net.places ++ net.transitions.map Transition.name := by
    obtain ⟨coloured, fine⟩ := refusalCause_of_splittable splittable mem (of_decide_eq_true named)
    exact (single_of_refusalCause fine).2
  refine ⟨fun t mem out => ?_, fun t mem named => ?_, fun t mem named => ?_, fun t mem out p output tested => ?_,
    fun t mem named declared => ?_, fun t mem named => ?_, fun t' mem => ?_⟩
  · exact listed mem (by simp [of_decide_eq_false out])
  · exact listed mem (by simp [of_decide_eq_true named, halves])
  · exact listed mem (by simp [of_decide_eq_true named, halves])
  · -- a transition that writes a tested place must be split
    have needs : needsSplit net [] demand t = true := by
      have writes : (t.outputPlaces.any fun p => p ∈ nonMonotonePlaces net ++ demand.tested) = true :=
        List.any_eq_true.mpr ⟨p, output, decide_eq_true (List.mem_append_left _ tested)⟩
      unfold needsSplit
      rw [original t mem, writes]
      simp
    refine of_decide_eq_false out ?_
    rw [must]
    exact List.mem_map.mpr ⟨t, List.mem_filter.mpr ⟨mem, needs⟩, rfl⟩
  · exact (possible mem named).2 (List.mem_append_left _ declared)
  · exact outcomes_completionOf (built.forwards t mem) (possible mem named).1
  · rw [transitions] at mem
    obtain ⟨t, original, part⟩ := List.mem_flatMap.mp mem
    refine ⟨t, original, ?_⟩
    by_cases named : t.name ∈ names
    · rw [if_pos named] at part
      exact .inr ⟨decide_eq_true named, by simpa [halves] using part⟩
    · rw [if_neg named] at part
      exact .inl ⟨decide_eq_false named, List.mem_singleton.mp part⟩

variable {I O : Type} {verifier : SmtVerifier I O}

/-- The net a verification analyses, split where it must be. -/
theorem inTwoSteps_applyInFlight (applied : verifier.applyInFlight net = (net', names, none))
    (twoSteps : verifier.assumeAtomicFiring = false) (closed : verifier.environmentSteps = [])
    (built : AsBuilt net) (original : ∀ t ∈ net.transitions, isCompletion t = false) :
    InTwoSteps net net' fun t => t.name ∈ names := by
  unfold SmtVerifier.applyInFlight splitInFlightFor at applied
  rw [if_neg (by simp [twoSteps]), closed] at applied
  by_cases atomic : inFlightTransitionsFor net [] (verifier.splitDemand net) = []
  · dsimp only at applied
    rw [if_pos atomic] at applied
    obtain ⟨rfl, rfl, -⟩ : net = net' ∧ [] = names ∧ True := by simpa using applied
    -- nothing has to be split
    have splittable : firstUnsplittable net [] [] = none := firstUnsplittable_nil
    refine inTwoSteps_of_transitions ?_ atomic.symm splittable built original
    simp
  · dsimp only at applied
    rw [if_neg atomic] at applied
    cases splittable : firstUnsplittable net verifier.carrierPlaces
        (inFlightTransitionsFor net [] (verifier.splitDemand net)) with
    | some refused =>
      -- a refusal is no answer
      rw [splittable] at applied
      simp at applied
    | none =>
      rw [splittable] at applied
      obtain ⟨rfl, rfl⟩ : splitNet net _ = net' ∧ _ = names := by simpa using applied
      exact inTwoSteps_of_transitions rfl rfl splittable built original

end Splitting

end LibPetri.Verified

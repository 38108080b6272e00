import LibPetri.Verified.ProvenRuns
import LibPetri.Verified.SplitRuns
import LibPetri.Verified.StateSpaceReuse

/-! # What a verification proves holds in runs

A verification does not analyse the net of its caller.  It declares the places of the initial marking that the net does
not have, and it splits the net where firings in flight can be told from firings of one step.  What it proves of the
net it has prepared holds of every run of the net of its caller.
-/

namespace LibPetri.Verified

open LibPetri.Basis LibPetri.Core LibPetri.Runtime LibPetri.Verification CompiledNet Executor
open LibPetri.Verification.AbstractReplayer
open TokenGame (Counts Enabled)

variable {V N : Type}

/-! ## Preparing a net -/

section Preparing

variable {net : PetriNet V N} {marking : MarkingState}

theorem withInertMarkedPlaces_transitions : (withInertMarkedPlaces net marking).transitions = net.transitions := by
  unfold withInertMarkedPlaces
  dsimp only
  split <;> rfl

theorem withInertMarkedPlaces_terminals : (withInertMarkedPlaces net marking).terminals = net.terminals := by
  unfold withInertMarkedPlaces
  dsimp only
  split <;> rfl

theorem mem_withInertMarkedPlaces {p : PlaceName} (mem : p ∈ net.places ∨ p ∈ marking.placesWithTokens) :
    p ∈ (withInertMarkedPlaces net marking).places := by
  unfold withInertMarkedPlaces
  dsimp only
  split
  next declared =>
    cases mem with
    | inl known => exact known
    | inr marked =>
      -- no marked place is left to declare
      by_contra unknown
      have inert : p ∈ marking.placesWithTokens.filter fun p => p ∉ net.places :=
        List.mem_filter.mpr ⟨marked, decide_eq_true unknown⟩
      rw [declared] at inert
      cases inert
  next =>
    by_cases known : p ∈ net.places
    · simp [rebuilt, builtPlaces, known]
    · simp [rebuilt, builtPlaces, known, mem.resolve_left known]

theorem nonMonotonePlaces_inert :
    nonMonotonePlaces (withInertMarkedPlaces net marking) = nonMonotonePlaces net := by
  unfold nonMonotonePlaces
  rw [withInertMarkedPlaces_transitions, withInertMarkedPlaces_terminals]

theorem AsBuilt.inert (built : AsBuilt net) : AsBuilt (withInertMarkedPlaces net marking) where
  declared t mem p arc := by
    rw [withInertMarkedPlaces_transitions] at mem
    exact mem_withInertMarkedPlaces (.inl (built.declared t mem p arc))
  forwards t mem := by
    rw [withInertMarkedPlaces_transitions] at mem
    exact built.forwards t mem

/-- A split of the net with its marked places is one of the net itself. -/
theorem InTwoSteps.ofInert {net' : PetriNet V N} {split : Transition V N → Bool}
    (h : InTwoSteps (withInertMarkedPlaces net marking) net' split) : InTwoSteps net net' split := by
  have same : (withInertMarkedPlaces net marking).transitions = net.transitions := withInertMarkedPlaces_transitions
  have tests : nonMonotonePlaces (withInertMarkedPlaces net marking) = nonMonotonePlaces net :=
    nonMonotonePlaces_inert
  obtain ⟨whole, start, complete, untested, fresh, outcomes_eq, only⟩ := h
  rw [same] at whole start complete untested fresh outcomes_eq only
  refine ⟨whole, start, complete, fun t mem out p output => ?_, fun t mem halved known => ?_, outcomes_eq, only⟩
  · exact tests ▸ untested t mem out p output
  · exact fresh t mem halved (mem_withInertMarkedPlaces (.inl known))

variable {I O : Type} {verifier : SmtVerifier I O} {netOf : I → PetriNet V N}

theorem withTerminalInhibitors_endless {net : PetriNet V N} (endless : net.terminals = []) :
    withTerminalInhibitors net = net := if_pos endless

/-- Without terminal places, the net of a verification is the split of the net with its marked places. -/
theorem prepare_endless (endless : (netOf verifier.callerNet).terminals = [])
    (answered : (verifier.prepare netOf).inFlightRefusal = none) :
    ∃ names, verifier.applyInFlight (withInertMarkedPlaces (netOf verifier.callerNet) verifier.initialMarking) =
      ((verifier.prepare netOf).net, names, none) := by
  let declared := withInertMarkedPlaces (netOf verifier.callerNet) verifier.initialMarking
  have bare : declared.terminals = [] := withInertMarkedPlaces_terminals.trans endless
  have prepared {net : PetriNet V N} {names : List String} {refusal : Option String}
      (same : verifier.applyInFlight declared = (net, names, refusal)) :
      verifier.prepare netOf = verifier.applyNetTerminals net names refusal := by
    unfold SmtVerifier.prepare
    dsimp only
    rw [same]
  obtain same | ⟨names, -, same⟩ | ⟨reason, same⟩ := applyInFlight_cases verifier declared
  · refine ⟨[], ?_⟩
    rw [prepared same]
    exact same.trans (congrArg (fun net => (net, [], none)) (withTerminalInhibitors_endless bare).symm)
  · refine ⟨names, ?_⟩
    rw [prepared same]
    have kept : (splitNet declared names).terminals = [] := bare
    exact same.trans (congrArg (fun net => (net, names, none)) (withTerminalInhibitors_endless kept).symm)
  · rw [prepared same] at answered
    cases answered

end Preparing

/-! ## Places nobody marks -/

section Unmarked

variable [LinearOrder N] {cfg : Setting V N} {history : List (Effect cfg.net)} {tokens : Tokens cfg.net}

/-- A place that no transition writes and no seed marks stays empty while no event comes in. -/
theorem TokenRun.unmarked {p : PlaceName} (unwritten : ∀ t ∈ cfg.net.transitions, p ∉ t.outputPlaces)
    (unseeded : seedTokens cfg.initialTokens p = [])
    (run : TokenRun cfg (seedTokens cfg.initialTokens) history tokens)
    (permitted : Throughout (Permitted []) history) : tokens.queue p = [] := by
  -- consuming leaves a part of what there is
  have emptied (t : Transition V N) (chosen : Option N) (queue : PlaceName → List (Token V))
      (empty : queue p = []) : queueAfter t chosen queue p = [] :=
    List.sublist_nil.mp (empty ▸ queueAfter_sublist queue)
  induction run with
  | seeded => exact unseeded
  | fired run idle fireable ih => exact emptied _ _ _ (ih permitted.2.older.2)
  | aborted run idle fireable ih => exact emptied _ _ _ (ih permitted.2.older.2)
  | @completed history tokens tid run held entries ih =>
    have inside : ∀ e ∈ (landings entries : List (Effect cfg.net)), inTurn e = true := inTurn_landings entries
    have last : lastWritten (landings entries ++ .settled tid entries :: history) = entries :=
      lastWritten_inTurn inside
    have writes : WritesOnce (transition tid) entries := last ▸ permitted.1
    -- and a completion writes outputs only
    have elsewhere : entriesAt entries p = [] := by
      apply List.filterMap_eq_nil_iff.mpr
      intro e mem
      refine if_neg fun here => ?_
      exact unwritten _ (transition_mem tid) (here ▸ writes.declared e mem)
    show tokens.queue p ++ entriesAt entries p = []
    rw [ih permitted.2.older.2, elsewhere]
    rfl
  | failed run held entries ih => exact ih permitted.2.2
  | admitted run event ih => exact absurd permitted.2.1 List.not_mem_nil

end Unmarked

/-! ## Rest -/

section Rest

variable [LinearOrder N] {cfg : Setting V N} {S : Type} {B : Backend cfg S} {x : Exec cfg S} {net' : PetriNet V N}
  {split : Transition V N → Bool}

theorem AtRest.flight_none (h : AtRest B x) (tid : Tid cfg.net) : (tokensOf B x).flight tid = none := by
  show (B.flight? tid x.store).map consumptionIn = none
  rw [h.idle tid]
  rfl

/-- What is enabled where a run of a net without joins rests can be reaped. -/
theorem AtRest.reapable (h : AtRest B x) (unmatched : ∀ t ∈ cfg.net.transitions, t.matchSpec = none)
    {t : Transition V N} (mem : t ∈ cfg.net.transitions) (can : Enabled t (counts fun p => B.queue p x.store)) :
    reapableIn cfg.net t = true := by
  obtain ⟨i, lt, rfl⟩ := List.mem_iff_getElem.mp mem
  let tid : Tid cfg.net := ⟨i, lt⟩
  have free : (transition tid).matchSpec = none := unmatched _ mem
  rcases h.dead tid with ⟨reapable, -⟩ | dead
  · exact reapableIn_of_mem mem reapable
  · have safe : SafeStamps (transition tid) fun p => B.queue p x.store := fun ms matched => by
      rw [free] at matched
      cases matched
    exact absurd (fireable_of_enabled free can) (dead none safe)

/-- So can what the split net enables there, as no completion has a mark to take. -/
theorem AtRest.reapable_split (h : AtRest B x) (unmatched : ∀ t ∈ cfg.net.transitions, t.matchSpec = none)
    (steps : InTwoSteps cfg.net net' split)
    (unmarked : ∀ t ∈ cfg.net.transitions, split t = true → B.queue (inFlightPlace t.name) x.store = [])
    {t : Transition V N} (mem : t ∈ net'.transitions) (can : Enabled t (counts fun p => B.queue p x.store)) :
    reapableIn cfg.net t = true := by
  obtain ⟨u, original, ⟨-, rfl⟩ | ⟨halved, rfl | rfl⟩⟩ := steps.only t mem
  · exact h.reapable unmatched original can
  · have enabled : Enabled u (counts fun p => B.queue p x.store) := ⟨can.inputs, can.reads, can.inhibitors⟩
    -- a start keeps the name of its transition
    have reaped : reapableIn cfg.net u = true := h.reapable unmatched original enabled
    exact reaped
  · have marked : 1 ≤ (B.queue (inFlightPlace u.name) x.store).length :=
      can.inputs (.one (inFlightPlace u.name)) List.mem_cons_self
    rw [unmarked u original halved] at marked
    cases marked

end Rest

/-! ## Along a run -/

section Runs

variable [LinearOrder N] {cfg : Setting V N} {S T : Type} {B : Backend cfg S} {flatNet : FlatNet T}
  {property : SmtProperty} {sinkPlaces : List PlaceName} {conditionalSinks : List ConditionalSinks}

/-- The tokens of an executor, on the places of a flat net. -/
def shownIn (flatNet : FlatNet T) (B : Backend cfg S) (x : Exec cfg S) : flatNet.State :=
  fun p => (B.queue (flatNet.placeAt p) x.store).length

/-- A machine upholds a property: its marking never violates one that every marking must meet, and where a run of a net
without joins has come to rest, with no firing failed, the marking is quiescent and violates none. -/
structure Upholds (flatNet : FlatNet T) (property : SmtProperty) (sinkPlaces : List PlaceName)
    (conditionalSinks : List ConditionalSinks) (B : Backend cfg S) (m : Machine cfg S) : Prop where
  always : ¬OfQuiescence property →
    ¬FlatViolates flatNet property sinkPlaces conditionalSinks (shownIn flatNet B m.exec)
  atRest : m.phase = .ended → m.exec.io.reason = .quiescent → (∀ t ∈ cfg.net.transitions, t.matchSpec = none) →
    isQuiescent flatNet (shownIn flatNet B m.exec) = true ∧
      ((∀ e ∈ m.exec.history.filter booked, loses e = false) →
        ¬FlatViolates flatNet property sinkPlaces conditionalSinks (shownIn flatNet B m.exec))

variable {net' : PetriNet V N} {split : Transition V N → Bool}

theorem upholds_of_covered {m : Machine cfg S} {s : (closedFlatNet net' (reapableIn cfg.net)).State}
    (covered : CoveredIn (closedFlatNet net' (reapableIn cfg.net)) (m.exec.history.filter booked) (tokensOf B m.exec) s)
    (fine : ¬FlatViolates (closedFlatNet net' (reapableIn cfg.net)) property sinkPlaces conditionalSinks s)
    (steps : InTwoSteps cfg.net net' split)
    (unmarked : ∀ t ∈ cfg.net.transitions, split t = true → B.queue (inFlightPlace t.name) m.exec.store = [])
    (rests : m.phase = .ended → m.exec.io.reason = .quiescent → AtRest B m.exec) :
    Upholds (closedFlatNet net' (reapableIn cfg.net)) property sinkPlaces conditionalSinks B m := by
  -- where a safety property is violated, more tokens violate it too
  refine ⟨fun safety violates => fine (violates.mono safety covered.bounds),
    fun ended quiescent unmatched => ?_⟩
  have rest := rests ended quiescent
  have quiet : isQuiescent (closedFlatNet net' (reapableIn cfg.net)) (shownIn _ B m.exec) = true :=
    isQuiescent_of_rest fun t can => rest.reapable_split unmatched steps unmarked (transitionAt_mem t) can
  refine ⟨quiet, fun kept => ?_⟩
  have same : shownIn (closedFlatNet net' (reapableIn cfg.net)) B m.exec = s :=
    funext fun p => (covered.exact_ kept rest.flight_none p).symm
  rwa [same]

variable [Value V] [ToString N] {I O : Type} {verifier : SmtVerifier I O} {netOf : I → PetriNet V N}
  {mode : EnvironmentAnalysisMode} {prepared : FlatNet (NetTransition (verifier.prepare netOf).net)}

omit [Value V] [ToString N] in
/-- The net a verification prepares makes one or two steps of each firing, and no run marks the place of a mark. -/
theorem prepared_steps (caller : netOf verifier.callerNet = cfg.net)
    (seeded : ∀ p, verifier.initialMarking.tokens p = (seedTokens cfg.initialTokens p).length)
    (built : AsBuilt cfg.net) (original : ∀ t ∈ cfg.net.transitions, isCompletion t = false)
    (endless : cfg.net.terminals = []) (twoSteps : verifier.assumeAtomicFiring = false)
    (closed : verifier.environmentSteps = []) (answered : (verifier.prepare netOf).inFlightRefusal = none) :
    ∃ split, InTwoSteps cfg.net (verifier.prepare netOf).net split ∧
      ∀ {history : List (Effect cfg.net)} {tokens : Tokens cfg.net},
        TokenRun cfg (seedTokens cfg.initialTokens) history tokens → Throughout (Permitted []) history →
        ∀ t ∈ cfg.net.transitions, split t = true → tokens.queue (inFlightPlace t.name) = [] := by
  obtain ⟨names, applied⟩ := prepare_endless (by rwa [caller]) answered
  rw [caller] at applied
  have same : (withInertMarkedPlaces cfg.net verifier.initialMarking).transitions = cfg.net.transitions :=
    withInertMarkedPlaces_transitions
  have inert := inTwoSteps_applyInFlight applied twoSteps closed built.inert (by rwa [same])
  have steps := inert.ofInert
  refine ⟨_, steps, fun run permitted t mem halved => run.unmarked ?_ ?_ permitted⟩
  · -- the place of a mark is none of the net
    intro u known output
    refine steps.fresh t mem halved (built.declared u known _ ?_)
    simp [collectedPlaces, output]
  · -- and the initial marking does not have it either
    have unmarked : inFlightPlace t.name ∉ verifier.initialMarking.placesWithTokens := fun marked =>
      inert.fresh t (by rwa [same]) halved (mem_withInertMarkedPlaces (.inr marked))
    have zero : verifier.initialMarking.tokens (inFlightPlace t.name) = 0 := by
      rw [MarkingState.tokens, (OrderedMap.get?_eq_none_iff _ _).mpr unmarked]
      rfl
    exact List.length_eq_zero_iff.mp ((seeded _).symm.trans zero)

end Runs

/-! ## Writing past a guard -/

section Guard

def guardNetOf (_ : Unit) : PetriNet (Option Nat) Nat := guardSetting.net

/-- The net of the verification: "writing" is split. -/
abbrev guardNet : PetriNet (Option Nat) Nat := (guardVerifier.prepare guardNetOf).net

/-- "writing" is before its start, in flight, or done, and so is "guarded", in one step. -/
def guardStates : List (closedFlatNet guardNet (reapableIn guardSetting.net)).State :=
  ["in", inFlightPlace "writing", "out"].flatMap fun p =>
    ["go", "done"].map fun q => countsIn _ fun r => if r = p ∨ r = q then 1 else 0

theorem guardSetting_seeded (p : PlaceName) :
    guardVerifier.initialMarking.tokens p = (seedTokens guardSetting.initialTokens p).length := by
  have seeds : seedTokens guardSetting.initialTokens p =
      (if "in" = p then [⟨some 1, 0⟩] else []) ++ if "go" = p then [⟨some 2, 0⟩] else [] := by
    simp [seedTokens, guardSetting, quiet]
  have marks : guardVerifier.initialMarking = (MarkingState.empty.setTokens "in" 1).setTokens "go" 1 := rfl
  rw [seeds, marks, MarkingState.tokens_setTokens, MarkingState.tokens_setTokens]
  by_cases first : p = "in"
  · subst first
    rfl
  · by_cases second : p = "go"
    · subst second
      rfl
    · simp [first, second, Ne.symm first, Ne.symm second]

end Guard

end LibPetri.Verified

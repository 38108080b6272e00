import LibPetri.Verified.CountRuns
import LibPetri.Verified.SplitNets

/-! # Runs of a split net

An executor takes the inputs of a firing when its action starts, deposits when it ends, and fires other transitions in
between.  A net split in two steps covers all of that with firings that are one step each.  A transition that is split
marks its in-flight place meanwhile.  One that is not deposits at once, since nothing that tests where it writes can
tell, and it deposits whatever the action will choose.
-/

namespace LibPetri.Verified

open LibPetri.Basis LibPetri.Core LibPetri.Runtime LibPetri.Verification CompiledNet Executor
open TokenGame (Counts Enabled consumption intermediate deposited)

variable {V N : Type}

/-! ## More tokens -/

section More

variable {t : Transition V N} {m extra : Counts}

/-- The places whose tokens stop a transition, or are counted or cleared by it. -/
def Tests (t : Transition V N) (p : PlaceName) : Prop :=
  p ∈ t.inhibitors ∨ p ∈ t.resets ∨ ∃ spec ∈ t.inputSpecs, drains spec = true ∧ spec.place = p

/-- Tokens where a transition tests nothing leave it enabled. -/
theorem enabled_add (can : Enabled t m) (blind : ∀ p, Tests t p → extra p = 0) :
    Enabled t fun p => m p + extra p where
  inputs spec mem := (can.inputs spec mem).trans (Nat.le_add_right _ _)
  reads p mem := (can.reads p mem).trans (Nat.le_add_right _ _)
  inhibitors p mem := by rw [can.inhibitors p mem, blind p (.inl mem)]

/-- And it leaves them where they are. -/
theorem intermediate_add (can : Enabled t m) (blind : ∀ p, Tests t p → extra p = 0) (p : PlaceName) :
    intermediate t (fun p => m p + extra p) p = intermediate t m p + extra p := by
  unfold intermediate
  by_cases reset : p ∈ t.resets
  · rw [if_pos reset, if_pos reset, blind p (.inr (.inl reset))]
  · rw [if_neg reset, if_neg reset]
    unfold consumption
    cases found : t.inputSpecs.find? fun spec => decide (spec.place = p) with
    | none => rfl
    | some spec =>
      have place : spec.place = p := by simpa using List.find?_some found
      have input := List.mem_of_find?_eq_some found
      have enough : spec.requiredCount ≤ m p := place ▸ can.inputs spec input
      cases kind : drains spec with
      | true =>
        -- an input that empties its place tests it
        simp [blind p (.inr (.inr ⟨spec, input, kind, place⟩))]
      | false =>
        cases spec with
        | one =>
          simp only [In.requiredCount] at enough
          simp only [StateClassGraph.inputConsumeCount]
          omega
        | exactly =>
          simp only [In.requiredCount] at enough
          simp only [StateClassGraph.inputConsumeCount]
          omega
        | all | atLeast => cases kind

/-- What an outcome deposits, where nothing it deposits is counted from what the firing drains. -/
def brought (o : Outcome) (p : PlaceName) : Nat :=
  match o.deposits.lookup p with
  | some (.tokens count) => count
  | _ => 0

theorem deposited_fixed {o : Outcome} (counted : FixedCounts o) (t : Transition V N) (m : Counts) (p : PlaceName) :
    deposited t m o p = brought o p := by
  unfold deposited brought
  cases found : o.deposits.lookup p with
  | none => rfl
  | some d =>
    obtain ⟨count, kind⟩ := counted (p, d) ((OrderedMap.lookup_eq_some_iff o.nodup).mp found)
    obtain rfl : d = .tokens count := kind
    rfl

theorem brought_mark (q p : PlaceName) : brought (branchOutcome [q]) p = if p = q then 1 else 0 := by
  have single : (branchOutcome [q]).deposits = [(q, .tokens 1)] := rfl
  unfold brought
  rw [single, List.lookup_cons]
  by_cases here : p = q
  · simp [here]
  · have apart : (p == q) = false := by simpa using here
    simp [here, apart]

theorem fixedCounts_mark (q : PlaceName) : FixedCounts (branchOutcome [q]) := by
  intro d mem
  obtain rfl := List.mem_singleton.mp mem
  exact ⟨1, rfl⟩

theorem brought_zero {o : Outcome} {p : PlaceName} (elsewhere : p ∉ o.deposits.map Prod.fst) :
    brought o p = 0 := by
  unfold brought
  rw [(OrderedMap.lookup_eq_none_iff _ _).mpr elsewhere]

end More

/-! ## Firings in flight -/

section Flights

variable {net net' : PetriNet V N} {env : List PlaceName} {split : Transition V N → Bool} {start : Counts}

/-- What a firing in flight has added already, if it is going to deposit `choice`: the mark of a transition that is
split, and otherwise the deposits. -/
def added (split : Transition V N → Bool) (choice : Tid net → Outcome) (p : PlaceName) (tid : Tid net) : Nat :=
  if split (transition tid) = true then if p = inFlightPlace (transition tid).name then 1 else 0
  else brought (choice tid) p

/-- The marking of the split net: the tokens there are, those lost with a firing that failed, and what the firings in
flight have added. -/
def covering (split : Transition V N → Bool) (tokens : Tokens net) (lost : Counts) (choice : Tid net → Outcome) :
    Counts :=
  fun p => (tokens.queue p).length + (underWay tokens.flight (added split choice p) + lost p)

theorem covering_mk (queue : PlaceName → List (Token V)) (flight : Tid net → Option (Consumption V N))
    (lost : Counts) (choice : Tid net → Outcome) (p : PlaceName) :
    covering split ⟨queue, flight⟩ lost choice p =
      (queue p).length + (underWay flight (added split choice p) + lost p) := rfl

theorem exists_choice (net : PetriNet V N) :
    ∃ choice : Tid net → Outcome, ∀ tid, choice tid ∈ outcomes (transition tid) :=
  ⟨fun tid => (outcomes (transition tid)).head (outcomes_ne_nil _), fun _ => List.head_mem _⟩

theorem le_covering (tokens : Tokens net) (lost : Counts) (choice : Tid net → Outcome) (p : PlaceName) :
    (tokens.queue p).length ≤ covering split tokens lost choice p := Nat.le_add_right _ _

/-- With nothing in flight and nothing lost, the split net shows the tokens. -/
theorem covering_idle {tokens : Tokens net} {lost : Counts} (idle : ∀ tid, tokens.flight tid = none)
    (kept : ∀ p, lost p = 0) (choice : Tid net → Outcome) (p : PlaceName) :
    covering split tokens lost choice p = (tokens.queue p).length := by
  unfold covering
  rw [underWay_idle idle, kept]
  rfl

/-- The split net keeps up with the tokens, whatever the firings in flight are going to deposit. -/
structure Covered (net' : PetriNet V N) (env : List PlaceName) (split : Transition V N → Bool) (start : Counts)
    (tokens : Tokens net) (lost : Counts) : Prop where
  harmless : ∀ p ∈ nonMonotonePlaces net, lost p = 0
  reached : ∀ choice : Tid net → Outcome, (∀ tid, choice tid ∈ outcomes (transition tid)) →
    CountReachable net' env start (covering split tokens lost choice)

theorem exists_transitionAt {t : Transition V N} (mem : t ∈ net'.transitions) :
    ∃ i : NetTransition net', transitionAt i = t := by
  obtain ⟨i, lt, same⟩ := List.mem_iff_getElem.mp mem
  exact ⟨⟨i, lt⟩, same⟩

/-- A firing of a transition of the split net. -/
theorem CountReachable.fire {m : Counts} {t : Transition V N} {o : Outcome}
    (reachable : CountReachable net' env start m) (mem : t ∈ net'.transitions) (can : Enabled t m)
    (outcome : o ∈ outcomes t) :
    CountReachable net' env start (TokenGame.fire t m o) := by
  obtain ⟨i, rfl⟩ := exists_transitionAt mem
  exact reachable.tail (.fire i o can outcome)

theorem Tests.nonMonotone {t : Transition V N} {p : PlaceName} (tests : Tests t p) (mem : t ∈ net.transitions) :
    p ∈ nonMonotonePlaces net := mem_nonMonotonePlaces.mpr (.inr ⟨t, mem, tests⟩)

theorem fixed_outcomes (undrained : drainedForward net = false) {tid : Tid net} {o : Outcome}
    (outcome : o ∈ outcomes (transition tid)) : FixedCounts o :=
  drainedForward_eq_false.mp undrained _ (transition_mem tid) o outcome

/-- A completion takes its mark. -/
theorem intermediate_completionOf (t : Transition V N) (m : Counts) (p : PlaceName) :
    intermediate (completionOf t) m p = m p - if p = inFlightPlace t.name then 1 else 0 := by
  have inputs : (completionOf t).inputSpecs = [.one (inFlightPlace t.name)] := rfl
  have resets : (completionOf t).resets = [] := rfl
  unfold intermediate consumption
  rw [resets, inputs, if_neg List.not_mem_nil, List.find?_cons]
  by_cases here : p = inFlightPlace t.name
  · subst here
    simp [In.place, StateClassGraph.inputConsumeCount]
  · have apart : ¬inFlightPlace t.name = p := fun same => here same.symm
    simp [In.place, here, apart]

variable (steps : InTwoSteps net net' split) (built : AsBuilt net) (undrained : drainedForward net = false)

include steps built

/-- No firing in flight adds tokens where a transition tests for them. -/
theorem added_tested {choice : Tid net → Outcome} (valid : ∀ tid, choice tid ∈ outcomes (transition tid))
    {p : PlaceName} (tested : p ∈ nonMonotonePlaces net) (tid : Tid net) : added split choice p tid = 0 := by
  unfold added
  by_cases halved : split (transition tid) = true
  · have other : p ≠ inFlightPlace (transition tid).name := by
      rintro rfl
      exact steps.fresh _ (transition_mem tid) halved (nonMonotonePlaces_declared built tested)
    rw [if_pos halved, if_neg other]
  · -- what is not split deposits nowhere that is tested
    rw [if_neg halved]
    apply brought_zero
    intro deposit
    have output := outcomes_places (valid tid) p deposit
    exact steps.untested _ (transition_mem tid) (Bool.not_eq_true _ ▸ halved) p output tested

theorem Covered.covering_tested {tokens : Tokens net} {lost : Counts} (h : Covered net' env split start tokens lost)
    {choice : Tid net → Outcome} (valid : ∀ tid, choice tid ∈ outcomes (transition tid)) {p : PlaceName}
    (tested : p ∈ nonMonotonePlaces net) : covering split tokens lost choice p = (tokens.queue p).length := by
  unfold covering
  rw [underWay_zero fun tid _ => added_tested steps built valid tested tid, h.harmless p tested]
  rfl

variable {tokens : Tokens net} {lost : Counts} {tid : Tid net}

include undrained in
/-- A firing that starts. -/
theorem Covered.fired [LinearOrder N] {chosen : Option N} (h : Covered net' env split start tokens lost)
    (idle : tokens.flight tid = none) (fireable : Fireable (transition tid) chosen tokens.queue)
    (drains : ∀ spec ∈ (transition tid).inputSpecs,
      consumesAll spec = true → correlated (transition tid) spec.place = none) (c : Consumption V N) :
    Covered net' env split start
      ⟨queueAfter (transition tid) chosen tokens.queue, Function.update tokens.flight tid (some c)⟩ lost := by
  refine ⟨h.harmless, fun choice valid => ?_⟩
  let extra : Counts := fun p => underWay tokens.flight (added split choice p) + lost p
  have blind (p : PlaceName) (tests : Tests (transition tid) p) : extra p = 0 := by
    have tested := tests.nonMonotone (transition_mem tid)
    have light : underWay tokens.flight (added split choice p) = 0 :=
      underWay_zero fun other _ => added_tested steps built valid tested other
    simp only [extra, light, h.harmless p tested]
  have can : Enabled (transition tid) (covering split tokens lost choice) := enabled_add fireable.enabled blind
  have left (p : PlaceName) : intermediate (transition tid) (covering split tokens lost choice) p =
      (queueAfter (transition tid) chosen tokens.queue p).length + extra p := by
    have exact_ : intermediate (transition tid) (counts tokens.queue) p =
        (queueAfter (transition tid) chosen tokens.queue p).length :=
      (congrFun (fireable.counts_queueAfter drains) p).symm
    rw [← exact_]
    exact intermediate_add fireable.enabled blind p
  have more (p : PlaceName) : underWay (Function.update tokens.flight tid (some c)) (added split choice p) =
      underWay tokens.flight (added split choice p) + added split choice p tid := underWay_start idle c
  have after (p : PlaceName) : covering split
      ⟨queueAfter (transition tid) chosen tokens.queue, Function.update tokens.flight tid (some c)⟩ lost choice p =
        intermediate (transition tid) (covering split tokens lost choice) p + added split choice p tid := by
    rw [left, covering_mk, more]
    simp only [extra]
    omega
  by_cases halved : split (transition tid) = true
  · -- its start leaves the mark
    have mark : branchOutcome [inFlightPlace (transition tid).name] ∈ outcomes (startOf (transition tid)) :=
      List.mem_singleton_self _
    have can' : Enabled (startOf (transition tid)) (covering split tokens lost choice) :=
      ⟨can.inputs, can.reads, can.inhibitors⟩
    have starts := (h.reached choice valid).fire (steps.start _ (transition_mem tid) halved) can' mark
    have same : TokenGame.fire (startOf (transition tid)) (covering split tokens lost choice)
        (branchOutcome [inFlightPlace (transition tid).name]) = covering split
          ⟨queueAfter (transition tid) chosen tokens.queue, Function.update tokens.flight tid (some c)⟩
          lost choice := by
      funext p
      rw [after, TokenGame.fire, deposited_fixed (fixedCounts_mark _), brought_mark, added, if_pos halved]
      rfl
    exact same ▸ starts
  · -- it deposits what it will choose
    have fires := (h.reached choice valid).fire
      (steps.whole _ (transition_mem tid) (Bool.not_eq_true _ ▸ halved)) can (valid tid)
    have same : TokenGame.fire (transition tid) (covering split tokens lost choice) (choice tid) = covering split
        ⟨queueAfter (transition tid) chosen tokens.queue, Function.update tokens.flight tid (some c)⟩
        lost choice := by
      funext p
      rw [after, TokenGame.fire, deposited_fixed (fixed_outcomes undrained (valid tid)), added, if_neg halved]
    exact same ▸ fires

omit steps built in
/-- A choice for a firing in flight is one of the choices. -/
theorem valid_update {choice : Tid net → Outcome} (valid : ∀ other, choice other ∈ outcomes (transition other))
    {o : Outcome} (outcome : o ∈ outcomes (transition tid)) (other : Tid net) :
    Function.update choice tid o other ∈ outcomes (transition other) := by
  by_cases own : other = tid
  · subst own
    rwa [Function.update_self]
  · rw [Function.update_of_ne own]
    exact valid other

omit steps built in
/-- What the others have added does not depend on what one of them is going to deposit. -/
theorem underWay_choice {choice : Tid net → Outcome} (flying : (tokens.flight tid).isSome = true) (o : Outcome)
    (p : PlaceName) :
    underWay tokens.flight (added split (Function.update choice tid o) p) =
      underWay (Function.update tokens.flight tid none) (added split choice p) +
        added split (fun _ => o) p tid := by
  have stopped :
      underWay (Function.update tokens.flight tid none) (added split (Function.update choice tid o) p) +
          added split (Function.update choice tid o) p tid =
        underWay tokens.flight (added split (Function.update choice tid o) p) := underWay_stop flying
  have own : added split (Function.update choice tid o) p tid = added split (fun _ => o) p tid := by
    unfold added
    rw [Function.update_self]
  rw [← stopped, own]
  congr 1
  -- the others are those still in flight
  apply underWay_congr
  intro other flies
  have apart : other ≠ tid := by
    rintro rfl
    rw [Function.update_self] at flies
    cases flies
  unfold added
  rw [Function.update_of_ne apart]

omit steps built in
/-- A firing that fails has lost what it had added. -/
theorem Covered.failed (h : Covered net' env split start tokens lost) (flying : (tokens.flight tid).isSome = true)
    {o : Outcome} (outcome : o ∈ outcomes (transition tid))
    (blind : ∀ p ∈ nonMonotonePlaces net, added split (fun _ => o) p tid = 0) :
    Covered net' env split start ⟨tokens.queue, Function.update tokens.flight tid none⟩
      fun p => lost p + added split (fun _ => o) p tid := by
  refine ⟨fun p tested => ?_, fun choice valid => ?_⟩
  · rw [h.harmless p tested, blind p tested]
  · have same : covering split ⟨tokens.queue, Function.update tokens.flight tid none⟩
        (fun p => lost p + added split (fun _ => o) p tid) choice =
          covering split tokens lost (Function.update choice tid o) := by
      funext p
      rw [covering_mk, covering, underWay_choice flying]
      omega
    rw [same]
    exact h.reached _ (valid_update valid outcome)

omit built in
include undrained in
/-- A firing that completes. -/
theorem Covered.landed {entries : List (PlaceName × Token V)} {o : Outcome}
    (h : Covered net' env split start tokens lost) (flying : (tokens.flight tid).isSome = true)
    (outcome : o ∈ outcomes (transition tid))
    (deposits : ∀ p, (entriesAt entries p).length = brought o p) :
    Covered net' env split start
      ⟨fun p => tokens.queue p ++ entriesAt entries p, Function.update tokens.flight tid none⟩ lost := by
  refine ⟨h.harmless, fun choice valid => ?_⟩
  have before := h.reached _ (valid_update valid outcome)
  have was (p : PlaceName) : covering split tokens lost (Function.update choice tid o) p =
      (tokens.queue p).length + (underWay (Function.update tokens.flight tid none) (added split choice p) +
        added split (fun _ => o) p tid + lost p) := by
    rw [covering, underWay_choice flying]
  have now (p : PlaceName) : covering split
      ⟨fun p => tokens.queue p ++ entriesAt entries p, Function.update tokens.flight tid none⟩ lost choice p =
        (tokens.queue p).length + brought o p +
          (underWay (Function.update tokens.flight tid none) (added split choice p) + lost p) := by
    rw [covering_mk, ← deposits, List.length_append]
  by_cases halved : split (transition tid) = true
  · -- the completion takes the mark, and deposits
    have marked : 1 ≤
        covering split tokens lost (Function.update choice tid o) (inFlightPlace (transition tid).name) := by
      rw [was, added, if_pos halved, if_pos rfl]
      omega
    have can : Enabled (completionOf (transition tid))
        (covering split tokens lost (Function.update choice tid o)) := by
      refine ⟨fun spec mem => ?_, fun p mem => absurd mem List.not_mem_nil,
        fun p mem => absurd mem List.not_mem_nil⟩
      obtain rfl := List.mem_singleton.mp mem
      exact marked
    have ends := before.fire (steps.complete _ (transition_mem tid) halved) can
      ((steps.outcomes_eq _ (transition_mem tid) halved).symm ▸ outcome)
    have same : TokenGame.fire (completionOf (transition tid))
        (covering split tokens lost (Function.update choice tid o)) o = covering split
          ⟨fun p => tokens.queue p ++ entriesAt entries p, Function.update tokens.flight tid none⟩ lost choice := by
      funext p
      rw [TokenGame.fire, deposited_fixed (fixed_outcomes undrained outcome), now, intermediate_completionOf, was,
        added, if_pos halved]
      omega
    exact same ▸ ends
  · -- it has deposited already
    have same : covering split tokens lost (Function.update choice tid o) = covering split
        ⟨fun p => tokens.queue p ++ entriesAt entries p, Function.update tokens.flight tid none⟩ lost choice := by
      funext p
      rw [was, now, added, if_neg halved]
      omega
    exact same ▸ before

omit steps built in
/-- An event that comes in. -/
theorem Covered.admitted (h : Covered net' env split start tokens lost) {p : PlaceName} (open_ : p ∈ env)
    (token : Token V) :
    Covered net' env split start ⟨fun q => tokens.queue q ++ entriesAt [(p, token)] q, tokens.flight⟩ lost := by
  refine ⟨h.harmless, fun choice valid => ?_⟩
  have more := (h.reached choice valid).tail (.inject p open_)
  have same : Function.update (covering split tokens lost choice) p (covering split tokens lost choice p + 1) =
      covering split ⟨fun q => tokens.queue q ++ entriesAt [(p, token)] q, tokens.flight⟩ lost choice := by
    funext q
    show Function.update (covering split tokens lost choice) p (covering split tokens lost choice p + 1) q =
      (tokens.queue q ++ entriesAt [(p, token)] q).length + (underWay tokens.flight (added split choice q) + lost q)
    rw [Function.update_apply, entriesAt_singleton, List.length_append]
    by_cases here : q = p
    · subst here
      rw [if_pos rfl, if_pos rfl, List.length_singleton, covering]
      omega
    · rw [if_neg here, if_neg here]
      rfl
  exact same ▸ more

end Flights

/-! ## Along a run -/

section Runs

variable {net : PetriNet V N}

/-- What an effect keeps to, however the firings overlap: a completion writes each of its places at most once, and
events are for environment places. -/
def Permitted (env : List PlaceName) (older : List (Effect net)) : Effect net → Prop
  | .landed tid => WritesOnce (transition tid) (lastWritten older)
  | .admitting event => event.place ∈ env
  | _ => True

instance (env : List PlaceName) (older : List (Effect net)) : DecidablePred (Permitted env older)
  | .landed tid => inferInstanceAs (Decidable (WritesOnce (transition tid) (lastWritten older)))
  | .admitting event => inferInstanceAs (Decidable (event.place ∈ env))
  | .launched _ _ _ _ | .aborted _ | .failed _ | .appended _ | .seeded _ _ | .began _ | .took _ _ _ | .reset _ _
  | .settled _ _ | .deposited _ _ | .unregistered _ | .refused _ | .accepted _ | .resolved _ _ | .rejected _
  | .snapshotTaken _ _ | .snapshotRefused | .drained | .closed | .reaped _ | .ended => .isTrue trivial

/-- A firing that fails loses the tokens it took. -/
def loses : Effect net → Bool
  | .aborted _ | .failed _ => true
  | _ => false

/-- What a state of the flat net of a split net says of the tokens.  No place holds more than the state shows.  A place
that is tested holds just that, and with nothing in flight and nothing lost every place does. -/
structure CoveredIn {S : Type} (flatNet : FlatNet S) (history : List (Effect net)) (tokens : Tokens net)
    (s : flatNet.State) : Prop where
  bounds : ∀ p, (tokens.queue (flatNet.placeAt p)).length ≤ s p
  tested : ∀ p, flatNet.placeAt p ∈ nonMonotonePlaces net → s p = (tokens.queue (flatNet.placeAt p)).length
  exact_ : (∀ e ∈ history, loses e = false) → (∀ tid, tokens.flight tid = none) →
    ∀ p, s p = (tokens.queue (flatNet.placeAt p)).length

variable [LinearOrder N] {cfg : Setting V N} {env : List PlaceName} {split : Transition V N → Bool}
  {history : List (Effect cfg.net)} {tokens : Tokens cfg.net} {net' : PetriNet V N}

/-- The split net keeps up with every run. -/
theorem TokenRun.covered (steps : InTwoSteps cfg.net net' split) (built : AsBuilt cfg.net)
    (undrained : drainedForward cfg.net = false) (drains : DrainsUncorrelated cfg.net)
    (run : TokenRun cfg (seedTokens cfg.initialTokens) history tokens) (accepted : AllAccepted history)
    (regular : Throughout (Permitted env) history) :
    ∃ lost, Covered net' env split (counts (seedTokens cfg.initialTokens)) tokens lost ∧
      ((∀ e ∈ history, loses e = false) → ∀ p, lost p = 0) := by
  have some_ (tid : Tid cfg.net) : ∃ o ∈ outcomes (transition tid),
      ∀ p ∈ nonMonotonePlaces cfg.net, added split (fun _ => o) p tid = 0 := by
    obtain ⟨any, valid⟩ := exists_choice cfg.net
    exact ⟨any tid, valid tid, fun p tested => added_tested steps built valid tested tid⟩
  induction run with
  | seeded =>
    refine ⟨fun _ => 0, ⟨fun _ _ => rfl, fun choice _ => ?_⟩, fun _ _ => rfl⟩
    have same : covering split ⟨seedTokens cfg.initialTokens, fun _ => none⟩ (fun _ => 0) choice =
        counts (seedTokens cfg.initialTokens) := by
      funext p
      rw [covering_mk, underWay_idle fun _ => rfl]
      rfl
    rw [same]
  | @fired history tokens tid chosen run idle fireable ih =>
    have inside : ∀ e ∈ (consumptionEffects (transition tid) chosen tokens.queue : List (Effect cfg.net)),
      inTurn e = true := inTurn_consumptionEffects _ _ _
    have before : AllAccepted history := ((allAccepted_inTurn inside).mp accepted :)
    obtain ⟨lost, covered, kept⟩ := ih before regular.2.older.2
    have started := covered.fired steps built undrained idle fireable (drains _ (transition_mem tid))
      (consumptionOf (transition tid) chosen tokens.queue)
    refine ⟨lost, started, fun fine => ?_⟩
    exact kept fun e mem => fine e (by simp [mem])
  | @aborted history tokens tid chosen run idle fireable ih =>
    -- as if it had been launched, and had failed at once
    have inside : ∀ e ∈ (consumptionEffects (transition tid) chosen tokens.queue : List (Effect cfg.net)),
      inTurn e = true := inTurn_consumptionEffects _ _ _
    have before : AllAccepted history := ((allAccepted_inTurn inside).mp accepted :)
    obtain ⟨lost, covered, -⟩ := ih before regular.2.older.2
    obtain ⟨o, outcome, blind⟩ := some_ tid
    have started := covered.fired steps built undrained idle fireable (drains _ (transition_mem tid))
      (consumptionOf (transition tid) chosen tokens.queue)
    have gone := started.failed (by simp) outcome blind
    have same : Function.update
        (Function.update tokens.flight tid (some (consumptionOf (transition tid) chosen tokens.queue)))
        tid none = tokens.flight := by
      rw [Function.update_idem, ← idle, Function.update_eq_self]
    dsimp only at gone
    rw [same] at gone
    refine ⟨_, gone, fun fine => ?_⟩
    have kept := fine (.aborted tid) List.mem_cons_self
    cases kept
  | @completed history tokens tid run held entries ih =>
    have inside : ∀ e ∈ (landings entries : List (Effect cfg.net)), inTurn e = true := inTurn_landings entries
    have before : AllAccepted history := ((allAccepted_inTurn inside).mp accepted.2 :)
    obtain ⟨lost, covered, kept⟩ := ih before regular.2.older.2
    obtain ⟨⟨written, landed, accepted⟩, -⟩ := accepted
    -- what the completion has deposited is what it wrote last
    have last : lastWritten (landings entries ++ .settled tid entries :: history) = entries :=
      lastWritten_inTurn inside
    obtain rfl : written = entries := landed.lastWritten_eq.symm.trans last
    have writes : WritesOnce (transition tid) written := last ▸ regular.1
    obtain ⟨o, outcome, deposits⟩ := exists_outcome accepted writes
    have fixed := fixed_outcomes undrained outcome
    refine ⟨lost, covered.landed steps undrained held outcome fun p => ?_, fun fine => ?_⟩
    · rw [deposits (fun _ => 0) p, deposited_fixed fixed]
    · exact kept fun e mem => fine e (by simp [mem])
  | @failed history tokens tid run held entries ih =>
    obtain ⟨lost, covered, -⟩ := ih accepted regular.2.2
    obtain ⟨o, outcome, blind⟩ := some_ tid
    refine ⟨_, covered.failed held outcome blind, fun fine => ?_⟩
    have kept := fine (.failed tid) List.mem_cons_self
    cases kept
  | @admitted history tokens run event ih =>
    obtain ⟨lost, covered, kept⟩ := ih accepted regular.2.2
    exact ⟨lost, covered.admitted regular.2.1 _, fun fine => kept fun e mem => fine e (by simp [mem])⟩

variable {reapable : Transition V N → Bool} {flatNet : FlatNet (NetTransition net')}

theorem TokenRun.splitFlat (flat : flatten net' ⟨env, .alwaysAvailable⟩ reapable = .ok flatNet)
    (steps : InTwoSteps cfg.net net' split) (built : AsBuilt cfg.net) (undrained : drainedForward cfg.net = false)
    (drains : DrainsUncorrelated cfg.net) (run : TokenRun cfg (seedTokens cfg.initialTokens) history tokens)
    (accepted : AllAccepted history) (regular : Throughout (Permitted env) history) :
    ∃ s, FlatReachable flatNet (countsIn flatNet (counts (seedTokens cfg.initialTokens))) s ∧
      CoveredIn flatNet history tokens s := by
  obtain rfl : openFlatNet net' env reapable = flatNet := Except.ok.inj (flatten_open.symm.trans flat)
  obtain ⟨lost, covered, kept⟩ := run.covered steps built undrained drains accepted regular
  obtain ⟨any, valid⟩ := exists_choice cfg.net
  refine ⟨_, (covered.reached any valid).flat (steps.undrained undrained), fun p => ?_, fun p tested => ?_,
    fun fine idle p => ?_⟩
  · exact le_covering tokens lost any _
  · exact covered.covering_tested steps built valid tested
  · exact covering_idle idle (kept fine) any _

variable [Value V] [ToString N] {I O : Type} {verifier : SmtVerifier I O} {names : List String}

end Runs

/-! ## Writing past a guard -/

/-- Moves a token from "in" to "out". -/
def writing : Transition (Option Nat) Nat :=
  plain "writing" [.one "in"] (some (.place "out")) .immediate (Closure.source_nodup _) (Closure.source_required _) trivial

/-- Moves a token from "go" to "done" while "out" is empty. -/
def guarded : Transition (Option Nat) Nat :=
  { plain "guarded" [.one "go"] (some (.place "done")) .immediate (Closure.source_nodup _) (Closure.source_required _) trivial with
    inhibitors := ["out"] }

/-- The first firing writes "out", the second "done". -/
def guardSetting : Setting (Option Nat) Nat :=
  { quiet ⟨"guard", ["in", "out", "go", "done"], [writing, guarded], [], nofun⟩
      [("in", [⟨some 1, 0⟩]), ("go", [⟨some 2, 0⟩])] with
    start := fun n => if n = 0 then ⟨none, [.output "out" (some 1)]⟩ else ⟨none, [.output "done" (some 2)]⟩ }

/-- A bound on "done", for which "writing" is split. -/
def guardVerifier : SmtVerifier Unit Unit where
  callerNet := ()
  initialMarking := (MarkingState.empty.setTokens "in" 1).setTokens "go" 1
  objectOf := fun _ => ()
  property := .placeBound "done" 1
  sinkPlaces := []
  conditionalSinks := []
  environmentPlaces := []
  environmentSteps := []
  carrierPlaces := []
  assumeAtomicFiring := false
  conflictPruning := false
  partialOrderReduction := true
  enumerationMaxClasses := 10

/-- Both firings start, and "guarded" ends first. -/
def guardedFirst : List (Label guardSetting) :=
  List.replicate 17 .tick ++ [.settle ⟨1, by decide⟩ none, .deliver ⟨1, by decide⟩] ++ List.replicate 8 .tick

theorem guardSetting_built : AsBuilt guardSetting.net where
  declared := by decide +kernel
  forwards t mem out spec source forward := by
    rcases List.mem_cons.mp mem with rfl | mem
    · obtain rfl := Option.some.inj spec
      cases forward
    · obtain rfl := List.mem_singleton.mp mem
      obtain rfl := Option.some.inj spec
      cases forward

theorem guardSetting_drains : DrainsUncorrelated guardSetting.net := by
  intro t mem spec input drained
  rcases List.mem_cons.mp mem with rfl | mem
  · obtain rfl := List.mem_singleton.mp input
    cases drained
  · obtain rfl := List.mem_singleton.mp mem
    obtain rfl := List.mem_singleton.mp input
    cases drained

end LibPetri.Verified

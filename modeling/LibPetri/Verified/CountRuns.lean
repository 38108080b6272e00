import LibPetri.Basis.Activities
import LibPetri.Basis.Histories
import LibPetri.Verified.LandedOutcomes

/-! # The counts of a run

The analyses reason about a flat net of counts, in which a firing is one step.  In an executor a firing starts, and
later completes, with other firings in between.  Counted with the tokens that firings in flight hold, its markings are
those of the flat net, as long as only firings that ask for fixed numbers of tokens overlap.
-/

namespace LibPetri.Verified

open LibPetri.Basis LibPetri.Core LibPetri.Runtime LibPetri.Verification CompiledNet Executor
open TokenGame (Counts Enabled consumption intermediate deposited)

variable {V N : Type}

/-! ## Moves of counts -/

section Moves

variable (net : PetriNet V N) (env : List PlaceName)

/-- A firing, or a token more in an environment place. -/
inductive CountMove (m : Counts) : Counts → Prop
  | fire (t : NetTransition net) (o : Outcome) (can : Enabled (transitionAt t) m)
      (outcome : o ∈ outcomes (transitionAt t)) : CountMove m (TokenGame.fire (transitionAt t) m o)
  | inject (p : PlaceName) (open_ : p ∈ env) : CountMove m (Function.update m p (m p + 1))

abbrev CountReachable : Counts → Counts → Prop := Relation.ReflTransGen (CountMove net env)

end Moves

section Flat

variable {net : PetriNet V N} {env : List PlaceName} {reapable : Transition V N → Bool}
  {flatNet : FlatNet (NetTransition net)}

/-- The counts of the places of a flat net. -/
def countsIn (flatNet : FlatNet (NetTransition net)) (m : Counts) : flatNet.State := fun p => m (flatNet.placeAt p)

theorem get?_setAll {α : Type} (places : List PlaceName) (value : α) (p : PlaceName) :
    (setAll places value).get? p = if p ∈ places then some value else none := by
  have folded (map : OrderedMap PlaceName α) : (places.foldl (fun map q => map.set q value) map).get? p =
      if p ∈ places then some value else map.get? p := by
    induction places generalizing map with
    | nil => rfl
    | cons q places ih =>
      rw [List.foldl_cons, ih, OrderedMap.get?_set]
      by_cases later : p ∈ places
      · simp [later]
      · by_cases here : p = q <;> simp [later, here]
  exact folded _

/-- The flat net, where the environment places may always get another token. -/
def openFlatNet (net : PetriNet V N) (env : List PlaceName) (reapable : Transition V N → Bool) :
    FlatNet (NetTransition net) where
  places := flatPlaces net
  transitions := flatTransitions net reapable
  environmentBounds := OrderedMap.empty
  environmentInjection := setAll env none
  places_nodup := flatPlaces_nodup net
  bounds_injected := nothing_capped _

theorem flatten_open : flatten net ⟨env, .alwaysAvailable⟩ reapable = .ok (openFlatNet net env reapable) := rfl

/-- A move of the counts is a step of the flat net, or changes a place the net does not have. -/
theorem CountMove.flat {m m' : Counts} (move : CountMove net env m m') (undrained : drainedForward net = false) :
    FlatReachable (openFlatNet net env reapable) (countsIn (openFlatNet net env reapable) m)
      (countsIn (openFlatNet net env reapable) m') := by
  cases move with
  | fire t o can outcome =>
    obtain ⟨i, at_⟩ := List.getElem?_of_mem outcome
    obtain ⟨lt, same⟩ := List.getElem?_eq_some_iff.mp at_
    let ft := flatTransition (flatPlaces net) reapable t (outcomes (transitionAt t)).length i o
    have listed : ft ∈ (openFlatNet net env reapable).transitions :=
      List.mem_flatMap.mpr ⟨t, List.mem_finRange t, List.mem_mapIdx.mpr ⟨i, lt, by rw [same]⟩⟩
    have enabled : AbstractReplayer.enabledA (countsIn (openFlatNet net env reapable) m) ft = true :=
      enabledA_iff.mpr can
    have fired : AbstractReplayer.fireA (countsIn (openFlatNet net env reapable) m) ft =
        countsIn (openFlatNet net env reapable) (TokenGame.fire (transitionAt t) m o) :=
      fireA_eq (undrained_deposits undrained outcome)
    refine .single (flatStep_iff_move.mpr ?_)
    obtain ⟨position, at_⟩ := (openFlatNet net env reapable).mem_transitions.mp listed
    refine ⟨some position, ?_⟩
    rw [← fired, ← at_]
    refine .fire position (at_ ▸ enabled) rfl
  | inject p open_ =>
    by_cases known : p ∈ flatPlaces net
    · obtain ⟨pid, at_⟩ := Option.isSome_iff_exists.mp ((openFlatNet net env reapable).placeIndex_isSome.mpr known)
      have name := (openFlatNet net env reapable).placeIndex_eq_some.mp at_
      have injected : (pid, none) ∈ SmtEncoder.resolveEnvInjection (openFlatNet net env reapable) := by
        refine mem_resolveEnvInjection.mpr ((OrderedMap.get?_eq_some_iff _).mp ?_)
        rw [name]
        exact (get?_setAll env none p).trans (if_pos open_)
      refine .single (flatStep_iff_move.mpr ⟨none, ?_⟩)
      have moved : countsIn (openFlatNet net env reapable) (Function.update m p (m p + 1)) =
          AbstractReplayer.injectA (countsIn (openFlatNet net env reapable) m) pid := by
        funext q
        unfold countsIn AbstractReplayer.injectA
        rw [Function.update_apply, Function.update_apply]
        refine if_congr ⟨fun same => ?_, fun same => same ▸ name⟩ (congrArg (fun q => m q + 1) name).symm rfl
        exact (openFlatNet net env reapable).placeAt_injective (same.trans name.symm)
      rw [moved]
      exact .inject pid none injected rfl
    · have same : countsIn (openFlatNet net env reapable) (Function.update m p (m p + 1)) =
          countsIn (openFlatNet net env reapable) m := by
        funext q
        refine Function.update_of_ne (fun here => known ?_) _ _
        rw [← here]
        exact List.getElem_mem _
      rw [same]

theorem CountReachable.flat {m m' : Counts} (reachable : CountReachable net env m m')
    (undrained : drainedForward net = false) : FlatReachable (openFlatNet net env reapable)
      (countsIn (openFlatNet net env reapable) m) (countsIn (openFlatNet net env reapable) m') := by
  induction reachable with
  | refl => exact .refl
  | tail _ move ih => exact ih.trans (move.flat undrained)

end Flat

/-! ## Counting tokens -/

section Counting

def counts (queue : PlaceName → List (Token V)) : Counts := fun p => (queue p).length

/-- The transition asks for fixed numbers of tokens, and for nothing else. -/
structure Plain (t : Transition V N) : Prop where
  fixed : ∀ spec ∈ t.inputSpecs, consumesAll spec = false
  reads : t.reads = []
  inhibitors : t.inhibitors = []
  resets : t.resets = []

instance (t : Transition V N) : Decidable (Plain t) :=
  decidable_of_iff ((∀ spec ∈ t.inputSpecs, consumesAll spec = false) ∧ t.reads = [] ∧ t.inhibitors = [] ∧ t.resets = [])
    ⟨fun ⟨fixed, reads, inhibitors, resets⟩ => ⟨fixed, reads, inhibitors, resets⟩,
      fun h => ⟨h.fixed, h.reads, h.inhibitors, h.resets⟩⟩

/-- No input that empties its place is correlated: such an input would leave the tokens of other names. -/
def DrainsUncorrelated (net : PetriNet V N) : Prop :=
  ∀ t ∈ net.transitions, ∀ spec ∈ t.inputSpecs, consumesAll spec = true → correlated t spec.place = none

/-- The tokens an input asks for, on its place. -/
def required (t : Transition V N) (p : PlaceName) : Nat :=
  (t.inputSpecs.find? fun spec => spec.place = p).elim 0 In.requiredCount

theorem consumption_plain {t : Transition V N} (plain : Plain t) (m : Counts) (p : PlaceName) :
    consumption t m p = required t p := by
  unfold consumption required
  cases found : t.inputSpecs.find? fun spec => decide (spec.place = p) with
  | none => rfl
  | some spec =>
    have fixed := plain.fixed spec (List.mem_of_find?_eq_some found)
    cases spec with
    | one | exactly => rfl
    | all | atLeast => cases fixed

theorem intermediate_plain {t : Transition V N} (plain : Plain t) (m : Counts) (p : PlaceName) :
    intermediate t m p = m p - required t p := by
  rw [intermediate, plain.resets, if_neg List.not_mem_nil, consumption_plain plain]

theorem required_le {t : Transition V N} {m : Counts} (can : Enabled t m) (p : PlaceName) : required t p ≤ m p := by
  unfold required
  cases found : t.inputSpecs.find? fun spec => decide (spec.place = p) with
  | none => exact Nat.zero_le _
  | some spec =>
    have place : spec.place = p := by simpa using List.find?_some found
    exact place ▸ can.inputs spec (List.mem_of_find?_eq_some found)

variable [LinearOrder N] {t : Transition V N} {chosen : Option N} {queue : PlaceName → List (Token V)}

theorem Fireable.enabled (h : Fireable t chosen queue) : Enabled t (counts queue) where
  inputs spec mem := (h.takeable spec mem).enough.trans List.countP_le_length
  reads p mem := List.length_pos_iff.mpr (h.reads p mem)
  inhibitors p mem := List.length_eq_zero_iff.mpr (h.inhibitors p mem)

/-- An input takes as many tokens as the analysis counts. -/
theorem demand_eq {spec : In} (drains : consumesAll spec = true → correlated t spec.place = none) :
    demand t chosen spec (queue spec.place) = StateClassGraph.inputConsumeCount spec (counts queue spec.place) := by
  have everything (free : correlated t spec.place = none) :
      (queue spec.place).countP (eligible t chosen spec.place) = (queue spec.place).length := by
    rw [eligible_of_free (.inl free)]
    exact List.countP_eq_length.mpr fun _ _ => rfl
  cases spec with
  | one => rfl
  | exactly => rfl
  | all p => exact everything (drains rfl)
  | atLeast count p => exact everything (drains rfl)

theorem length_leftAfter {spec : In} (takeable : Takeable t chosen spec (queue spec.place)) :
    (leftAfter t chosen spec (queue spec.place)).length =
      (queue spec.place).length - demand t chosen spec (queue spec.place) := by
  have all : (takenBy t chosen spec (queue spec.place)).length + (leftAfter t chosen spec (queue spec.place)).length =
      (queue spec.place).length := by
    have perm : ((takenBy t chosen spec (queue spec.place)).map Prod.snd ++
        leftAfter t chosen spec (queue spec.place)).Perm (queue spec.place) := picked_append_leftBy _ _
    have lengths := perm.length_eq
    rwa [List.length_append, List.length_map] at lengths
  have taken : (takenBy t chosen spec (queue spec.place)).length = demand t chosen spec (queue spec.place) :=
    length_picked (demand_le takeable.enough)
  omega

/-- What a firing leaves, counted. -/
theorem Fireable.counts_queueAfter (h : Fireable t chosen queue)
    (drains : ∀ spec ∈ t.inputSpecs, consumesAll spec = true → correlated t spec.place = none) :
    counts (queueAfter t chosen queue) = intermediate t (counts queue) := by
  funext p
  unfold counts queueAfter intermediate
  split
  next => rfl
  next =>
    unfold consumption
    cases found : t.inputSpecs.find? fun spec => decide (spec.place = p) with
    | none =>
      have apart : ∀ spec ∈ t.inputSpecs, spec.place ≠ p := fun spec mem same =>
        List.find?_eq_none.mp found spec mem (decide_eq_true same)
      rw [afterTaking_of_notMem apart]
      exact (Nat.sub_zero _).symm
    | some spec =>
      have place : spec.place = p := by simpa using List.find?_some found
      have mem := List.mem_of_find?_eq_some found
      subst place
      rw [afterTaking_place t.inputs_nodup mem, length_leftAfter (h.takeable spec mem), demand_eq (drains spec mem)]
      rfl

end Counting

/-! ## Firings in flight -/

section Flights

variable {net : PetriNet V N}

/-- The tokens of a place that plain firings hold while they are in flight. -/
def inHand (tokens : Tokens net) (p : PlaceName) : Nat := underWay tokens.flight fun tid => required (transition tid) p

/-- How the marking of the analysis shows in the tokens: plain firings hold theirs, and any other firing is in flight
alone. -/
inductive Shows (tokens : Tokens net) (m : Counts) : Prop
  | apart (plain : ∀ tid, (tokens.flight tid).isSome = true → Plain (transition tid))
      (held : ∀ p, m p = (tokens.queue p).length + inHand tokens p)
  | alone (tid : Tid net) (rough : ¬Plain (transition tid))
      (only : ∀ other, (tokens.flight other).isSome = true ↔ other = tid) (can : Enabled (transition tid) m)
      (taken : ∀ p, (tokens.queue p).length = intermediate (transition tid) m p)

variable {tokens : Tokens net} {m : Counts} {tid : Tid net}

/-- With nothing in flight the two markings are one. -/
theorem Shows.counts_eq (h : Shows tokens m) (idle : ∀ tid, tokens.flight tid = none) : m = counts tokens.queue := by
  cases h with
  | apart plain held =>
    funext p
    rw [held, inHand, underWay_idle idle]
    rfl
  | alone tid rough only can taken =>
    have flying := (only tid).mpr rfl
    rw [idle] at flying
    cases flying

theorem Shows.queue_le (h : Shows tokens m) (p : PlaceName) : (tokens.queue p).length ≤ m p := by
  cases h with
  | apart plain held =>
    have := held p
    omega
  | alone tid rough only can taken =>
    rw [taken, intermediate]
    split
    · exact Nat.zero_le _
    · exact Nat.sub_le _ _

/-- A firing that starts leaves the marking of the analysis as it is. -/
theorem Shows.fired [LinearOrder N] {chosen : Option N} (h : Shows tokens m) (idle : tokens.flight tid = none)
    (fireable : Fireable (transition tid) chosen tokens.queue)
    (drains : ∀ spec ∈ (transition tid).inputSpecs, consumesAll spec = true → correlated (transition tid) spec.place = none)
    (overlaps : ∀ other, (tokens.flight other).isSome = true → Plain (transition tid) ∧ Plain (transition other))
    (c : Consumption V N) :
    Shows ⟨queueAfter (transition tid) chosen tokens.queue, Function.update tokens.flight tid (some c)⟩ m := by
  have left (p : PlaceName) : (queueAfter (transition tid) chosen tokens.queue p).length =
      intermediate (transition tid) (counts tokens.queue) p := congrFun (fireable.counts_queueAfter drains) p
  by_cases plain : Plain (transition tid)
  · cases h with
    | apart others held =>
      refine .apart (fun other flying => ?_) fun p => ?_
      · by_cases own : other = tid
        · exact own ▸ plain
        · dsimp only at flying
          rw [Function.update_of_ne own] at flying
          exact others other flying
      · let after : Tokens net :=
          ⟨queueAfter (transition tid) chosen tokens.queue, Function.update tokens.flight tid (some c)⟩
        have change : inHand after p = inHand tokens p + required (transition tid) p := underWay_start idle c
        have enough : required (transition tid) p ≤ (tokens.queue p).length := required_le fireable.enabled p
        have before : (tokens.queue p).length = counts tokens.queue p := rfl
        rw [held, left, intermediate_plain plain, ← before]
        show _ = _ + inHand after p
        omega
    | alone other rough only can taken => exact absurd (overlaps other ((only other).mpr rfl)).2 rough
  · -- it has the net to itself
    have resting : ∀ other, tokens.flight other = none := fun other => by
      cases flying : tokens.flight other with
      | none => rfl
      | some _ => exact absurd (overlaps other (by rw [flying]; rfl)).1 plain
    obtain rfl := h.counts_eq resting
    refine .alone tid plain (fun other => ?_) fireable.enabled left
    by_cases own : other = tid
    · subst own
      simp
    · simp [resting, own]

/-- A firing that completes is one of the analysis. -/
theorem Shows.landed {entries : List (PlaceName × Token V)} {o : Outcome} (h : Shows tokens m)
    (flying : (tokens.flight tid).isSome = true)
    (deposits : ∀ p, (entriesAt entries p).length = deposited (transition tid) m o p) :
    Enabled (transition tid) m ∧
      Shows ⟨fun p => tokens.queue p ++ entriesAt entries p, Function.update tokens.flight tid none⟩
        (TokenGame.fire (transition tid) m o) := by
  let after : Tokens net := ⟨fun p => tokens.queue p ++ entriesAt entries p, Function.update tokens.flight tid none⟩
  have length (p : PlaceName) : (after.queue p).length = (tokens.queue p).length + deposited (transition tid) m o p := by
    rw [← deposits]
    exact List.length_append
  cases h with
  | apart plain held =>
    have own := plain tid flying
    have enough (p : PlaceName) : required (transition tid) p ≤ inHand tokens p :=
      le_underWay (fun tid => required (transition tid) p) flying
    refine ⟨⟨fun spec mem => ?_, ?_, ?_⟩, .apart (fun other flies => ?_) fun p => ?_⟩
    · have asked : required (transition tid) spec.place = spec.requiredCount := by
        unfold required
        rw [find?_input mem]
        rfl
      have := enough spec.place
      have := held spec.place
      omega
    · rw [own.reads]
      exact List.forall_mem_nil _
    · rw [own.inhibitors]
      exact List.forall_mem_nil _
    · by_cases same : other = tid
      · exact same ▸ own
      · dsimp only at flies
        rw [Function.update_of_ne same] at flies
        exact plain other flies
    · have change : inHand after p + required (transition tid) p = inHand tokens p := underWay_stop flying
      have total := held p
      rw [TokenGame.fire, intermediate_plain own]
      show _ = (after.queue p).length + inHand after p
      rw [length]
      omega
  | alone only_ rough only can taken =>
    obtain rfl := (only tid).mp flying
    have resting : ∀ other, after.flight other = none := fun other => by
      by_cases same : other = tid
      · rw [same]
        exact Function.update_self _ _ _
      · have gone : after.flight other = tokens.flight other := Function.update_of_ne same _ _
        rw [gone, ← Option.not_isSome_iff_eq_none]
        exact fun flies => same ((only other).mp flies)
    refine ⟨can, .apart (fun other flies => ?_) fun p => ?_⟩
    · rw [show after.flight other = none from resting other] at flies
      cases flies
    · show _ = (after.queue p).length + inHand after p
      rw [inHand, underWay_idle resting, length, taken]
      rfl

/-- An event brings a token more. -/
theorem Shows.admitted (h : Shows tokens m) (overlaps : ∀ tid, (tokens.flight tid).isSome = true → Plain (transition tid))
    (p : PlaceName) (token : Token V) :
    Shows ⟨fun q => tokens.queue q ++ entriesAt [(p, token)] q, tokens.flight⟩ (Function.update m p (m p + 1)) := by
  cases h with
  | apart plain held =>
    refine .apart plain fun q => ?_
    show Function.update m p (m p + 1) q = (tokens.queue q ++ entriesAt [(p, token)] q).length + inHand tokens q
    rw [entriesAt_singleton, List.length_append, Function.update_apply]
    by_cases here : q = p
    · subst here
      rw [if_pos rfl, if_pos rfl, held, List.length_singleton]
      omega
    · rw [if_neg here, if_neg here, held]
      rfl
  | alone tid rough only can taken => exact absurd (overlaps tid ((only tid).mpr rfl)) rough

end Flights

/-! ## Along a run -/

section Runs

variable {net : PetriNet V N}

instance (t : Transition V N) (entries : List (PlaceName × Token V)) : Decidable (WritesOnce t entries) :=
  decidable_of_iff ((∀ e ∈ entries, e.1 ∈ t.outputPlaces) ∧ (entries.map Prod.fst).Nodup)
    ⟨fun ⟨declared, once⟩ => ⟨declared, once⟩, fun h => ⟨h.declared, h.once⟩⟩

/-- What an effect keeps to: firings succeed and write each of their places at most once, events are for environment
places, and only plain firings are in flight while another one starts or an event comes in. -/
def Complies (env : List PlaceName) (older : List (Effect net)) : Effect net → Prop
  | .launched tid _ _ _ => ∀ other, runningOn other older ≠ [] → Plain (transition tid) ∧ Plain (transition other)
  | .landed tid => WritesOnce (transition tid) (lastWritten older)
  | .admitting event => event.place ∈ env ∧ ∀ other, runningOn other older ≠ [] → Plain (transition other)
  | .aborted _ | .failed _ => False
  | _ => True

/-- All effects on the record do. -/
abbrev Orderly (env : List PlaceName) : List (Effect net) → Prop := Throughout (Complies env)

instance (env : List PlaceName) (older : List (Effect net)) : DecidablePred (Complies env older)
  | .launched tid _ _ _ => inferInstanceAs
    (Decidable (∀ other, runningOn other older ≠ [] → Plain (transition tid) ∧ Plain (transition other)))
  | .landed tid => inferInstanceAs (Decidable (WritesOnce (transition tid) (lastWritten older)))
  | .admitting event => inferInstanceAs
    (Decidable (event.place ∈ env ∧ ∀ other, runningOn other older ≠ [] → Plain (transition other)))
  | .aborted _ | .failed _ => .isFalse id
  | .appended _ | .seeded _ _ | .began _ | .took _ _ _ | .reset _ _ | .settled _ _ | .deposited _ _ | .unregistered _
  | .refused _ | .accepted _ | .resolved _ _ | .rejected _ | .snapshotTaken _ _ | .snapshotRefused | .drained | .closed
  | .reaped _ | .ended => .isTrue trivial

variable [LinearOrder N] {cfg : Setting V N} {env : List PlaceName} {history : List (Effect cfg.net)}
  {tokens : Tokens cfg.net}

omit [LinearOrder N] in
theorem Conserved.runningOn_ne_nil (h : Conserved history tokens) {tid : Tid cfg.net}
    (flying : (tokens.flight tid).isSome = true) : runningOn tid history ≠ [] := by
  rw [h.running]
  cases held : tokens.flight tid with
  | none =>
    rw [held] at flying
    cases flying
  | some c => exact List.cons_ne_nil _ _

omit [LinearOrder N] in
theorem runningOn_inTurn {recent : List (Effect cfg.net)} (inside : ∀ e ∈ recent, inTurn e = true)
    (tid other : Tid cfg.net) : runningOn other (recent ++ .began tid :: history) = runningOn other history := by
  rw [runningOn, firingsOn_inTurn inside]
  rfl

omit [LinearOrder N] in
theorem Landed.lastWritten_eq {tid : Tid cfg.net} {entries : List (PlaceName × Token V)} (h : Landed tid entries history) :
    lastWritten history = entries := by
  obtain ⟨before, rfl⟩ := h
  exact lastWritten_inTurn (inTurn_landings entries)

/-- The tokens of an orderly run show a marking the counts can reach. -/
theorem TokenRun.shows (drains : DrainsUncorrelated cfg.net)
    (run : TokenRun cfg (seedTokens cfg.initialTokens) history tokens) (accepted : AllAccepted history)
    (orderly : Orderly env history) :
    ∃ m, CountReachable cfg.net env (counts (seedTokens cfg.initialTokens)) m ∧ Shows tokens m := by
  induction run with
  | seeded =>
    refine ⟨_, .refl, .apart (fun tid flying => by cases flying) fun p => ?_⟩
    rw [inHand, underWay_idle fun _ => rfl]
    rfl
  | @fired history tokens tid chosen run idle fireable ih =>
    have inside : ∀ e ∈ (consumptionEffects (transition tid) chosen tokens.queue : List (Effect cfg.net)),
      inTurn e = true := inTurn_consumptionEffects _ _ _
    have before : AllAccepted history := ((allAccepted_inTurn inside).mp accepted :)
    have kept : Orderly env (consumptionEffects (transition tid) chosen tokens.queue ++ .began tid :: history) := orderly.2
    obtain ⟨m, reachable, shows⟩ := ih before kept.older.2
    refine ⟨m, reachable, shows.fired idle fireable (drains _ (transition_mem tid)) (fun other flying => ?_) _⟩
    refine orderly.1 other ?_
    rw [runningOn_inTurn inside]
    exact run.conserved.runningOn_ne_nil flying
  | aborted => exact absurd orderly.1 id
  | @completed history tokens tid run held entries ih =>
    have inside : ∀ e ∈ (landings entries : List (Effect cfg.net)), inTurn e = true := inTurn_landings entries
    have before : AllAccepted history := ((allAccepted_inTurn inside).mp accepted.2 :)
    obtain ⟨m, reachable, shows⟩ := ih before orderly.2.older.2
    obtain ⟨⟨written, landed, accepted⟩, -⟩ := accepted
    have last : lastWritten (landings entries ++ .settled tid entries :: history) = entries := lastWritten_inTurn inside
    obtain rfl : written = entries := landed.lastWritten_eq.symm.trans last
    have writes : WritesOnce (transition tid) written := last ▸ orderly.1
    obtain ⟨o, outcome, deposits⟩ := exists_outcome accepted writes
    obtain ⟨can, later⟩ := shows.landed held (deposits m)
    exact ⟨_, reachable.tail (.fire tid o can outcome), later⟩
  | failed => exact absurd orderly.1 id
  | @admitted history tokens run event ih =>
    obtain ⟨m, reachable, shows⟩ := ih accepted orderly.2.2
    obtain ⟨open_, overlaps⟩ := orderly.2.1
    refine ⟨_, reachable.tail (.inject event.place open_), shows.admitted (fun tid flying => overlaps tid ?_) _ _⟩
    exact run.conserved.runningOn_ne_nil flying

/-- What a state of the flat net says of the tokens: no place holds more than it shows, and with nothing in flight each
place holds just that. -/
structure ShowsIn {S : Type} (flatNet : FlatNet S) (tokens : Tokens net) (s : flatNet.State) : Prop where
  bounds : ∀ p, (tokens.queue (flatNet.placeAt p)).length ≤ s p
  exact_ : (∀ tid, tokens.flight tid = none) → ∀ p, s p = (tokens.queue (flatNet.placeAt p)).length

omit [LinearOrder N] in
theorem Shows.showsIn {tokens : Tokens net} {m : Counts} (h : Shows tokens m) (flatNet : FlatNet (NetTransition net)) :
    ShowsIn flatNet tokens (countsIn flatNet m) where
  bounds _ := h.queue_le _
  exact_ idle _ := congrFun (h.counts_eq idle) _

variable {reapable : Transition V N → Bool} {flatNet : FlatNet (NetTransition cfg.net)}

theorem TokenRun.flat (flat : flatten cfg.net ⟨env, .alwaysAvailable⟩ reapable = .ok flatNet)
    (undrained : drainedForward cfg.net = false) (drains : DrainsUncorrelated cfg.net)
    (run : TokenRun cfg (seedTokens cfg.initialTokens) history tokens) (accepted : AllAccepted history)
    (orderly : Orderly env history) :
    ∃ s, FlatReachable flatNet (countsIn flatNet (counts (seedTokens cfg.initialTokens))) s ∧
      ShowsIn flatNet tokens s := by
  obtain rfl : openFlatNet cfg.net env reapable = flatNet := Except.ok.inj (flatten_open.symm.trans flat)
  obtain ⟨m, reachable, shows⟩ := run.shows drains accepted orderly
  exact ⟨_, reachable.flat undrained, shows.showsIn _⟩

variable [Value V] [ToString N]

end Runs

end LibPetri.Verified

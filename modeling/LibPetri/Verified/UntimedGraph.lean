import LibPetri.Runtime.CompiledNet
import LibPetri.Verification.ScgVerifier
import LibPetri.Verified.GraphClasses
import LibPetri.Verified.OutcomePlaces

/-! # The untimed graph

Explored untimed, or where every transition is immediate, no firing domain excludes anything: a class
fires whatever its marking enables, and a complete graph holds exactly the reachable markings.
-/

namespace LibPetri.Verified

open LibPetri.Basis LibPetri.Core LibPetri.Runtime LibPetri.Verification
open LibPetri.Verification.StateClassGraph TokenGame

variable {V N : Type} {net : PetriNet V N} {env : Environment}

/-! ## Classes of the untimed graph -/

/-- A class that lists what its marking enables, any of which may fire now. -/
structure Playable (c : StateClass net) : Prop where
  listed : Listed c
  now : InDomain c (fun _ => (0 : ℚ))

variable (net) in
/-- The exploration ignores the timing, or there is none. -/
def AtOnce (untimed : Bool) : Prop := untimed = true ∨ isUntimed net = true

theorem AtOnce.immediate {untimed : Bool} (atOnce : AtOnce net untimed) (t : NetTransition net) :
    (if untimed then Timing.immediate else (transitionAt t).timing) = .immediate := by
  rcases atOnce with rfl | all
  · rfl
  · have now := List.all_eq_true.mp all _ (transitionAt_mem t)
    rw [of_decide_eq_true now, ite_self]

theorem AtOnce.admits_now {untimed : Bool} (atOnce : AtOnce net untimed) (t : NetTransition net) :
    Clock.Admits (clockOf untimed t) (0 : ℚ) := by
  unfold clockOf
  rw [atOnce.immediate]
  refine ⟨by simp [Timing.earliest], BoundMatrix.meets_coe.mpr ?_⟩
  norm_num [Timing.latest, MAX_DURATION_MS]

variable {untimed : Bool}

theorem initialStateClass_playable (ignore : env.mode = .ignore) (atOnce : AtOnce net untimed)
    (marking : MarkingState) :
    Playable (initialStateClass net env untimed marking) := by
  refine ⟨initialStateClass_listed ignore untimed marking, ?_⟩
  have now : InDomain (initialStateClass net env untimed marking) (fun _ => (0 : ℚ) - 0) :=
    initialStateClass_holds (fun t _ => atOnce.admits_now t) (le_refl _) (fun _ _ => le_refl _)
  rwa [sub_zero] at now

theorem computeSuccessor_playable (ignore : env.mode = .ignore) (atOnce : AtOnce net untimed)
    {current : StateClass net} (h : Playable current) {fired : VirtualTransition net}
    (mem : fired.transition ∈ current.enabledTransitions) :
    Playable (computeSuccessor env untimed none current fired) := by
  refine ⟨computeSuccessor_listed ignore untimed h.listed fired, ?_⟩
  have continues : Continues env untimed current fired (fun _ => (0 : ℚ)) (fun _ => 0) := by
    refine ⟨mem, fun _ _ => le_refl _, fun t _ => ?_⟩
    split
    · simp
    · exact atOnce.admits_now t
  have now : InDomain (computeSuccessor env untimed none current fired) (fun _ => (0 : ℚ) - 0) :=
    computeSuccessor_holds h.now continues (le_refl _) (fun _ _ => le_refl _)
  rwa [sub_zero] at now

/-- The successors of a class are the firings of the transitions it expands. -/
theorem mem_successors (ignore : env.mode = .ignore) (atOnce : AtOnce net untimed)
    {stubborn : Bool} {current x : StateClass net} (h : Playable current) {l : EdgeLabel net} :
    (l, x) ∈ successors env untimed stubborn current ↔
      l.1 ∈ expand stubborn current ∧
        ∃ o, (outcomes (transitionAt l.1))[l.2]? = some o ∧
          x = computeSuccessor env untimed none current ⟨l.1, l.2, o⟩ := by
  have inside : ∀ t ∈ expand stubborn current, t ∈ current.enabledTransitions := by
    unfold expand
    split
    · exact fun t mem => StubbornSets.select_subset mem
    · exact fun t mem => mem
  obtain ⟨t, i⟩ := l
  simp only [successors, expandTransition, List.mem_flatMap, List.mem_filterMap]
  constructor
  · rintro ⟨u, mem, vt, at_, found⟩
    obtain ⟨k, lt, rfl⟩ := List.mem_mapIdx.mp at_
    dsimp only at found
    split at found
    · cases found
    · simp only [Option.some.injEq, Prod.mk.injEq] at found
      obtain ⟨⟨rfl, rfl⟩, rfl⟩ := found
      exact ⟨mem, _, List.getElem?_eq_getElem lt, rfl⟩
  · rintro ⟨mem, o, at_, rfl⟩
    obtain ⟨lt, rfl⟩ := List.getElem?_eq_some_iff.mp at_
    refine ⟨t, mem, ⟨t, i, (outcomes (transitionAt t))[i]⟩, List.mem_mapIdx.mpr ⟨i, lt, rfl⟩, ?_⟩
    have fires : (computeSuccessor env untimed none current
        ⟨t, i, (outcomes (transitionAt t))[i]⟩).firingDomain.isEmpty = false :=
      (computeSuccessor_playable ignore atOnce h (inside t mem)).now.contains.nonempty
    simp only [fires, Bool.false_eq_true, ↓reduceIte]

/-! ## Names -/

variable (net) in
/-- The places of a net and those its initial marking marks. -/
def Named (initialMarking : MarkingState) (p : PlaceName) : Prop :=
  p ∈ CompiledNet.placesById net ∨ p ∈ initialMarking.placesWithTokens

theorem outputPlaces_named (initialMarking : MarkingState) (t : NetTransition net) {p : PlaceName}
    (mem : p ∈ (transitionAt t).outputPlaces) : Named net initialMarking p := by
  refine .inl ?_
  unfold CompiledNet.placesById
  rw [List.mem_eraseDups, List.mem_append, List.mem_flatMap]
  exact .inl ⟨_, transitionAt_mem t, List.mem_append_right _ mem⟩

/-- Only places of the net come to be marked. -/
theorem fire_named {initialMarking : MarkingState} {t : NetTransition net} {m : Counts} {o : Outcome}
    (outcome : o ∈ outcomes (transitionAt t))
    (h : ∀ p, 0 < m p → Named net initialMarking p) :
    ∀ p, 0 < fire (transitionAt t) m o p → Named net initialMarking p := by
  intro p pos
  by_cases kept : 0 < m p
  · exact h p kept
  have nothing : intermediate (transitionAt t) m p = 0 := by
    unfold intermediate
    split <;> omega
  unfold fire deposited at pos
  cases found : o.deposits.lookup p with
  | none =>
    rw [found, nothing] at pos
    exact absurd pos (Nat.lt_irrefl 0)
  | some d =>
    have entry := (OrderedMap.lookup_eq_some_iff o.nodup).mp found
    exact outputPlaces_named _ t (outcomes_places outcome p (List.mem_map_of_mem entry))

/-! ## The markings of the graph -/

section Graph

variable {initialMarking : MarkingState}

variable (initialMarking) in
/-- A class of the exploration. -/
structure Untimed (c : StateClass net) : Prop where
  playable : Playable c
  reachable : ReachableMarking net initialMarking.tokens c.marking.tokens
  named : ∀ p, 0 < c.marking.tokens p → Named net initialMarking p

theorem initialStateClass_marking (untimed : Bool) :
    (initialStateClass net env untimed initialMarking).marking = initialMarking := rfl

theorem initialStateClass_untimed (ignore : env.mode = .ignore) (atOnce : AtOnce net untimed) :
    Untimed initialMarking (initialStateClass net env untimed initialMarking) := by
  refine ⟨initialStateClass_playable ignore atOnce initialMarking, .refl, fun p pos => .inr ?_⟩
  exact MarkingState.mem_placesWithTokens.mpr pos

theorem expand_subset {stubborn : Bool} {c : StateClass net} {t : NetTransition net}
    (mem : t ∈ expand stubborn c) : t ∈ c.enabledTransitions := by
  unfold expand at mem
  split at mem
  · exact StubbornSets.select_subset mem
  · exact mem

/-- What one expansion does: every successor is a firing of an enabled transition. -/
theorem successors_fires (ignore : env.mode = .ignore) (atOnce : AtOnce net untimed)
    {stubborn : Bool} {c x : StateClass net} (h : Playable c) {l : EdgeLabel net}
    (mem : (l, x) ∈ successors env untimed stubborn c) :
    Playable x ∧ Fires net c.marking.tokens l.1 x.marking.tokens := by
  obtain ⟨chosen, o, at_, rfl⟩ := (mem_successors ignore atOnce h).mp mem
  have enabled := expand_subset chosen
  refine ⟨computeSuccessor_playable ignore atOnce h enabled, ?_⟩
  have can := (h.listed.enabled l.1).mp enabled
  exact ⟨can, o, List.mem_iff_getElem?.mpr ⟨l.2, at_⟩, computeSuccessor_tokens ignore untimed none can⟩

theorem successors_untimed (ignore : env.mode = .ignore) (atOnce : AtOnce net untimed)
    {stubborn : Bool} {c x : StateClass net} (h : Untimed initialMarking c) {l : EdgeLabel net}
    (mem : (l, x) ∈ successors env untimed stubborn c) : Untimed initialMarking x := by
  obtain ⟨playable, can, o, outcome, tokens⟩ := successors_fires ignore atOnce h.playable mem
  refine ⟨playable, h.reachable.tail ⟨l.1, can, o, outcome, tokens⟩, ?_⟩
  rw [tokens]
  exact fire_named outcome h.named

/-- Without reduction, every firing has its successor. -/
theorem successors_follow (ignore : env.mode = .ignore) (atOnce : AtOnce net untimed)
    {c : StateClass net} (h : Playable c) {t : NetTransition net} {m : Counts}
    (fires : Fires net c.marking.tokens t m) :
    ∃ l x, (l, x) ∈ successors env untimed false c ∧ l.1 = t ∧ x.marking.tokens = m := by
  obtain ⟨can, o, outcome, rfl⟩ := fires
  obtain ⟨i, at_⟩ := List.mem_iff_getElem?.mp outcome
  refine ⟨(t, i), computeSuccessor env untimed none c ⟨t, i, o⟩, ?_, rfl,
    computeSuccessor_tokens ignore untimed none can⟩
  rw [mem_successors ignore atOnce h]
  exact ⟨(h.listed.enabled t).mpr can, o, at_, rfl⟩

/-- Classes with one key have one marking. -/
theorem tokens_eq_of_classKey {c d : StateClass net}
    (safe : ∀ p, Named net initialMarking p → MarkingState.KeySafe p)
    (hc : ∀ p, 0 < c.marking.tokens p → Named net initialMarking p)
    (hd : ∀ p, 0 < d.marking.tokens p → Named net initialMarking p)
    (same : classKey c = classKey d) : c.marking.tokens = d.marking.tokens :=
  MarkingState.tokens_eq_of_key
    (fun p mem => safe p (hc p (MarkingState.mem_placesWithTokens.mp mem)))
    (fun p mem => safe p (hd p (MarkingState.mem_placesWithTokens.mp mem))) same

variable (net) in
/-- Keys tell apart the markings of classes that mark places of the net and of its initial marking only. -/
def KeysTell (initialMarking : MarkingState) : Prop :=
  ∀ c d : StateClass net, (∀ p, 0 < c.marking.tokens p → Named net initialMarking p) →
    (∀ p, 0 < d.marking.tokens p → Named net initialMarking p) → classKey c = classKey d →
      c.marking.tokens = d.marking.tokens

theorem keysTell_of_safe (safe : ∀ p, Named net initialMarking p → MarkingState.KeySafe p) :
    KeysTell net initialMarking :=
  fun _ _ hc hd same => tokens_eq_of_classKey safe hc hd same

theorem build_ok (ignore : env.mode = .ignore) (maxClasses : Nat)
    (options : StateClassGraphOptions) :
    build net initialMarking maxClasses env options =
      .ok (Exploration.build classKey (successors env options.untimed options.stubborn) maxClasses
        (initialStateClass net env options.untimed initialMarking)) := by
  unfold build
  rw [ignore]

/-- Every class of the untimed graph, reduced or not. -/
theorem classes_untimed (ignore : env.mode = .ignore) (atOnce : AtOnce net untimed)
    {maxClasses : Nat} {stubborn : Bool} {g : StateClassGraph net}
    (built : build net initialMarking maxClasses env ⟨untimed, stubborn⟩ = .ok g) :
    ∀ c ∈ g.classes, Untimed initialMarking c := by
  rw [build_ok ignore] at built
  obtain rfl := Except.ok.inj built
  exact Exploration.build_explored.induction (initialStateClass_untimed ignore atOnce)
    fun c l x h mem => successors_untimed ignore atOnce h mem

/-- Where keys tell markings apart, a complete graph holds the markings the token game reaches. -/
theorem markings_of_complete (ignore : env.mode = .ignore) (atOnce : AtOnce net untimed)
    (tells : KeysTell net initialMarking) {maxClasses : Nat}
    {g : StateClassGraph net}
    (built : build net initialMarking maxClasses env ⟨untimed, false⟩ = .ok g)
    (complete : g.complete = true) (m : Counts) :
    (∃ c ∈ g.classes, c.marking.tokens = m) ↔ ReachableMarking net initialMarking.tokens m := by
  have all := classes_untimed ignore atOnce built
  constructor
  · rintro ⟨c, mem, rfl⟩
    exact (all c mem).reachable
  · intro reach
    rw [build_ok ignore] at built
    obtain rfl := Except.ok.inj built
    have start : Untimed initialMarking (initialStateClass net env untimed initialMarking) :=
      initialStateClass_untimed ignore atOnce
    -- a class simulates its marking, as long as that names places of the net only
    let simulates (m : Counts) (c : StateClass net) : Prop :=
      c.marking.tokens = m ∧ ∀ p, 0 < m p → Named net initialMarking p
    obtain ⟨c, mem, same, -⟩ := Exploration.build_explored.covers (R := simulates)
      (Exploration.build_complete complete) ⟨rfl, start.named⟩
      (fun a c d ⟨at_, names⟩ mem same =>
        ⟨(tells _ _ (all d mem).named (at_ ▸ names) same).trans at_, names⟩)
      (fun a a' c mem ⟨at_, names⟩ ⟨t, fires⟩ => by
        subst at_
        obtain ⟨l, x, succ, -, rfl⟩ := successors_follow ignore atOnce (all c mem).playable fires
        exact ⟨l, x, succ, rfl, (successors_untimed ignore atOnce (all c mem) succ).named⟩) reach
    exact ⟨c, mem, same⟩

end Graph

/-! ## Nets of immediate transitions -/

/-- An immediate transition without reads, resets and match. -/
def immediateTransition (name : String) (input : Option PlaceName) (inhibitors : List PlaceName)
    (output : Option PlaceName) : Transition Unit Unit where
  name := name
  inputSpecs := (input.map In.one).toList
  outputSpec := output.map Out.place
  inhibitors := inhibitors
  reads := []
  resets := []
  timing := .immediate
  priority := 0
  placeAlias := []
  matchSpec := none
  inputs_nodup := by cases input <;> simp
  required_pos := by cases input <;> simp [In.requiredCount]
  timing_valid := trivial
  keys_nodup := by simp
  keys_inputs := by simp

/-- A net of transitions, without terminals. -/
def netOf (places : List PlaceName) (transitions : List (Transition Unit Unit)) :
    PetriNet Unit Unit where
  name := "net"
  places := places
  transitions := transitions
  terminals := []
  terminals_declared := by simp

/-- No environment places. -/
def closedEnvironment : Environment := ⟨[], .ignore⟩

/-- A token that moves once. -/
def movingNet : PetriNet Unit Unit :=
  netOf ["a", "b"] [immediateTransition "t" (some "a") [] (some "b")]

theorem named_of_all {net : PetriNet Unit Unit} {initialMarking : MarkingState} {P : PlaceName → Prop}
    (h : ∀ p ∈ CompiledNet.placesById net ++ initialMarking.placesWithTokens, P p) :
    ∀ p, Named net initialMarking p → P p :=
  fun p named => h p (List.mem_append.mpr named)

def movingMarking : MarkingState := MarkingState.empty.addTokens "a" 1

def movingGraph : StateClassGraph movingNet :=
  Exploration.build classKey (successors closedEnvironment true false) 10
    (initialStateClass movingNet closedEnvironment true movingMarking)

/-- A place whose name starts by closing a marking: the key of the empty marking, with the first
transition enabled, is the key of the marking of that place, with the second one enabled. -/
def closingNet : PetriNet Unit Unit :=
  netOf ["\x7d|p"] [immediateTransition "p:1\x7d|t" none ["\x7d|p"] (some "\x7d|p"),
    immediateTransition "t" (some "\x7d|p") [] none]

def closingGraph : StateClassGraph closingNet :=
  Exploration.build classKey (successors closedEnvironment true false) 10
    (initialStateClass closingNet closedEnvironment true MarkingState.empty)

def closedMarking : MarkingState := MarkingState.empty.addTokens "\x7d|p" 1

theorem closing_fires :
    Fires closingNet MarkingState.empty.tokens ⟨0, by decide⟩ closedMarking.tokens := by
  have closed : closedEnvironment.mode = .ignore := rfl
  exact fires_produceOutputs closed (o := branchOutcome ["\x7d|p"]) (by decide +kernel)
    (by decide +kernel)

end LibPetri.Verified

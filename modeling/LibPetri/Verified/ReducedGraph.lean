import LibPetri.Basis.Commutation
import LibPetri.Verified.Independence
import LibPetri.Verified.UntimedGraph

/-! # The reduced graph

The exploration that expands one stubborn set at each class reaches every marking in which no
transition is enabled.
-/

namespace LibPetri.Verified

open LibPetri.Basis LibPetri.Core LibPetri.Runtime LibPetri.Verification
open LibPetri.Verification.StateClassGraph LibPetri.Verification.StubbornSets TokenGame

variable {V N : Type} {net : PetriNet V N}

/-! ## Closures -/

section Closures

variable (counts : Counts) (isEnabled : NetTransition net → Bool)

/-- What the processing of a member asks to be in the set too. -/
def asked (i : NetTransition net) : List (NetTransition net) :=
  if isEnabled i then dependents i else scapegoat counts i

/-- Each member has all it asks for. -/
def Closed (T : NetTransition net → Prop) : Prop := ∀ i, T i → ∀ j ∈ asked counts isEnabled i, T j

/-- A set in the making: whoever does not wait has all it asks for. -/
structure Growing (seed : NetTransition net) (w : Work net) : Prop where
  seeded : seed ∈ w.inSet
  waits : ∀ i ∈ w.work, i ∈ w.inSet
  inSet_nodup : w.inSet.Nodup
  processed : ∀ i ∈ w.inSet, i ∉ w.work → ∀ j ∈ asked counts isEnabled i, j ∈ w.inSet

variable {counts isEnabled} {seed : NetTransition net} {w : Work net}

/-- Pushing adds members, and lets each new one wait. -/
theorem push_foldl (js : List (NetTransition net)) (w : Work net) :
    ∃ added : List (NetTransition net), (js.foldl push w).inSet = added ++ w.inSet ∧
      (js.foldl push w).work = added ++ w.work ∧ added.Nodup ∧ (∀ j ∈ added, j ∉ w.inSet) ∧
      ∀ j ∈ js, j ∈ (js.foldl push w).inSet := by
  induction js generalizing w with
  | nil => exact ⟨[], rfl, rfl, List.nodup_nil, by simp, by simp⟩
  | cons j js ih =>
    obtain ⟨added, set, work, nodup, fresh, all⟩ := ih (push w j)
    rw [List.foldl_cons]
    by_cases known : j ∈ w.inSet
    · have same : push w j = w := if_pos known
      rw [same] at set work fresh all ⊢
      refine ⟨added, set, work, nodup, fresh, fun k mem => ?_⟩
      rcases List.mem_cons.mp mem with rfl | mem
      · exact set ▸ List.mem_append_right _ known
      · exact all k mem
    · have grown : push w j = ⟨j :: w.inSet, j :: w.work⟩ := if_neg known
      rw [grown] at set work fresh all ⊢
      have apart : ∀ k ∈ added, k ≠ j ∧ k ∉ w.inSet := fun k mem =>
        ⟨fun same => fresh k mem (same ▸ List.mem_cons_self),
          fun old => fresh k mem (List.mem_cons_of_mem _ old)⟩
      refine ⟨added ++ [j], by simp [set], by simp [work], ?_, fun k mem => ?_, fun k mem => ?_⟩
      · refine List.nodup_append.mpr ⟨nodup, List.nodup_singleton j, fun k mem k' single => ?_⟩
        exact List.mem_singleton.mp single ▸ (apart k mem).1
      · rcases List.mem_append.mp mem with mem | mem
        · exact (apart k mem).2
        · exact List.mem_singleton.mp mem ▸ known
      · rcases List.mem_cons.mp mem with rfl | mem
        · exact set ▸ List.mem_append_right _ List.mem_cons_self
        · exact all k mem

/-- Processing a member keeps a set growing. -/
theorem Growing.process {i : NetTransition net} {inSet work : List (NetTransition net)}
    (h : Growing counts isEnabled seed ⟨inSet, i :: work⟩) :
    Growing counts isEnabled seed ((asked counts isEnabled i).foldl push ⟨inSet, work⟩) := by
  obtain ⟨added, set, waiting, nodup, fresh, all⟩ := push_foldl (asked counts isEnabled i) ⟨inSet, work⟩
  refine ⟨?_, fun k mem => ?_, ?_, fun k mem idle j wanted => ?_⟩
  · exact set ▸ List.mem_append_right _ h.seeded
  · rw [waiting] at mem
    rw [set]
    rcases List.mem_append.mp mem with mem | mem
    · exact List.mem_append_left _ mem
    · exact List.mem_append_right _ (h.waits k (List.mem_cons_of_mem _ mem))
  · rw [set]
    refine List.nodup_append.mpr ⟨nodup, h.inSet_nodup, fun k mem k' mem' same => ?_⟩
    exact fresh k mem (same ▸ mem')
  · rw [waiting] at idle
    by_cases this : k = i
    · exact all j (this ▸ wanted)
    · rw [set] at mem ⊢
      simp only [List.mem_append, not_or] at idle mem
      have old := mem.resolve_left idle.1
      have known := h.processed k old (by simpa [this] using idle.2) j wanted
      exact List.mem_append_right _ known

/-- A closure that comes to its end is the enabled part of a closed set. -/
theorem close_closed {bound : Option Nat} {fuel enabledCount : Nat}
    (h : Growing counts isEnabled seed w) {set : List (NetTransition net)}
    (done : close counts isEnabled bound fuel w enabledCount = some set) :
    ∃ T : NetTransition net → Prop, Closed counts isEnabled T ∧ T seed ∧
      ∀ i, i ∈ set ↔ T i ∧ isEnabled i = true := by
  induction fuel generalizing w enabledCount with
  | zero =>
    obtain ⟨inSet, _ | ⟨i, work⟩⟩ := w
    · obtain rfl := Option.some.inj done
      refine ⟨fun i => i ∈ inSet, fun i mem j => h.processed i mem (by simp) j, h.seeded, by simp⟩
    · cases done
  | succ fuel ih =>
    obtain ⟨inSet, _ | ⟨i, work⟩⟩ := w
    · obtain rfl := Option.some.inj done
      refine ⟨fun i => i ∈ inSet, fun i mem j => h.processed i mem (by simp) j, h.seeded, by simp⟩
    · have next := h.process
      unfold asked at next
      unfold close at done
      split at done
      next on =>
        rw [if_pos on] at next
        split at done
        · cases done
        · exact ih next done
      next off =>
        rw [if_neg off] at next
        exact ih next done

/-- Without a bound a closure comes to its end: each transition waits once. -/
theorem close_isSome {fuel enabledCount : Nat} (h : Growing counts isEnabled seed w)
    (enough : net.transitions.length + w.work.length ≤ fuel + w.inSet.length) :
    ∃ set, close counts isEnabled none fuel w enabledCount = some set := by
  induction fuel generalizing w enabledCount with
  | zero =>
    obtain ⟨inSet, _ | ⟨i, work⟩⟩ := w
    · exact ⟨_, rfl⟩
    · have few : inSet.length ≤ net.transitions.length := by
        simpa using h.inSet_nodup.length_le_card
      simp only [List.length_cons] at enough
      omega
  | succ fuel ih =>
    obtain ⟨inSet, _ | ⟨i, work⟩⟩ := w
    · exact ⟨_, rfl⟩
    · have enough' : ∀ js : List (NetTransition net),
          net.transitions.length + (js.foldl push ⟨inSet, work⟩).work.length ≤
            fuel + (js.foldl push ⟨inSet, work⟩).inSet.length := by
        intro js
        obtain ⟨added, set, waiting, -⟩ := push_foldl js ⟨inSet, work⟩
        rw [set, waiting, List.length_append, List.length_append]
        simp only [List.length_cons] at enough ⊢
        omega
      have next := h.process
      unfold asked at next
      unfold close
      split
      next on =>
        rw [if_pos on] at next
        exact ih next (enough' _)
      next off =>
        rw [if_neg off] at next
        exact ih next (enough' _)

theorem growing_singleton : Growing counts isEnabled seed ⟨[seed], [seed]⟩ where
  seeded := List.mem_singleton_self seed
  waits := fun _ mem => mem
  inSet_nodup := List.nodup_singleton seed
  processed := fun _ mem idle => absurd mem idle

variable (counts isEnabled) in
/-- The enabled part of a closed set, with something in it. -/
def EnabledPart (set : List (NetTransition net)) : Prop :=
  ∃ T : NetTransition net → Prop, Closed counts isEnabled T ∧ (∃ i, T i ∧ isEnabled i = true) ∧
    ∀ i, i ∈ set ↔ T i ∧ isEnabled i = true

theorem closure_enabledPart {bound : Option Nat} {set : List (NetTransition net)}
    (on : isEnabled seed = true) (done : closure counts isEnabled seed bound = some set) :
    EnabledPart counts isEnabled set := by
  obtain ⟨T, closed, member, exact_⟩ := close_closed growing_singleton done
  exact ⟨T, closed, ⟨seed, member, on⟩, exact_⟩

theorem best_enabledPart {seeds : List (NetTransition net)}
    {found : Option (List (NetTransition net))} (on : ∀ i ∈ seeds, isEnabled i = true)
    (fair : ∀ set, found = some set → EnabledPart counts isEnabled set) :
    ∀ set, best counts isEnabled seeds found = some set → EnabledPart counts isEnabled set := by
  induction seeds generalizing found with
  | nil => exact fair
  | cons seed seeds ih =>
    have on' : ∀ i ∈ seeds, isEnabled i = true := fun i mem => on i (List.mem_cons_of_mem _ mem)
    intro set chosen
    unfold best at chosen
    split at chosen
    · exact ih on' fair set chosen
    next set' done =>
      have better := closure_enabledPart (on seed List.mem_cons_self) done
      split at chosen
      · split at chosen
        · exact Option.some.inj chosen ▸ better
        · exact ih on' (fun _ same => Option.some.inj same ▸ better) set chosen
      · exact ih on' fair set chosen

theorem best_of_found {seeds : List (NetTransition net)} (set : List (NetTransition net)) :
    ∃ set', best counts isEnabled seeds (some set) = some set' := by
  induction seeds generalizing set with
  | nil => exact ⟨set, rfl⟩
  | cons seed seeds ih =>
    unfold best
    split
    · exact ih set
    next set' _ =>
      split
      · split
        · exact ⟨set', rfl⟩
        · exact ih set'
      · exact ih set

theorem best_isSome (seeds : List (NetTransition net)) (some_ : seeds ≠ []) :
    ∃ set, best counts isEnabled seeds none = some set := by
  cases seeds with
  | nil => exact absurd rfl some_
  | cons seed seeds =>
    obtain ⟨set, done⟩ : ∃ set, closure counts isEnabled seed none = some set :=
      close_isSome growing_singleton (le_refl _)
    unfold best
    rw [Option.map_none, done]
    simp only [Option.all_none, ↓reduceIte]
    split
    · exact ⟨set, rfl⟩
    · exact best_of_found set

/-- What is selected among enabled transitions is the enabled part of a closed set. -/
theorem select_closed (marking : MarkingState) {enabled : List (NetTransition net)}
    (some_ : enabled ≠ []) :
    EnabledPart marking.tokens (fun i => i ∈ enabled) (select marking enabled) := by
  unfold select
  split
  · -- a transition enabled alone: every transition is in the set
    obtain ⟨t, mem⟩ := List.exists_mem_of_ne_nil _ some_
    exact ⟨fun _ => True, fun _ _ _ _ => trivial, ⟨t, trivial, by simpa using mem⟩, by simp⟩
  · set seeds := enabled.insertionSort fun x y => (transitionAt x).name ≤ (transitionAt y).name
      with sorted
    have same : ∀ i, i ∈ seeds ↔ i ∈ enabled := fun i => by rw [sorted, List.mem_insertionSort]
    have some' : seeds ≠ [] := by
      obtain ⟨t, mem⟩ := List.exists_mem_of_ne_nil _ some_
      exact List.ne_nil_of_mem ((same t).mpr mem)
    obtain ⟨set, chosen⟩ :
        ∃ set, best marking.tokens (fun i => i ∈ enabled) seeds none = some set :=
      best_isSome seeds some'
    obtain ⟨T, closed, awake, exact_⟩ := best_enabledPart
      (fun i mem => decide_eq_true ((same i).mp mem)) (by simp) set chosen
    refine ⟨T, closed, awake, fun i => ?_⟩
    simp only [chosen, Option.getD_some, List.mem_filter, decide_eq_true_eq, exact_]
    tauto

end Closures

/-! ## Closed sets are stubborn -/

section Stubbornness

variable {m : Counts} {T : NetTransition net → Prop}

variable (m T) in
/-- The members of `T` stand at `u` as they do at `m`: enabled, or with the same condition unsatisfied. -/
structure StandsAs (u : Counts) : Prop where
  enabled : ∀ i, T i → Enabled (transitionAt i) m → Enabled (transitionAt i) u
  unsatisfied : ∀ i, T i → ∀ c,
    (conditions (transitionAt i)).find? (Condition.unsatisfied m) = some c →
      c.unsatisfied u = true

/-- A transition outside what can satisfy a condition leaves it unsatisfied. -/
theorem fire_unsatisfied {c : Condition} {b : NetTransition net} {u : Counts} {o : Outcome}
    (outcome : o ∈ outcomes (transitionAt b))
    (off : b ∉ if c.inhibitor then decreasers net c.place else increasers net c.place)
    (h : c.unsatisfied u = true) : c.unsatisfied (fire (transitionAt b) u o) = true := by
  unfold Condition.unsatisfied at h ⊢
  cases kind : c.inhibitor with
  | true =>
    simp only [kind, ↓reduceIte, decide_eq_true_eq] at h off ⊢
    have kept : c.place ∉ decreases (transitionAt b) := by simpa [decreasers] using off
    unfold fire
    rw [intermediate_eq kept]
    omega
  | false =>
    simp only [kind, Bool.false_eq_true, ↓reduceIte, decide_eq_true_eq] at h off ⊢
    have kept : c.place ∉ increases (transitionAt b) := by simpa [increasers] using off
    unfold fire
    rw [deposited_eq_zero outcome kept]
    have : intermediate (transitionAt b) u c.place ≤ u c.place := intermediate_le
    omega

/-- A member that fires where it stands as at `m` is enabled at `m`. -/
theorem StandsAs.enabled_of_fires {u : Counts} (stands : StandsAs m T u) {i : NetTransition net}
    (member : T i) (now : Enabled (transitionAt i) u) : Enabled (transitionAt i) m := by
  rw [enabled_iff_conditions] at now ⊢
  intro c mem
  by_contra unsat
  have some_ : ((conditions (transitionAt i)).find? (Condition.unsatisfied m)).isSome := by
    rw [List.find?_isSome]
    exact ⟨c, mem, by simpa using unsat⟩
  obtain ⟨first, found⟩ := Option.isSome_iff_exists.mp some_
  have := stands.unsatisfied i member first found
  rw [now first (List.mem_of_find?_eq_some found)] at this
  cases this

variable {isEnabled : NetTransition net → Bool}
  (enabling : ∀ i, isEnabled i = true ↔ Enabled (transitionAt i) m)
  (closed : Closed m isEnabled T)

include enabling closed

/-- An enabled member is independent of the transitions outside the set. -/
theorem Closed.independent {i b : NetTransition net} (member : T i)
    (enabled : Enabled (transitionAt i) m) (outside : ¬T b) :
    Independent (transitionAt i) (transitionAt b) := by
  refine independent_of_not_dependent (Bool.eq_false_iff.mpr fun dep => outside ?_)
  refine closed i member b ?_
  unfold asked
  rw [if_pos ((enabling i).mpr enabled)]
  refine List.mem_filter.mpr ⟨List.mem_finRange b, decide_eq_true ⟨fun same => ?_, dep⟩⟩
  exact outside (same ▸ member)

theorem Closed.standsAs_outside {u v : Counts} {b : NetTransition net}
    (stands : StandsAs m T u) (outside : ¬T b) (fires : Fires net u b v) : StandsAs m T v := by
  obtain ⟨-, o, outcome, rfl⟩ := fires
  refine ⟨fun i member enabled => ?_, fun i member c first => ?_⟩
  · have apart := closed.independent enabling member enabled outside
    exact (apart.enabled_iff outcome).mpr (stands.enabled i member enabled)
  · refine fire_unsatisfied outcome (fun asks => outside (closed i member b ?_))
      (stands.unsatisfied i member c first)
    have off : ¬isEnabled i = true := by
      rw [enabling, enabled_iff_conditions]
      intro all
      have mem := List.mem_of_find?_eq_some first
      have unsat : c.unsatisfied m = true := by simpa using List.find?_some first
      rw [all c mem] at unsat
      cases unsat
    unfold asked scapegoat
    rw [if_neg off, first]
    exact asks

/-- **Closed sets are stubborn.** -/
theorem Closed.stubborn (awake : ∃ i, T i ∧ Enabled (transitionAt i) m) :
    Stubborn (Fires net) T (StandsAs m T) m where
  here := by
    refine ⟨fun _ _ enabled => enabled, fun i _ c first => ?_⟩
    simpa using List.find?_some first
  outside := fun u b v stands outside fires =>
    closed.standsAs_outside enabling stands outside fires
  awake := by
    intro u stands
    obtain ⟨i, member, enabled⟩ := awake
    obtain ⟨o, outcome⟩ := List.exists_mem_of_ne_nil _ (outcomes_ne_nil (transitionAt i))
    exact ⟨i, _, member, stands.enabled i member enabled, o, outcome, rfl⟩
  swaps := by
    rintro u b v a w stands outside member fires ⟨enabled, o', outcome', rfl⟩
    have still := closed.standsAs_outside enabling stands outside fires
    have apart := closed.independent enabling member
      (still.enabled_of_fires member enabled) outside
    obtain ⟨able, o, outcome, rfl⟩ := fires
    refine ⟨fire (transitionAt a) u o',
      ⟨(apart.enabled_iff outcome).mp enabled, o', outcome', rfl⟩,
      (apart.symm.enabled_iff outcome').mpr able, o, outcome, apart.symm.fire_comm outcome outcome'⟩

end Stubbornness

/-! ## Dead markings -/

section Graph

variable {env : Environment} {untimed : Bool} {initialMarking : MarkingState}

theorem stuck_iff {m : Counts} : Stuck (Fires net) m ↔ Dead net m := by
  constructor
  · intro stuck t enabled
    obtain ⟨o, outcome⟩ := List.exists_mem_of_ne_nil _ (outcomes_ne_nil (transitionAt t))
    exact stuck t _ ⟨enabled, o, outcome, rfl⟩
  · rintro dead t m' ⟨enabled, -⟩
    exact dead t enabled

/-- Where keys tell markings apart, a complete reduced graph holds the dead markings the token game reaches. -/
theorem dead_markings_of_complete (ignore : env.mode = .ignore) (atOnce : AtOnce net untimed)
    (tells : KeysTell net initialMarking) {maxClasses : Nat}
    {g : StateClassGraph net}
    (built : build net initialMarking maxClasses env ⟨untimed, true⟩ = .ok g)
    (complete : g.complete = true) (m : Counts) (dead : Dead net m) :
    (∃ c ∈ g.classes, c.marking.tokens = m) ↔ ReachableMarking net initialMarking.tokens m := by
  have all := classes_untimed ignore atOnce built
  constructor
  · rintro ⟨c, mem, rfl⟩
    exact (all c mem).reachable
  · intro reach
    rw [build_ok ignore] at built
    obtain rfl := Except.ok.inj built
    have explored : Exploration.Explored classKey (successors env untimed true)
        (initialStateClass net env untimed initialMarking)
        (Exploration.build classKey (successors env untimed true) maxClasses
          (initialStateClass net env untimed initialMarking)) :=
      Exploration.build_explored
    have expanded := Exploration.build_complete complete
    obtain ⟨n, trace⟩ := Trace.of_reflTransGen reach
    refine trace.stuck_kept (P := fun m => ∃ c ∈ _, c.marking.tokens = m) ?_
      ⟨_, List.mem_iff_getElem?.mpr ⟨0, explored.head⟩, rfl⟩ (stuck_iff.mpr dead)
    rintro _ ⟨c, mem, rfl⟩ awake
    have playable := (all c mem).playable
    -- the class expands the enabled part of a closed set
    have enabling : ∀ i, decide (i ∈ c.enabledTransitions) = true ↔
        Enabled (transitionAt i) c.marking.tokens := fun i => by
      rw [decide_eq_true_eq, playable.listed.enabled]
    have some_ : c.enabledTransitions ≠ [] := by
      intro none
      refine awake (stuck_iff.mpr fun t enabled => ?_)
      simpa [none] using (playable.listed.enabled t).mpr enabled
    obtain ⟨T, closed, ⟨i, member, on⟩, exact_⟩ := select_closed c.marking some_
    refine ⟨T, _, closed.stubborn enabling ⟨i, member, (enabling i).mp on⟩, ?_⟩
    rintro a m' inT ⟨enabled, o, outcome, rfl⟩
    obtain ⟨k, at_⟩ := List.mem_iff_getElem?.mp outcome
    have chosen : a ∈ expand true c := (exact_ a).mpr ⟨inT, (enabling a).mpr enabled⟩
    have succ := (mem_successors ignore atOnce playable (l := (a, k))).mpr ⟨chosen, o, at_, rfl⟩
    obtain ⟨p, found⟩ := List.mem_iff_getElem?.mp mem
    have bound := (List.getElem?_eq_some_iff.mp found).1
    obtain ⟨j, d, -, there, same⟩ := explored.successor found (expanded ▸ bound) succ
    have mem' := List.mem_iff_getElem?.mpr ⟨j, there⟩
    have named := (successors_untimed ignore atOnce (all c mem) succ).named
    refine ⟨d, mem', ?_⟩
    rw [tells _ _ (all d mem').named named same]
    exact computeSuccessor_tokens ignore untimed none enabled

end Graph

/-! ## Two nets -/

def movedGraph : StateClassGraph movingNet :=
  Exploration.build classKey (successors closedEnvironment true true) 10
    (initialStateClass movingNet closedEnvironment true movingMarking)

def movedMarking : MarkingState := MarkingState.empty.addTokens "b" 1

/-- As `closingNet`, but the second transition ends the run. -/
def closingOnceNet : PetriNet Unit Unit :=
  netOf ["\x7d|p", "q"] [immediateTransition "p:1\x7d|t" none ["\x7d|p", "q"] (some "\x7d|p"),
    immediateTransition "t" (some "\x7d|p") [] (some "q")]

def closingOnceGraph : StateClassGraph closingOnceNet :=
  Exploration.build classKey (successors closedEnvironment true true) 10
    (initialStateClass closingOnceNet closedEnvironment true MarkingState.empty)

def endMarking : MarkingState := MarkingState.empty.addTokens "q" 1

end LibPetri.Verified

import LibPetri.Basis.Walks
import LibPetri.Verification.SmtEncoder

/-! # Runs of a flat net

A move of a flat net fires one of its transitions, within the caps, or injects one token.  Runs are walks
of moves; the firing counts of a run are read off its labels.
-/

namespace LibPetri.Verified

open LibPetri.Basis LibPetri.Core LibPetri.Runtime LibPetri.Verification
open LibPetri.Verification.AbstractReplayer LibPetri.Verification.SmtEncoder

variable {S : Type}

/-- The steps of the replayer. -/
def FlatStep (flatNet : FlatNet S) (s s' : flatNet.State) : Prop :=
  ∃ x ∈ successors flatNet s, x.state = s'

/-- A move: a firing of the labelled transition, or an injection. -/
inductive FlatMove (flatNet : FlatNet S) (s : flatNet.State) :
    Option flatNet.Position → flatNet.State → Prop
  | fire (t : flatNet.Position) :
    enabledA s (flatNet.transition t) = true →
      withinEnvBounds flatNet (fireA s (flatNet.transition t)) = true →
        FlatMove flatNet s (some t) (fireA s (flatNet.transition t))
  | inject (pid : flatNet.Index) (bound : Option Nat) :
    (pid, bound) ∈ resolveEnvInjection flatNet → (bound.all fun k => s pid < k) = true →
      FlatMove flatNet s none (injectA s pid)

abbrev FlatRun (flatNet : FlatNet S) : flatNet.State → List (Option flatNet.Position) →
    flatNet.State → Prop :=
  Walk (FlatMove flatNet)

/-- The states the replayer's steps lead to. -/
abbrev FlatReachable (flatNet : FlatNet S) : flatNet.State → flatNet.State → Prop :=
  Relation.ReflTransGen (FlatStep flatNet)

variable {flatNet : FlatNet S} {s s' s₀ : flatNet.State}

theorem mem_resolveEnvInjection {pid : flatNet.Index} {bound : Option Nat} :
    (pid, bound) ∈ resolveEnvInjection flatNet ↔
      (flatNet.placeAt pid, bound) ∈ flatNet.environmentInjection.entries := by
  rw [← OrderedMap.get?_eq_some_iff, resolveEnvInjection, List.mem_filterMap]
  constructor
  · rintro ⟨p, -, found⟩
    obtain ⟨b, at_, same⟩ := Option.map_eq_some_iff.mp found
    obtain ⟨rfl, rfl⟩ := Prod.mk.inj same
    exact at_
  · exact fun found => ⟨pid, List.mem_finRange _, by rw [found]; rfl⟩

theorem mem_firings {ft : FlatTransition S flatNet.places.length} :
    (ft, s') ∈ firings flatNet s ↔ ft ∈ flatNet.transitions ∧ enabledA s ft = true ∧
      withinEnvBounds flatNet (fireA s ft) = true ∧ s' = fireA s ft := by
  unfold firings
  rw [List.mem_filterMap]
  constructor
  · rintro ⟨gt, mem, found⟩
    split at found
    next both =>
      obtain ⟨rfl, rfl⟩ := Prod.mk.inj (Option.some.inj found)
      rw [Bool.and_eq_true] at both
      exact ⟨mem, both.1, both.2, rfl⟩
    next => cases found
  · rintro ⟨mem, enabled, within, rfl⟩
    exact ⟨ft, mem, if_pos (by rw [enabled, within]; rfl)⟩

theorem mem_injections {x : Successor flatNet.places.length} :
    x ∈ injections flatNet s ↔ ∃ pid bound, (pid, bound) ∈ resolveEnvInjection flatNet ∧
      (bound.all fun k => s pid < k) = true ∧ x = ⟨injectA s pid, .inject (flatNet.placeAt pid)⟩ := by
  unfold injections
  rw [List.mem_filterMap]
  constructor
  · rintro ⟨⟨name, bound⟩, mem, found⟩
    obtain ⟨pid, at_, found⟩ := Option.bind_eq_some_iff.mp found
    obtain rfl := flatNet.placeIndex_eq_some.mp at_
    split at found
    next room =>
      exact ⟨pid, bound, mem_resolveEnvInjection.mpr mem, room, (Option.some.inj found).symm⟩
    next => cases found
  · rintro ⟨pid, bound, mem, room, rfl⟩
    refine ⟨_, mem_resolveEnvInjection.mp mem, ?_⟩
    simp only [FlatNet.placeIndex_placeAt, Option.bind_some, room, ↓reduceIte]

/-- The steps of the replayer are the moves. -/
theorem flatStep_iff_move : FlatStep flatNet s s' ↔ ∃ l, FlatMove flatNet s l s' := by
  unfold FlatStep successors
  constructor
  · rintro ⟨x, mem, rfl⟩
    rcases List.mem_append.mp mem with fired | injected
    · obtain ⟨⟨ft, s'⟩, fires, rfl⟩ := List.mem_map.mp fired
      obtain ⟨listed, enabled, within, rfl⟩ := mem_firings.mp fires
      obtain ⟨t, rfl⟩ := flatNet.mem_transitions.mp listed
      exact ⟨some t, .fire t enabled within⟩
    · obtain ⟨pid, bound, injects, room, rfl⟩ := mem_injections.mp injected
      exact ⟨none, .inject pid bound injects room⟩
  · rintro ⟨l, move⟩
    cases move with
    | fire t enabled within =>
      have fires : (flatNet.transition t, fireA s (flatNet.transition t)) ∈ firings flatNet s :=
        mem_firings.mpr ⟨flatNet.transition_mem t, enabled, within, rfl⟩
      exact ⟨_, List.mem_append_left _ (List.mem_map_of_mem fires), rfl⟩
    | inject pid bound mem room =>
      exact ⟨_, List.mem_append_right _ (mem_injections.mpr ⟨pid, bound, mem, room, rfl⟩), rfl⟩

/-- A state is reachable when some run leads to it. -/
theorem flatReachable_iff_run : FlatReachable flatNet s s' ↔ ∃ labels, FlatRun flatNet s labels s' := by
  have same : FlatStep flatNet = fun s s' => ∃ l, FlatMove flatNet s l s' := by
    funext s s'
    exact propext flatStep_iff_move
  rw [Walk.exists_iff, FlatReachable, same]

/-- How often a run fires each transition. -/
def firingCounts (labels : List (Option flatNet.Position)) (t : flatNet.Position) : Nat :=
  labels.count (some t)

theorem enabledA_iff_conditions {P : Nat} {s : AbstractState P} {ft : FlatTransition S P} :
    enabledA s ft = true ↔ (∀ p, ft.preVector p ≤ s p) ∧ (∀ p ∈ ft.readPlaces, 1 ≤ s p) ∧
      ∀ p ∈ ft.inhibitorPlaces, s p = 0 := by
  unfold enabledA
  simp only [Bool.and_eq_true, List.all_eq_true, List.mem_finRange, true_implies, Bool.not_eq_true',
    Bool.and_eq_false_iff, decide_eq_false_iff_not, not_lt, decide_eq_true_eq, and_assoc]
  refine and_congr_left' (forall_congr' fun p => ?_)
  constructor
  · rintro (none | enough)
    · omega
    · exact enough
  · exact .inr

/-- A firing changes no place by more than its column, from above. -/
theorem fireA_le {P : Nat} {s : AbstractState P} {ft : FlatTransition S P}
    (enabled : enabledA s ft = true) (p : Fin P) :
    (fireA s ft p : ℤ) ≤ s p + (ft.postVector p - ft.preVector p) := by
  have enough := (enabledA_iff_conditions.mp enabled).1 p
  unfold fireA
  split <;> push_cast <;> omega

/-- It changes a place that it does not clear by its column. -/
theorem fireA_eq_column {P : Nat} {s : AbstractState P} {ft : FlatTransition S P}
    (enabled : enabledA s ft = true) {p : Fin P} (kept : p ∉ ft.resetPlaces)
    (undrained : ft.consumeAll p = false) :
    (fireA s ft p : ℤ) = s p + (ft.postVector p - ft.preVector p) := by
  have enough := (enabledA_iff_conditions.mp enabled).1 p
  simp only [fireA, kept, undrained, decide_false, Bool.or_self, Bool.false_eq_true, ↓reduceIte]
  push_cast
  omega

/-! ## A net of one move -/

theorem moveOnce_nodup : ["a", "b"].Nodup := by decide

def moveOnceNet : FlatNet Unit where
  places := ["a", "b"]
  transitions :=
    [{ name := "t", source := (), branchIndex := none
       preVector := fun p => if p = 0 then 1 else 0
       postVector := fun p => if p = 1 then 1 else 0
       inhibitorPlaces := [], readPlaces := [], resetPlaces := []
       consumeAll := fun _ => false, reapable := false }]
  environmentBounds := OrderedMap.empty
  environmentInjection := OrderedMap.empty
  places_nodup := moveOnce_nodup
  bounds_injected := nothing_injected

instance : NeZero moveOnceNet.places.length := ⟨Nat.succ_ne_zero 1⟩

def moveOnceMarking : MarkingState := MarkingState.empty.addTokens "a" 1

end LibPetri.Verified

import LibPetri.Core.Net

/-! # Reaping

A transition with a deadline or a window that is enabled past its bound is reaped: it is disabled, and its tokens stay
where they are.  A marking in which only such transitions are enabled is one a run may rest at.
-/

namespace LibPetri.Verification

open LibPetri.Core

variable {V N : Type}

/-- `deadline` and `window`. -/
def isReapable : Timing → Bool
  | .deadline _ | .window _ _ => true
  | _ => false

/-- The names of the transitions that can be reaped. -/
def reapableTransitions (net : PetriNet V N) : List String :=
  (net.transitions.filter fun t => isReapable t.timing).map Transition.name

/-- What the flat net is told: the transition carries one of these names. -/
def reapableIn (net : PetriNet V N) (t : Transition V N) : Bool := t.name ∈ reapableTransitions net

/-- A deadline, and no exact instant. -/
theorem isReapable_eq (timing : Timing) : isReapable timing = (timing.hasDeadline && !timing.isExact) := by
  cases timing <;> rfl

theorem reapableIn_of_mem {net : PetriNet V N} {t : Transition V N} (mem : t ∈ net.transitions)
    (reapable : isReapable t.timing = true) : reapableIn net t = true := by
  refine decide_eq_true (List.mem_map.mpr ⟨t, ?_, rfl⟩)
  exact List.mem_filter.mpr ⟨mem, reapable⟩

end LibPetri.Verification

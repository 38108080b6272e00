import Mathlib

/-! # Commuting steps

A machine whose actions step between states, each in any number of ways.  A set of actions is stubborn
at a state when nothing outside the set can put it to sleep, and when a member that fires after outside
actions could have fired before them.  Following stubborn sets only, every dead state is still met.
-/

namespace LibPetri.Basis

variable {S A : Type} (fires : S → A → S → Prop)

/-- A run of some number of steps. -/
inductive Trace : Nat → S → S → Prop
  | refl (s : S) : Trace 0 s s
  | step {n : Nat} {s t u : S} (a : A) : fires s a t → Trace n t u → Trace (n + 1) s u

/-- No action fires. -/
def Stuck (s : S) : Prop := ∀ a t, ¬fires s a t

/-- `T` is stubborn at `s`, as the invariant `I` of the actions outside `T` shows. -/
structure Stubborn (T : A → Prop) (I : S → Prop) (s : S) : Prop where
  here : I s
  outside : ∀ u b v, I u → ¬T b → fires u b v → I v
  awake : ∀ u, I u → ∃ a v, T a ∧ fires u a v
  swaps : ∀ u b v a w, I u → ¬T b → T a → fires u b v → fires v a w →
    ∃ x, fires u a x ∧ fires x b w

variable {fires}

theorem Trace.snoc {n : Nat} {s t u : S} {a : A} (h : Trace fires n s t) (last : fires t a u) :
    Trace fires (n + 1) s u := by
  induction h with
  | refl s => exact .step a last (.refl u)
  | step b first _ ih => exact .step b first (ih last)

theorem Trace.of_reflTransGen {s t : S}
    (h : Relation.ReflTransGen (fun u v => ∃ a, fires u a v) s t) : ∃ n, Trace fires n s t := by
  induction h with
  | refl => exact ⟨0, .refl s⟩
  | tail _ last ih =>
    obtain ⟨n, trace⟩ := ih
    obtain ⟨a, last⟩ := last
    exact ⟨n + 1, trace.snoc last⟩

/-- A run to a stuck state takes a member of the set at some time, and could take it first. -/
theorem Trace.stubborn_first {T : A → Prop} {I : S → Prop}
    (outside : ∀ u b v, I u → ¬T b → fires u b v → I v)
    (awake : ∀ u, I u → ∃ a v, T a ∧ fires u a v)
    (swaps : ∀ u b v a w, I u → ¬T b → T a → fires u b v → fires v a w →
      ∃ x, fires u a x ∧ fires x b w)
    {n : Nat} {u w : S} (h : Trace fires n u w) (inv : I u) (stuck : Stuck fires w) :
    ∃ m, n = m + 1 ∧ ∃ a x, T a ∧ fires u a x ∧ Trace fires m x w := by
  induction h with
  | refl u =>
    obtain ⟨a, v, -, fire⟩ := awake u inv
    exact absurd fire (stuck a v)
  | step b first rest ih =>
    by_cases member : T b
    · exact ⟨_, rfl, b, _, member, first, rest⟩
    · obtain ⟨m, rfl, a, y, inT, second, rest⟩ := ih (outside _ _ _ inv member first) stuck
      obtain ⟨x, second, first⟩ := swaps _ _ _ _ _ inv member inT first second
      exact ⟨m + 1, rfl, a, x, inT, second, .step b first rest⟩

/-- **Stubborn sets keep the stuck states.**  States that are kept along a stubborn set, each of them
that is not stuck, contain every stuck state a run from them leads to. -/
theorem Trace.stuck_kept {P : S → Prop}
    (moves : ∀ s, P s → ¬Stuck fires s →
      ∃ T I, Stubborn fires T I s ∧ ∀ a t, T a → fires s a t → P t)
    {n : Nat} {s w : S} (h : Trace fires n s w) (kept : P s) (stuck : Stuck fires w) : P w := by
  induction n generalizing s with
  | zero =>
    cases h
    exact kept
  | succ n ih =>
    by_cases stuck' : Stuck fires s
    · cases h with
      | step a first _ => exact absurd first (stuck' a _)
    · obtain ⟨T, I, stubborn, moves⟩ := moves s kept stuck'
      obtain ⟨m, same, a, x, member, first, rest⟩ :=
        h.stubborn_first stubborn.outside stubborn.awake stubborn.swaps stubborn.here stuck
      obtain rfl := Nat.succ.inj same
      exact ih rest (moves a x member first)

end LibPetri.Basis

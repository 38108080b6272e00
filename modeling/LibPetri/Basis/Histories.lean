import Mathlib

/-! # Histories

A history lists what has happened, newest first.  What is asked of an entry may depend on the entries before it.
-/

namespace LibPetri.Basis

variable {E : Type} {P : List E → E → Prop}

/-- Every entry meets `P`, given the entries before it. -/
def Throughout (P : List E → E → Prop) : List E → Prop
  | [] => True
  | e :: older => P older e ∧ Throughout P older

instance decidableThroughout [∀ older, DecidablePred (P older)] : (history : List E) → Decidable (Throughout P history)
  | [] => .isTrue trivial
  | e :: older =>
    have := decidableThroughout older
    inferInstanceAs (Decidable (P older e ∧ Throughout P older))

theorem Throughout.older {recent past : List E} (h : Throughout P (recent ++ past)) : Throughout P past := by
  induction recent with
  | nil => exact h
  | cons e recent ih => exact ih h.2

end LibPetri.Basis

import Mathlib

/-! # Siphons and traps

Places and transitions by their input and output relations alone.  A siphon that is empty stays empty, a
trap that is marked stays marked; where no marking is dead but with an empty siphon, traps inside the
siphons keep a net alive.
-/

namespace LibPetri.Basis

variable {P T : Type} (ins outs : T → P → Prop)

/-- Every transition that outputs to `S` inputs from `S`. -/
def Siphon (S : Set P) : Prop := ∀ t, (∃ p ∈ S, outs t p) → ∃ p ∈ S, ins t p

/-- Every transition that inputs from `S` outputs to `S`. -/
def Trap (S : Set P) : Prop := ∀ t, (∃ p ∈ S, ins t p) → ∃ p ∈ S, outs t p

/-- Some place of `S` holds a token. -/
def Marked (m : P → Nat) (S : Set P) : Prop := ∃ p ∈ S, 0 < m p

/-- Firing `t` takes tokens from its inputs only, and leaves one on each of its outputs. -/
structure Passes (t : T) (m m' : P → Nat) : Prop where
  keeps : ∀ p, ¬ins t p → m p ≤ m' p
  leaves : ∀ p, outs t p → 0 < m' p

variable {ins outs}

theorem Trap.union {S S' : Set P} (h : Trap ins outs S) (h' : Trap ins outs S') :
    Trap ins outs (S ∪ S') := by
  rintro t ⟨p, mem, input⟩
  rcases mem with mem | mem
  · obtain ⟨q, mem, output⟩ := h t ⟨p, mem, input⟩
    exact ⟨q, .inl mem, output⟩
  · obtain ⟨q, mem, output⟩ := h' t ⟨p, mem, input⟩
    exact ⟨q, .inr mem, output⟩

/-- A marked trap stays marked. -/
theorem Trap.stays_marked {S : Set P} (h : Trap ins outs S) {t : T} {m m' : P → Nat}
    (step : Passes ins outs t m m') (marked : Marked m S) : Marked m' S := by
  obtain ⟨p, mem, token⟩ := marked
  by_cases input : ins t p
  · obtain ⟨q, mem, output⟩ := h t ⟨p, mem, input⟩
    exact ⟨q, mem, step.leaves q output⟩
  · exact ⟨p, mem, Nat.lt_of_lt_of_le token (step.keeps p input)⟩

theorem Marked.of_le {S : Set P} {m m' : P → Nat} (le : ∀ p, m p ≤ m' p) (marked : Marked m S) :
    Marked m' S := by
  obtain ⟨p, mem, token⟩ := marked
  exact ⟨p, mem, Nat.lt_of_lt_of_le token (le p)⟩

/-- Where every transition lacks an input, the empty places are a siphon. -/
theorem siphon_of_dead {m : P → Nat} (dead : ∀ t, ∃ p, ins t p ∧ m p = 0) :
    Siphon ins outs {p | m p = 0} := by
  rintro t -
  obtain ⟨p, input, empty⟩ := dead t
  exact ⟨p, empty, input⟩

/-- A transition is ready where each of its inputs holds a token, and some transition is ready where each
siphon with a place holds a marked trap. -/
theorem exists_ready [Nonempty T] {m : P → Nat}
    (traps : ∀ S : Set P, S.Nonempty → Siphon ins outs S → ∃ Q ⊆ S, Trap ins outs Q ∧ Marked m Q) :
    ∃ t, ∀ p, ins t p → 0 < m p := by
  by_contra none_
  push Not at none_
  have dead (t : T) : ∃ p, ins t p ∧ m p = 0 := by
    obtain ⟨p, input, empty⟩ := none_ t
    exact ⟨p, input, Nat.le_zero.mp empty⟩
  obtain ⟨p, -, empty⟩ := dead (Classical.arbitrary T)
  obtain ⟨Q, within, -, q, mem, token⟩ := traps {p | m p = 0} ⟨p, empty⟩ (siphon_of_dead dead)
  exact absurd (within mem) token.ne'

/-! ## Minimal siphons -/

/-- A siphon with a place, of which no proper part is one. -/
def MinimalSiphon (ins outs : T → P → Prop) (S : Finset P) : Prop :=
  Minimal (fun S : Finset P => S.Nonempty ∧ Siphon ins outs (S : Set P)) S

theorem exists_minimalSiphon {S : Finset P} (some_ : S.Nonempty)
    (siphon : Siphon ins outs (S : Set P)) : ∃ M ⊆ S, MinimalSiphon ins outs M := by
  obtain ⟨M, le, minimal⟩ := exists_minimal_le_of_wellFoundedLT
    (fun S : Finset P => S.Nonempty ∧ Siphon ins outs (S : Set P)) S ⟨some_, siphon⟩
  exact ⟨M, le, minimal⟩

/-- Traps inside the minimal siphons are traps inside all of them. -/
theorem traps_of_minimal {m : P → Nat} [Fintype P]
    (traps : ∀ S : Finset P, MinimalSiphon ins outs S → ∃ Q : Finset P, Q ⊆ S ∧
      Trap ins outs (Q : Set P) ∧ Marked m (Q : Set P))
    (S : Set P) (some_ : S.Nonempty) (siphon : Siphon ins outs S) :
    ∃ Q ⊆ S, Trap ins outs Q ∧ Marked m Q := by
  classical
  have all : (S.toFinset : Set P) = S := Set.coe_toFinset S
  obtain ⟨M, le, minimal⟩ := exists_minimalSiphon (S := S.toFinset)
    (Set.toFinset_nonempty.mpr some_) (all.symm ▸ siphon)
  obtain ⟨Q, within, trap, marked⟩ := traps M minimal
  refine ⟨Q, fun p mem => ?_, trap, marked⟩
  exact Set.mem_toFinset.mp (le (within mem))

end LibPetri.Basis

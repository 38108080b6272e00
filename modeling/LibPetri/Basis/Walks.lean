import Mathlib

/-! # Walks of a labelled relation

`Walk move s labels t` is a run from `s` to `t`, with the labels of its moves in order.  `Walk.invariant`
is the induction over its moves; what it carries may speak of the labels so far.
-/

namespace LibPetri.Basis

variable {S L : Type} {move : S → L → S → Prop} {s t u : S} {labels : List L} {l : L}

inductive Walk (move : S → L → S → Prop) (s : S) : List L → S → Prop
  | start : Walk move s [] s
  | move {labels : List L} {t u : S} (l : L) :
    Walk move s labels t → move t l u → Walk move s (labels ++ [l]) u

namespace Walk

theorem invariant {I : List L → S → Prop} (init : I [] s)
    (keeps : ∀ labels t l u, Walk move s labels t → I labels t → move t l u →
      I (labels ++ [l]) u) (h : Walk move s labels t) : I labels t := by
  induction h with
  | start => exact init
  | move l walk step ih => exact keeps _ _ l _ walk ih step

/-- The states that walks lead to. -/
theorem exists_iff :
    (∃ labels, Walk move s labels t) ↔ Relation.ReflTransGen (fun s t => ∃ l, move s l t) s t := by
  constructor
  · rintro ⟨labels, h⟩
    exact h.invariant (I := fun _ t => Relation.ReflTransGen _ s t) .refl
      fun _ _ l _ _ ih step => ih.tail ⟨l, step⟩
  · intro h
    induction h with
    | refl => exact ⟨[], .start⟩
    | tail _ step ih =>
      obtain ⟨labels, walk⟩ := ih
      obtain ⟨l, step⟩ := step
      exact ⟨_, walk.move l step⟩

/-- The last move of a walk. -/
theorem snoc_iff : Walk move s (labels ++ [l]) u ↔ ∃ t, Walk move s labels t ∧ move t l u := by
  constructor
  · intro h
    generalize eq : labels ++ [l] = all at h
    cases h with
    | start => exact absurd eq (by simp)
    | move k walk step =>
      obtain ⟨rfl, same⟩ := List.append_inj_right' eq rfl |> fun same =>
        And.intro (List.append_inj_left' eq rfl) same
      obtain rfl := List.singleton_inj.mp same
      exact ⟨_, walk, step⟩
  · rintro ⟨t, walk, step⟩
    exact walk.move l step

theorem nil_iff : Walk move s [] t ↔ s = t := by
  constructor
  · intro h
    generalize eq : ([] : List L) = all at h
    cases h with
    | start => rfl
    | move => exact absurd eq (by simp)
  · rintro rfl
    exact .start

/-- The states of a walk, in order; the last one repeats. -/
theorem exists_states (h : Walk move s labels t) :
    ∃ states : ℕ → S, states 0 = s ∧
      (∀ i l, labels[i]? = some l → move (states i) l (states (i + 1))) ∧
        ∀ i, labels.length ≤ i → states i = t := by
  induction h with
  | start =>
    exact ⟨fun _ => s, rfl, (fun i l found => by simp at found), fun _ _ => rfl⟩
  | @move labels t u l _ step ih =>
    obtain ⟨states, first, moves, last⟩ := ih
    refine ⟨fun i => if i ≤ labels.length then states i else u, ?_, ?_, ?_⟩
    · simpa using first
    · intro i k found
      rcases Nat.lt_trichotomy i labels.length with before | here | after
      · rw [List.getElem?_append_left before] at found
        have := moves i k found
        simpa [before.le, Nat.succ_le_of_lt before] using this
      · subst here
        obtain rfl : l = k := by simpa using found
        simpa [last _ le_rfl] using step
      · rw [List.getElem?_eq_none (by simp; omega)] at found
        cases found
    · intro i late
      rw [List.length_append, List.length_singleton] at late
      exact if_neg (by omega)

/-- A rank that every move lowers bounds the number of moves. -/
theorem length_le (rank : S → ℤ) (nonneg : ∀ labels t, Walk move s labels t → 0 ≤ rank t)
    (lowers : ∀ t l u, move t l u → rank u + 1 ≤ rank t) (h : Walk move s labels t) :
    (labels.length : ℤ) ≤ rank s := by
  have spent : (labels.length : ℤ) + rank t ≤ rank s := by
    refine h.invariant (I := fun labels t => (labels.length : ℤ) + rank t ≤ rank s) (by simp) ?_
    intro labels t l u _ ih step
    have := lowers t l u step
    simp only [List.length_append, List.length_singleton]
    push_cast
    omega
  have := nonneg labels t h
  omega

end Walk

end LibPetri.Basis
